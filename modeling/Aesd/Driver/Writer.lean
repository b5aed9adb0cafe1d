import Aesd.Driver.Layout
import Aesd.Library.Machine

/-!
# Runs of writes

The device under any sequence of `aesd_write` calls, what an observer finds in
it, and the records a run hands to the ring.
-/

namespace Aesd
open Library

structure WriteCall where
  env : CallEnv
  buf : List UInt8
  fpos : Int

/-- The device, stepped by calls of `aesd_write` that do not fault. -/
def writer : Machine Driver WriteCall where
  step s call :=
    let res := aesdWrite call.env call.buf s call.fpos
    if res.oops then none else some res.state

def handed (s : Driver) (call : WriteCall) : List (List UInt8) :=
  (aesdWrite call.env call.buf s call.fpos).handed.toList

def SomeBytes (_ : Driver) (call : WriteCall) : Prop := call.buf ≠ []

def Succeeds (s : Driver) (call : WriteCall) : Prop :=
  call.buf ≠ [] ∧ (aesdWrite call.env call.buf s call.fpos).retval = call.buf.length

instance (s : Driver) (call : WriteCall) : Decidable (SomeBytes s call) := inferInstanceAs (Decidable (_ ≠ _))
instance (s : Driver) (call : WriteCall) : Decidable (Succeeds s call) := inferInstanceAs (Decidable (_ ∧ _))

/-- The driver's blocks are laid out and no newline waits at the end of the pending bytes. -/
def Settled (s : Driver) : Prop :=
  ∃ ring pending lost, Layout s ring pending lost ∧ ∀ cell ∈ pending, ¬ EndsLine cell.2

/-- Some run of writes, failing or not, of `count >= 1` bytes each leads to the state. -/
def Reachable (s : Driver) : Prop :=
  ∃ calls, writer.Along SomeBytes Driver.init calls ∧ writer.run Driver.init calls = some s

namespace Driver

def text (s : Driver) (e : BufferEntry) : List UInt8 := s.heap.bytes (fun _ => 0) e.buffptr e.size

def pending (s : Driver) : List UInt8 := s.text s.dev.entry

def records (s : Driver) : List (List UInt8) :=
  ((window s.dev.buffer.slot maxWriteOperations s.dev.buffer.outOffs maxWriteOperations).filter
    fun e => 0 < e.size).map s.text

end Driver

variable {s s' : Driver} {ring : List Cell} {pending : Option Cell} {lost : List Nat} {call : WriteCall}
  {calls : List WriteCall}

theorem Layout.text_eq (h : Layout s ring pending lost) {cell : Cell} (inside : cell ∈ ring ++ pending.toList) :
    s.text cell.entry = cell.2 := by
  simp [Driver.text, Cell.entry, Heap.bytes, h.live cell inside]

theorem Layout.pending_eq (h : Layout s ring pending lost) : s.pending = pending.elim [] Prod.snd := by
  cases pending with
  | none => simp [Driver.pending, h.entry, Driver.text, BufferEntry.unused, Heap.bytes]
  | some cell =>
    rw [Driver.pending, h.entry]
    exact h.text_eq (by simp)

theorem Layout.window_eq (h : Layout s ring pending lost) :
    window s.dev.buffer.slot maxWriteOperations s.dev.buffer.outOffs maxWriteOperations =
      ring.map Cell.entry ++ List.replicate (maxWriteOperations - ring.length) .unused := by
  have few : ring.length ≤ maxWriteOperations := by simpa using h.holds.few
  apply List.ext_getElem (by simp; omega)
  intro j inWindow _
  rw [window_length] at inWindow
  rw [window_getElem]
  by_cases inside : j < ring.length
  · rw [h.holds.slot_eq (by simpa using inside), List.getElem_append_left (by simpa using inside)]
  · rw [h.holds.unused j (by simpa using inside) inWindow, List.getElem_append_right (by simpa using inside),
      List.getElem_replicate]

theorem Layout.records_eq (h : Layout s ring pending lost) : s.records = ring.map Prod.snd := by
  have used : (ring.map Cell.entry).filter (fun e => decide (0 < e.size)) = ring.map Cell.entry :=
    List.filter_eq_self.mpr fun e inside => decide_eq_true (h.holds.positive e inside)
  have zero (n : Nat) : (List.replicate n BufferEntry.unused).filter (fun e => decide (0 < e.size)) = [] :=
    List.filter_eq_nil_iff.mpr fun e inside => by
      obtain rfl := List.eq_of_mem_replicate inside
      simp [BufferEntry.unused]
  rw [Driver.records, h.window_eq, List.filter_append, used, zero, List.append_nil, List.map_map]
  exact List.map_congr_left fun cell inside => h.text_eq (List.mem_append_left _ inside)

/-! ### One write -/

theorem writer_step (h : Layout s ring pending lost) (some' : SomeBytes s call)
    (step : writer.step s call = some s') :
    (granted call.env call.buf s = false ∧ s' = s ∧ handed s call = []) ∨
    (granted call.env call.buf s = true ∧ ∃ a, target call.env pending = some a ∧
      let line := carried call.env pending ++ call.buf
      if EndsLine call.buf then
        handed s call = [line] ∧ Layout s' ((ring ++ [(a, line)]).rtake maxWriteOperations) none
          (lost ++ ((ring ++ [(a, line)]).rdrop maxWriteOperations).map Prod.fst)
      else handed s call = [] ∧ Layout s' ring (some (a, line)) lost) := by
  simp only [writer] at step
  cases ok : granted call.env call.buf s with
  | false =>
    obtain ⟨e, _, same⟩ := aesdWrite_denied call.fpos ok
    rw [same] at step
    exact Or.inl ⟨rfl, by simpa using step.symm, by simp [handed, same]⟩
  | true =>
    obtain ⟨a, reached, _, _, sound, after⟩ := aesdWrite_granted call.fpos h some' ok
    rw [sound] at step
    obtain rfl := Option.some.inj step
    refine Or.inr ⟨rfl, a, reached, ?_⟩
    by_cases ends : EndsLine call.buf
    · rw [if_pos ends] at after ⊢
      exact ⟨by simp [handed, after.1], after.2⟩
    · rw [if_neg ends] at after ⊢
      exact ⟨by simp [handed, after.1], after.2⟩

theorem succeeds_iff (h : Layout s ring pending lost) (some' : SomeBytes s call) :
    Succeeds s call ↔ granted call.env call.buf s = true := by
  constructor
  · intro ok
    by_contra denied
    obtain ⟨e, negative, same⟩ := aesdWrite_denied call.fpos (by simpa using denied)
    have returned := ok.2
    simp only [same] at returned
    omega
  · intro ok
    obtain ⟨_, _, returned, _⟩ := aesdWrite_granted call.fpos h some' ok
    exact ⟨some', returned⟩

theorem writer_enabled (h : Layout s ring pending lost) (some' : SomeBytes s call) :
    ∃ t, writer.step s call = some t := by
  cases ok : granted call.env call.buf s with
  | false =>
    obtain ⟨e, _, same⟩ := aesdWrite_denied call.fpos ok
    exact ⟨s, by simp [writer, same]⟩
  | true =>
    obtain ⟨_, _, _, _, sound, _⟩ := aesdWrite_granted call.fpos h some' ok
    exact ⟨_, by simp only [writer, sound]; rfl⟩

/-! ### Every run -/

/-- After any run the ring holds the last ten records handed to it. -/
theorem run_layout (some' : writer.Along SomeBytes Driver.init calls) (run : writer.run Driver.init calls = some s) :
    ∃ ring pending lost, Layout s ring pending lost ∧
      ring.map Prod.snd = (writer.observe handed Driver.init calls).rtake maxWriteOperations := by
  refine Machine.run_induction (P := fun calls s => ∃ ring pending lost, Layout s ring pending lost ∧
    ring.map Prod.snd = (writer.observe handed Driver.init calls).rtake maxWriteOperations)
    ⟨[], none, [], init_layout, rfl⟩ ?_ some' run
  intro calls s call s' before earlier some' step
  obtain ⟨ring, pending, lost, layout, history⟩ := earlier
  rw [Machine.observe_snoc before]
  rcases writer_step layout some' step with ⟨_, rfl, nothing⟩ | ⟨_, a, _, after⟩
  · exact ⟨ring, pending, lost, layout, by rw [nothing, List.append_nil, history]⟩
  · simp only at after
    split at after
    · obtain ⟨handed, layout'⟩ := after
      refine ⟨_, _, _, layout', ?_⟩
      conv_rhs => rw [handed, ← rtake_push_rtake, ← history]
      simp [List.rtake, List.map_drop]
    · obtain ⟨nothing, layout'⟩ := after
      exact ⟨_, _, _, layout', by rw [nothing, List.append_nil, history]⟩

theorem layout_on_the_way (some' : writer.Along SomeBytes Driver.init calls) : ∀ earlier later t,
    calls = earlier ++ later → writer.run Driver.init earlier = some t →
      ∃ ring pending lost, Layout t ring pending lost := by
  intro earlier later t split reached
  rw [split, Machine.along_append reached] at some'
  obtain ⟨ring, pending, lost, layout, _⟩ := run_layout some'.1 reached
  exact ⟨ring, pending, lost, layout⟩

theorem layout_fresh_nothing {t : Driver} {env : CallEnv} (h : Layout s ring none lost)
    (tested : testedState env [] s = some t) : t = { s with dev := { s.dev with entry := ⟨.zeroSize, 0⟩ } } := by
  unfold testedState at tested
  split at tested
  · cases tested
  split at tested
  · cases tested
  rename_i found
  simp only [Heap.kmalloc, List.length_nil, if_true, Option.some.injEq, Prod.mk.injEq] at found
  obtain ⟨rfl, rfl⟩ := found
  simp only [growEntry, h.entry, Option.elim_none, BufferEntry.unused, if_true, Option.some.injEq] at tested
  exact tested.symm

/-- One write of any count that does not fault. -/
theorem Settled.step (h : Settled s) (step : writer.step s call = some s') : Settled s' := by
  obtain ⟨ring, pending, lost, layout, waits⟩ := h
  unfold writer at step
  simp only at step
  cases ok : granted call.env call.buf s with
  | false =>
    obtain ⟨e, _, same⟩ := aesdWrite_denied call.fpos ok
    rw [same] at step
    obtain rfl := Option.some.inj step
    exact ⟨ring, pending, lost, layout, waits⟩
  | true =>
    by_cases bytes : call.buf ≠ [] ∨ pending ≠ none
    · obtain ⟨a, _, _, _, sound, after⟩ := aesdWrite_grown call.fpos layout bytes ok
      rw [sound] at step
      obtain rfl := Option.some.inj step
      by_cases ends : EndsLine (carried call.env pending ++ call.buf)
      · rw [if_pos ends] at after
        exact ⟨_, none, _, after.2, by simp⟩
      · rw [if_neg ends] at after
        exact ⟨_, _, _, after.2, by simpa using ends⟩
    · obtain ⟨nothing, fresh⟩ := not_or.mp bytes
      obtain rfl := not_not.mp fresh
      rw [not_not.mp nothing] at ok step
      rw [← testedState_isSome] at ok
      obtain ⟨t, tested⟩ := Option.isSome_iff_exists.mp ok
      obtain rfl := layout_fresh_nothing layout tested
      rw [aesdWrite_tested call.fpos tested] at step
      cases step

/-- The device after any writes of any counts. -/
theorem run_settled (run : writer.run Driver.init calls = some s) : Settled s :=
  Machine.run_invariant (P := Settled) (fun settled _ step => settled.step step)
    ⟨[], none, [], init_layout, by simp⟩ Machine.along_true run

theorem Reachable.layout (h : Reachable s) : ∃ ring pending lost, Layout s ring pending lost := by
  obtain ⟨calls, some', run⟩ := h
  obtain ⟨ring, pending, lost, layout, _⟩ := run_layout some' run
  exact ⟨ring, pending, lost, layout⟩

end Aesd
