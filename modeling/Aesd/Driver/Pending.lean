import Aesd.Driver.Writer

/-!
# The pending entry

What `dev->entry` keeps between writes, and the byte that the newline test of a
write looks at. A write of no bytes to an empty entry leaves the pointer that
`kmalloc(0)` returns and tests the byte before it.
-/

namespace Aesd
open Library

/-- The entry is NULL exactly when it is empty; otherwise it owns its bytes and no newline ends them. -/
structure PendingKept (s : Driver) : Prop where
  null_iff : s.dev.entry.buffptr = .null ↔ s.dev.entry.size = 0
  owns : s.dev.entry.buffptr ≠ .null → ∃ a bytes, s.dev.entry.buffptr = .block a ∧ s.heap.get a = some bytes ∧
    s.dev.entry.size ≤ bytes.length ∧ ¬ EndsLine (bytes.take s.dev.entry.size)

/-- The call leaves a well-formed entry, and its newline test, where it gets that far, looks inside. -/
def KeepsEntry (s : Driver) (call : WriteCall) : Prop :=
  PendingKept (aesdWrite call.env call.buf s call.fpos).state ∧
  ∀ t, testedState call.env call.buf s = some t → sizeSub t.dev.entry.size 1 < t.dev.entry.size

/-- The call is not a write of no bytes that gets the lock while nothing is pending. -/
def TestsSome (s : Driver) (call : WriteCall) : Prop :=
  ¬ (call.env.interrupted = false ∧ call.buf = [] ∧ s.dev.entry.buffptr = .null)

variable {s : Driver} {ring : List Cell} {pending : Option Cell} {lost : List Nat} {call : WriteCall}

theorem Layout.buffptr_null (h : Layout s ring pending lost) : s.dev.entry.buffptr = .null ↔ pending = none := by
  rw [h.entry]
  cases pending <;> simp [BufferEntry.unused, Cell.entry]

theorem Layout.pendingKept (h : Layout s ring pending lost) (waits : ∀ cell ∈ pending, ¬ EndsLine cell.2) :
    PendingKept s := by
  cases pending with
  | none =>
    constructor
    · simp [h.entry, BufferEntry.unused]
    · intro some'
      exact (some' (h.buffptr_null.mpr rfl)).elim
  | some cell =>
    have filled := h.filled cell rfl
    constructor
    · simp [h.entry, Cell.entry, filled]
    · intro _
      refine ⟨cell.1, cell.2, ?_, h.live cell (by simp), ?_, ?_⟩
      · rw [h.entry]
        rfl
      · rw [h.entry]
        exact Nat.le_refl _
      · simp only [h.entry, Option.elim_some, Cell.entry, List.take_length]
        exact waits cell rfl

theorem Settled.pendingKept (h : Settled s) : PendingKept s := by
  obtain ⟨_, _, _, layout, waits⟩ := h
  exact layout.pendingKept waits

theorem Layout.tested_inside {t : Driver} (h : Layout s ring pending lost) (some' : call.buf ≠ [] ∨ pending ≠ none)
    (tested : testedState call.env call.buf s = some t) : sizeSub t.dev.entry.size 1 < t.dev.entry.size := by
  obtain ⟨a, _, layout⟩ := h.tested some' tested
  have filled := List.length_pos_iff.mpr (layout.filled _ rfl)
  have small := layout.total_lt
  simp only [List.map_append, List.flatten_append, List.length_append, Option.toList_some, List.map_cons,
    List.map_nil, List.flatten_cons, List.flatten_nil, List.append_nil] at small
  rw [layout.entry, Option.elim_some, Cell.entry]
  simp only [List.length_append] at filled ⊢
  rw [sizeSub_of_le (by omega) (by omega)]
  omega

theorem keepsEntry_iff_testsSome (h : Settled s) : KeepsEntry s call ↔ TestsSome s call := by
  obtain ⟨ring, pending, lost, layout, waits⟩ := h
  unfold KeepsEntry TestsSome
  rw [layout.buffptr_null]
  cases ok : granted call.env call.buf s with
  | false =>
    obtain ⟨e, _, same⟩ := aesdWrite_denied call.fpos ok
    rw [← testedState_isSome, Option.isSome_eq_false_iff, Option.isNone_iff_eq_none] at ok
    refine iff_of_true ⟨?_, ?_⟩ ?_
    · rw [same]
      exact layout.pendingKept waits
    · intro t tested
      rw [ok] at tested
      cases tested
    · intro fresh
      obtain ⟨lock, nothing, rfl⟩ := fresh
      simp [testedState, lock, nothing, Heap.kmalloc, growEntry, layout.entry, BufferEntry.unused] at ok
  | true =>
    by_cases bytes : call.buf ≠ [] ∨ pending ≠ none
    · refine iff_of_true ⟨?_, fun t => layout.tested_inside bytes⟩ ?_
      · obtain ⟨_, _, _, _, sound, _⟩ := aesdWrite_grown call.fpos layout bytes ok
        have step : writer.step s call = some (aesdWrite call.env call.buf s call.fpos).state := by
          simp only [writer, sound]
          rfl
        exact (Settled.step ⟨ring, pending, lost, layout, waits⟩ step).pendingKept
      · intro fresh
        rcases bytes with some' | some'
        · exact some' fresh.2.1
        · exact some' fresh.2.2
    · obtain ⟨nothing, fresh⟩ := not_or.mp bytes
      obtain rfl := not_not.mp fresh
      have nothing := not_not.mp nothing
      have lock : call.env.interrupted = false := by
        simp only [granted, Bool.and_eq_true, Bool.not_eq_true'] at ok
        exact ok.1.1
      rw [← testedState_isSome] at ok
      obtain ⟨t, tested⟩ := Option.isSome_iff_exists.mp ok
      refine iff_of_false ?_ fun apart => apart ⟨lock, nothing, rfl⟩
      intro kept
      have inside := kept.2 t tested
      rw [nothing] at tested
      obtain rfl := layout_fresh_nothing layout tested
      exact Nat.not_lt_zero _ inside

/-- In any run of writes, of any counts and with any failures, every call keeps the pending entry and
tests a byte of it exactly when none is a write of no bytes that gets the lock while nothing is
pending. -/
theorem keeps_entry_iff (calls : List WriteCall) :
    writer.Along KeepsEntry Driver.init calls ↔ writer.Along TestsSome Driver.init calls := by
  apply Machine.along_congr (P := Settled)
  · exact keepsEntry_iff_testsSome
  · intro s call t settled step
    exact settled.step step
  · exact ⟨[], none, [], init_layout, by simp⟩

/-- The first call on the device writes no bytes. -/
theorem keeps_entry_nothing_written :
    ¬ ∀ calls : List WriteCall, writer.Along KeepsEntry Driver.init calls := by
  intro keeps
  have kept := (keeps [⟨{}, [], 0⟩]).1.1.null_iff
  revert kept
  decide

end Aesd
