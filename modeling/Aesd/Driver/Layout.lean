import Aesd.Driver.Device

/-!
# The driver's blocks

Which block each entry points at. `Layout` follows the blocks through
`aesd_write`: the ring and the pending entry own live blocks of their size, all
different, and the rest of the live blocks are lost.
-/

namespace Aesd
open Library

abbrev Cell := Nat × List UInt8

def Cell.entry (cell : Cell) : BufferEntry := ⟨.block cell.1, cell.2.length⟩

def EndsLine (text : List UInt8) : Prop := text.getLast? = some newline

instance (text : List UInt8) : Decidable (EndsLine text) := inferInstanceAs (Decidable (_ = _))

theorem endsLine_append {kept buf : List UInt8} (some : buf ≠ []) : EndsLine (kept ++ buf) ↔ EndsLine buf := by
  simp [EndsLine, List.getLast?_append, List.getLast?_eq_some_getLast some]

/-- The ring's blocks, oldest first, the pending block and the blocks nothing points at. -/
structure Layout (s : Driver) (ring : List Cell) (pending : Option Cell) (lost : List Nat) : Prop where
  holds : s.dev.buffer.Holds (ring.map Cell.entry)
  entry : s.dev.entry = pending.elim .unused Cell.entry
  live : ∀ cell ∈ ring ++ pending.toList, s.heap.get cell.1 = some cell.2
  filled : ∀ cell ∈ pending, cell.2 ≠ []
  distinct : ((ring ++ pending.toList).map Prod.fst ++ lost).Nodup
  owned : ∀ a, s.heap.get a ≠ none ↔ a ∈ (ring ++ pending.toList).map Prod.fst ++ lost

/-- The kernel gives `aesd_write` the lock, the memory and the user's bytes. -/
def granted (env : CallEnv) (buf : List UInt8) (s : Driver) : Bool :=
  !env.interrupted && min env.notCopied buf.length == 0 &&
    match s.heap.kmalloc buf.length env.kmallocAt env.junk with
    | none => false
    | some (newBuff, heap) => s.dev.entry.buffptr = .null ||
      ((heap.store newBuff 0 buf).krealloc s.dev.entry.buffptr (sizeT (s.dev.entry.size + buf.length))
        env.kreallocAt env.junk).isSome

/-- The state in which `aesd_write` tests the last byte of its entry, when it gets that far. -/
def testedState (env : CallEnv) (buf : List UInt8) (s : Driver) : Option Driver :=
  if env.interrupted ∨ min env.notCopied buf.length ≠ 0 then none
  else
    match s.heap.kmalloc buf.length env.kmallocAt env.junk with
    | none => none
    | some (newBuff, heap) => growEntry env { s with heap := heap.store newBuff 0 buf } newBuff buf.length

/-- What the first `memcpy` finds of the pending bytes once `krealloc` has answered. -/
def carried (env : CallEnv) : Option Cell → List UInt8
  | none => []
  | some (a, bytes) => if env.kreallocAt = some a then bytes else garbage env.junk bytes.length

def target (env : CallEnv) : Option Cell → Option Nat
  | none => env.kmallocAt
  | some _ => env.kreallocAt

variable {s : Driver} {ring : List Cell} {pending : Option Cell} {lost : List Nat} {env : CallEnv}
  {buf line : List UInt8} {fpos : Int} {a : Nat}

theorem init_layout : Layout Driver.init [] none [] where
  holds := CircularBuffer.init_holds
  entry := rfl
  live := by simp
  filled := by simp
  distinct := by simp
  owned := by simp [Driver.init]

theorem carried_length (env : CallEnv) (pending : Option Cell) :
    (carried env pending).length = (pending.elim [] Prod.snd).length := by
  rcases pending with _ | ⟨a, bytes⟩
  · rfl
  · simp only [carried, Option.elim_some]
    split <;> simp

/-! ### Sizes -/

theorem Layout.total_lt (h : Layout s ring pending lost) :
    ((ring ++ pending.toList).map Prod.snd).flatten.length < 2 ^ 63 := by
  have fits := s.heap.sum_lengths_lt _ (List.nodup_append.mp h.distinct).1 h.live
  rw [List.length_flatten, List.map_map]
  exact fits

/-! ### The new buffer -/

theorem kmalloc_store {heap heap' : Heap} {p : Pointer} (some' : buf ≠ [])
    (found : heap.kmalloc buf.length env.kmallocAt env.junk = some (p, heap')) :
    ∃ n, env.kmallocAt = some n ∧ p = .block n ∧ heap.get n = none ∧
      heap.put n buf = some (heap'.store p 0 buf) := by
  obtain ⟨n, answer, rfl, dead, put⟩ := Heap.kmalloc_some (List.length_pos_iff.mpr some') found
  refine ⟨n, answer, rfl, dead, ?_⟩
  have fresh : heap'.get n = some (garbage env.junk buf.length) := by rw [Heap.get_put put]; simp
  have stored := Heap.put_store fresh 0 buf (by simp)
  rw [Heap.overwrite_whole (by simp)] at stored
  exact Heap.put_put put stored

theorem kmalloc_kfree {heap heap' : Heap} {p : Pointer}
    (found : heap.kmalloc buf.length env.kmallocAt env.junk = some (p, heap')) :
    heap'.kfree p = heap ∧ (heap'.store p 0 buf).kfree p = heap := by
  by_cases nothing : buf = []
  · subst nothing
    simp only [Heap.kmalloc, List.length_nil, if_true, Option.some.injEq, Prod.mk.injEq] at found
    obtain ⟨rfl, rfl⟩ := found
    exact ⟨rfl, rfl⟩
  · obtain ⟨m, _, same, _, first⟩ := Heap.kmalloc_some (List.length_pos_iff.mpr nothing) found
    obtain ⟨n, _, rfl, dead, put⟩ := kmalloc_store nothing found
    obtain rfl := Pointer.block.inj same
    exact ⟨Heap.drop_put dead first, Heap.drop_put dead put⟩

theorem growEntry_isSome (env : CallEnv) (s : Driver) (newBuff : Pointer) (count : Nat) :
    (growEntry env s newBuff count).isSome = (decide (s.dev.entry.buffptr = .null) ||
      (s.heap.krealloc s.dev.entry.buffptr (sizeT (s.dev.entry.size + count)) env.kreallocAt env.junk).isSome) := by
  unfold growEntry
  by_cases first : s.dev.entry.buffptr = .null
  · simp [first]
  · rw [if_neg first, decide_eq_false first, Bool.false_or]
    split
    · rename_i refused
      rw [refused]
      rfl
    · rename_i grown
      rw [grown]
      rfl

theorem testedState_isSome (env : CallEnv) (buf : List UInt8) (s : Driver) :
    (testedState env buf s).isSome = granted env buf s := by
  unfold testedState granted
  cases env.interrupted
  · by_cases copied : min env.notCopied buf.length = 0
    · cases found : s.heap.kmalloc buf.length env.kmallocAt env.junk with
      | none => simp [copied]
      | some result =>
        simp only [copied, ne_eq, not_true_eq_false, Bool.false_eq_true, or_self, if_false, growEntry_isSome]
        simp
    · simp [copied]
  · simp

theorem aesdWrite_tested {t : Driver} (fpos : Int) (tested : testedState env buf s = some t) :
    aesdWrite env buf s fpos = commitEntry env t buf.length fpos := by
  unfold testedState at tested
  split at tested
  · cases tested
  rename_i clear
  obtain ⟨lock, copied⟩ := not_or.mp clear
  split at tested
  · cases tested
  rename_i found
  simp only [aesdWrite, if_neg lock, aesdWriteLocked, found, if_neg copied, tested]

theorem aesdWrite_denied (fpos : Int) (denied : granted env buf s = false) :
    ∃ e < 0, aesdWrite env buf s fpos = { retval := e, state := s, fpos } := by
  unfold aesdWrite
  by_cases interrupted : env.interrupted
  · exact ⟨-erestartsys, by decide, by rw [if_pos interrupted]⟩
  rw [if_neg interrupted]
  cases found : s.heap.kmalloc buf.length env.kmallocAt env.junk with
  | none => exact ⟨-enomem, by decide, by simp only [aesdWriteLocked, found]⟩
  | some result =>
    obtain ⟨newBuff, heap⟩ := result
    obtain ⟨fresh, stored⟩ := kmalloc_kfree found
    unfold aesdWriteLocked
    simp only [found]
    by_cases faulty : min env.notCopied buf.length ≠ 0
    · rw [if_pos faulty, fresh]
      exact ⟨-efault, by decide, rfl⟩
    · rw [if_neg faulty]
      have refused : growEntry env { s with heap := heap.store newBuff 0 buf } newBuff buf.length = none := by
        rw [← Option.not_isSome_iff_eq_none, growEntry_isSome]
        simpa [granted, interrupted, found, not_not.mp faulty] using denied
      simp only [refused, stored]
      exact ⟨-enomem, by decide, rfl⟩

/-! ### The grown entry -/

/-- The pending bytes after `krealloc` and the first `memcpy`. They are still there only if the block
did not move. -/
theorem krealloc_carry {heap grown : Heap} {combined : Pointer} {p size : Nat} {bytes : List UInt8}
    (live : heap.get p = some bytes) (pos : 0 < size) (keeps : bytes.length ≤ size)
    (found : heap.krealloc (.block p) size env.kreallocAt env.junk = some (combined, grown)) :
    ∃ a, env.kreallocAt = some a ∧ combined = .block a ∧ (a = p ∨ heap.get a = none) ∧
      (grown.store combined 0 (grown.bytes env.junk (.block p) bytes.length)).get =
        Function.update (Function.update heap.get p none) a
          (some (carried env (some (p, bytes)) ++ garbage env.junk (size - bytes.length))) := by
  obtain ⟨a, answer, rfl, free, get⟩ := Heap.krealloc_some live pos keeps found
  refine ⟨a, answer, rfl, free, ?_⟩
  have old : grown.bytes env.junk (.block p) bytes.length = carried env (some (p, bytes)) := by
    simp only [Heap.bytes, get, carried, answer, Option.some.injEq]
    by_cases same : a = p
    · subst same; simp
    · rw [Function.update_of_ne (Ne.symm same), Function.update_self, if_neg same]
  have length := carried_length env (some (p, bytes))
  simp only [Option.elim_some] at length
  have here : grown.get a = some (bytes ++ garbage env.junk (size - bytes.length)) := by
    rw [get, Function.update_self]
  rw [old, Heap.get_store here 0 _ (by simp [length]), get, Function.update_idem, List.take_zero,
    List.nil_append, Nat.zero_add, length, List.drop_left]

/-- The pending entry after a granted write: one block at the target address, the new bytes behind
what was carried over; the other blocks are as before. -/
theorem growEntry_some {s' : Driver} {heap : Heap} {n : Nat} (h : Layout s ring pending lost)
    (some' : buf ≠ []) (answer : env.kmallocAt = some n) (dead : s.heap.get n = none)
    (put : s.heap.put n buf = some heap)
    (found : growEntry env { s with heap := heap } (.block n) buf.length = some s') :
    ∃ a, target env pending = some a ∧ (s.heap.get a = none ∨ pending.map Prod.fst = some a) ∧
      s'.dev = { s.dev with entry := Cell.entry (a, carried env pending ++ buf) } ∧
      ∀ b, s'.heap.get b = if b = a then some (carried env pending ++ buf)
        else if pending.map Prod.fst = some b then none else s.heap.get b := by
  have fresh := Heap.get_put put
  have pos := List.length_pos_iff.mpr some'
  rcases pending with _ | ⟨p, bytes⟩
  · have small : buf.length < 2 ^ 63 := by
      have := heap.sum_lengths_lt [(n, buf)] (by simp) (by simp [fresh])
      simpa [addressSpace] using this
    simp only [growEntry, h.entry, Option.elim_none, BufferEntry.unused, if_true, Option.some.injEq] at found
    subst found
    refine ⟨n, answer, Or.inl dead, ?_, ?_⟩
    · simp [Cell.entry, carried, sizeT_of_lt (show buf.length < 2 ^ 64 by omega)]
    · intro b
      by_cases same : b = n
      · simp [fresh, same, carried]
      · simp [fresh, same]
  · have livePending : s.heap.get p = some bytes := h.live (p, bytes) (by simp)
    have apart : p ≠ n := by
      intro same
      rw [← same, livePending] at dead
      cases dead
    have liveOld : heap.get p = some bytes := by rw [fresh, Function.update_of_ne apart, livePending]
    have liveNew : heap.get n = some buf := by rw [fresh, Function.update_self]
    have small : bytes.length + buf.length < 2 ^ 63 := by
      have := heap.sum_lengths_lt [(p, bytes), (n, buf)] (by simpa using apart)
        (by simp [liveOld, liveNew])
      simpa [addressSpace] using this
    have word : sizeT (bytes.length + buf.length) = bytes.length + buf.length := sizeT_of_lt (by omega)
    simp only [growEntry, h.entry, Option.elim_some, Cell.entry, reduceCtorEq, if_false, word] at found
    split at found
    · cases found
    rename_i combined grown realloc
    obtain rfl := Option.some.inj found
    obtain ⟨a, reallocAt, rfl, where', get₂⟩ := krealloc_carry liveOld (by omega) (by omega) realloc
    have distinct : a ≠ n := by
      intro same
      subst same
      rcases where' with same | free
      · exact apart same.symm
      · rw [liveNew] at free
        cases free
    have length := carried_length env (some (p, bytes))
    simp only [Option.elim_some] at length
    have live₂ := congrFun get₂ a
    rw [Function.update_self, Nat.add_sub_cancel_left] at live₂
    have get₃ := Heap.get_store live₂ bytes.length buf (by simp [length])
    rw [← length, List.take_left, List.drop_eq_nil_of_le (by simp), List.append_nil, length] at get₃
    have second : (grown.store (.block a) 0 (grown.bytes env.junk (.block p) bytes.length)).bytes env.junk
        (.block n) buf.length = buf := by
      apply Heap.bytes_whole
      rw [get₂, Function.update_of_ne (Ne.symm distinct), Function.update_of_ne (Ne.symm apart), liveNew]
    refine ⟨a, reallocAt, ?_, ?_, ?_⟩
    · rcases where' with same | free
      · exact Or.inr (by simp [same])
      · left
        rwa [fresh, Function.update_of_ne distinct] at free
    · simp [Cell.entry, length]
    · intro b
      simp only [second, Heap.kfree_block, Heap.get_drop, get₃, get₂, fresh, Function.update_apply,
        Option.map_some, Option.some.injEq]
      by_cases isNew : b = n
      · subst isNew
        simp [Ne.symm distinct, apart, dead]
      · by_cases isTarget : b = a
        · simp [isTarget, distinct]
        · simp [isNew, isTarget, eq_comm]

/-- A write of no bytes reallocates the pending block to the size it has. -/
theorem growEntry_nothing {s' : Driver} {p : Nat} {bytes : List UInt8}
    (h : Layout s ring (some (p, bytes)) lost) (found : growEntry env s .zeroSize 0 = some s') :
    ∃ a, env.kreallocAt = some a ∧ (s.heap.get a = none ∨ p = a) ∧
      s'.dev = { s.dev with entry := Cell.entry (a, carried env (some (p, bytes))) } ∧
      ∀ b, s'.heap.get b = if b = a then some (carried env (some (p, bytes)))
        else if p = b then none else s.heap.get b := by
  have live : s.heap.get p = some bytes := h.live (p, bytes) (by simp)
  have pos := List.length_pos_iff.mpr (h.filled (p, bytes) rfl)
  have small := h.total_lt
  simp only [List.map_append, List.flatten_append, List.length_append, Option.toList_some, List.map_cons,
    List.map_nil, List.flatten_cons, List.flatten_nil, List.append_nil] at small
  have word : sizeT (bytes.length + 0) = bytes.length := sizeT_of_lt (by omega)
  simp only [growEntry, h.entry, Option.elim_some, Cell.entry, reduceCtorEq, if_false, word] at found
  split at found
  · cases found
  rename_i combined grown realloc
  obtain rfl := Option.some.inj found
  obtain ⟨a, reallocAt, rfl, where', get₂⟩ := krealloc_carry live pos (Nat.le_refl _) realloc
  have length := carried_length env (some (p, bytes))
  simp only [Option.elim_some] at length
  have live₂ := congrFun get₂ a
  rw [Function.update_self, Nat.sub_self, garbage, List.range_zero, List.map_nil, List.append_nil] at live₂
  have get₃ := Heap.get_store live₂ bytes.length [] (by simp [length])
  rw [← length, List.take_length, List.append_nil, List.length_nil, Nat.add_zero, List.drop_length,
    List.append_nil, length] at get₃
  refine ⟨a, reallocAt, ?_, ?_, ?_⟩
  · rcases where' with same | free
    · exact Or.inr same.symm
    · exact Or.inl free
  · simp [Cell.entry, length]
  · intro b
    have nothing : (grown.store (.block a) 0 (grown.bytes env.junk (.block p) bytes.length)).bytes env.junk
        .zeroSize 0 = [] := rfl
    simp only [nothing, Heap.kfree, get₃, get₂, Function.update_apply]
    by_cases isTarget : b = a
    · simp [isTarget]
    · simp [isTarget, eq_comm]

theorem Layout.grow {s' : Driver} (h : Layout s ring pending lost) (some' : line ≠ [])
    (free : s.heap.get a = none ∨ pending.map Prod.fst = some a)
    (dev : s'.dev = { s.dev with entry := Cell.entry (a, line) })
    (get : ∀ b, s'.heap.get b = if b = a then some line
      else if pending.map Prod.fst = some b then none else s.heap.get b) :
    Layout s' ring (some (a, line)) lost := by
  have member : ∀ b, b ∈ (ring ++ pending.toList).map Prod.fst ++ lost ↔
      b ∈ ring.map Prod.fst ++ lost ∨ pending.map Prod.fst = some b := by
    intro b
    cases pending <;> simp [or_assoc, or_comm, eq_comm]
  have others : (ring.map Prod.fst ++ lost).Nodup := by
    refine h.distinct.sublist ?_
    rw [List.map_append]
    exact (List.sublist_append_left _ _).append_right _
  have notPending : ∀ b, pending.map Prod.fst = some b → b ∉ ring.map Prod.fst ++ lost := by
    intro b same
    obtain ⟨⟨p, bytes⟩, rfl, rfl⟩ := Option.map_eq_some_iff.mp same
    have distinct := h.distinct
    simp only [Option.toList_some, List.map_append, List.map_cons, List.map_nil, List.append_assoc] at distinct
    have moved := (List.perm_middle.nodup_iff.mp distinct)
    exact (List.nodup_cons.mp moved).1
  have notOther : a ∉ ring.map Prod.fst ++ lost := by
    rcases free with dead | same
    · exact fun inside => (h.owned a).mpr ((member a).mpr (Or.inl inside)) dead
    · exact notPending a same
  have distinct : ((ring ++ [(a, line)]).map Prod.fst ++ lost).Nodup := by
    simp only [List.map_append, List.map_cons, List.map_nil, List.append_assoc, List.cons_append, List.nil_append]
    exact List.perm_middle.nodup_iff.mpr (List.nodup_cons.mpr ⟨notOther, others⟩)
  refine ⟨by rw [dev]; exact h.holds, by rw [dev]; rfl, ?_, by simpa using some', distinct, ?_⟩
  · intro cell inside
    rcases List.mem_append.mp inside with old | new
    · have here : cell.1 ∈ ring.map Prod.fst ++ lost := List.mem_append_left _ (List.mem_map_of_mem old)
      have apart : cell.1 ≠ a := fun e => notOther (e ▸ here)
      rw [get, if_neg apart, if_neg fun e => notPending _ e here]
      exact h.live cell (List.mem_append_left _ old)
    · obtain rfl : cell = (a, line) := by simpa using new
      rw [get, if_pos rfl]
  · intro b
    have target : b ∈ (ring ++ (some (a, line)).toList).map Prod.fst ++ lost ↔
        b ∈ ring.map Prod.fst ++ lost ∨ b = a := by simp [or_assoc, or_comm]
    rw [target, get]
    by_cases same : b = a
    · simp [same]
    rw [if_neg same]
    by_cases gone : pending.map Prod.fst = some b
    · simp [gone, same, notPending b gone]
    · rw [if_neg gone, h.owned, member]
      simp [same, gone]

theorem Layout.commit (h : Layout s ring (some (a, line)) lost) :
    Layout { s with dev := ⟨s.dev.buffer.addEntry (Cell.entry (a, line)), .unused⟩ }
      ((ring ++ [(a, line)]).rtake maxWriteOperations) none
      (lost ++ ((ring ++ [(a, line)]).rdrop maxWriteOperations).map Prod.fst) := by
  have split := List.take_append_drop ((ring ++ [(a, line)]).length - maxWriteOperations) (ring ++ [(a, line)])
  have addresses : (((ring ++ [(a, line)]).rtake maxWriteOperations ++ (none : Option Cell).toList).map Prod.fst ++
      (lost ++ ((ring ++ [(a, line)]).rdrop maxWriteOperations).map Prod.fst)).Perm
      ((ring ++ (some (a, line)).toList).map Prod.fst ++ lost) := by
    conv_rhs => rw [Option.toList_some, ← split, List.map_append]
    simp only [Option.toList_none, List.append_nil, ← List.append_assoc]
    apply List.perm_append_comm.trans
    rw [← List.append_assoc]
    exact List.Perm.refl _
  refine ⟨?_, rfl, ?_, by simp, addresses.nodup_iff.mpr h.distinct, ?_⟩
  · have positive : 0 < (Cell.entry (a, line)).size := List.length_pos_iff.mpr (h.filled (a, line) rfl)
    have added := h.holds.addEntry positive
    have queue : (ring.map Cell.entry ++ [Cell.entry (a, line)]).rtake maxWriteOperations =
        ((ring ++ [(a, line)]).rtake maxWriteOperations).map Cell.entry := by
      simp [List.rtake, List.map_drop]
    rwa [queue] at added
  · intro cell inside
    simp only [Option.toList_none, List.append_nil] at inside
    exact h.live cell (mem_of_mem_rtake inside)
  · intro b
    rw [h.owned b]
    exact addresses.mem_iff.symm

theorem commitEntry_eq (h : Layout s ring (some (a, line)) lost) (count : Nat) :
    commitEntry env s count fpos =
      { retval := loffT count
        fpos := loffT (fpos + count)
        state := if EndsLine line then
          { s with dev := ⟨s.dev.buffer.addEntry (Cell.entry (a, line)), .unused⟩ } else s
        handed := if EndsLine line then some line else none } := by
  have some' : line ≠ [] := h.filled (a, line) rfl
  have pos := List.length_pos_iff.mpr some'
  have small : line.length < 2 ^ 63 := by
    have := s.heap.sum_lengths_lt [(a, line)] (by simp) (by
      intro cell inside
      exact h.live cell (List.mem_append_right _ inside))
    simpa [addressSpace] using this
  have live : s.heap.get a = some line := h.live (a, line) (by simp)
  have last : s.heap.load (.block a) (sizeSub line.length 1) = some (line.getLast some') := by
    rw [sizeSub_of_le pos (by omega), Heap.load, live, Option.bind_some, ← List.getLast?_eq_getElem?,
      List.getLast?_eq_some_getLast some']
  unfold commitEntry
  simp only [h.entry, Option.elim_some, Cell.entry, last, EndsLine, List.getLast?_eq_some_getLast some',
    Option.some.injEq, Heap.bytes, live, List.take_length]
  split <;> rfl

/-- Where the test is reached the bytes carried over and the new ones are pending in one block. -/
theorem Layout.tested {t : Driver} (h : Layout s ring pending lost) (some' : buf ≠ [] ∨ pending ≠ none)
    (tested : testedState env buf s = some t) :
    ∃ a, target env pending = some a ∧ Layout t ring (some (a, carried env pending ++ buf)) lost := by
  unfold testedState at tested
  split at tested
  · cases tested
  split at tested
  · cases tested
  rename_i newBuff heap found
  by_cases nothing : buf = []
  · subst nothing
    obtain ⟨⟨p, bytes⟩, rfl⟩ := Option.ne_none_iff_exists'.mp (some'.resolve_left (· rfl))
    simp only [Heap.kmalloc, List.length_nil, if_true, Option.some.injEq, Prod.mk.injEq] at found
    obtain ⟨rfl, rfl⟩ := found
    obtain ⟨a, reached, free, dev, get⟩ := growEntry_nothing h tested
    have kept : carried env (some (p, bytes)) ≠ [] := by
      rw [← List.length_pos_iff, carried_length]
      exact List.length_pos_iff.mpr (h.filled (p, bytes) rfl)
    rw [List.append_nil]
    exact ⟨a, reached, h.grow kept (by simpa using free) dev (by simpa using get)⟩
  · obtain ⟨n, answer, rfl, dead, put⟩ := kmalloc_store nothing found
    obtain ⟨a, reached, free, dev, get⟩ := growEntry_some h nothing answer dead put tested
    exact ⟨a, reached, h.grow (by simp [nothing]) free dev get⟩

theorem aesdWrite_grown (fpos : Int) (h : Layout s ring pending lost) (some' : buf ≠ [] ∨ pending ≠ none)
    (ok : granted env buf s = true) :
    ∃ a, target env pending = some a ∧
      let line := carried env pending ++ buf
      let res := aesdWrite env buf s fpos
      res.retval = buf.length ∧ res.fpos = loffT (fpos + buf.length) ∧ res.oops = false ∧
      if EndsLine line then
        res.handed = some line ∧ Layout res.state ((ring ++ [(a, line)]).rtake maxWriteOperations) none
          (lost ++ ((ring ++ [(a, line)]).rdrop maxWriteOperations).map Prod.fst)
      else res.handed = none ∧ Layout res.state ring (some (a, line)) lost := by
  rw [← testedState_isSome] at ok
  obtain ⟨t, tested⟩ := Option.isSome_iff_exists.mp ok
  obtain ⟨a, reached, layout⟩ := h.tested some' tested
  have small : buf.length < 2 ^ 63 := by
    have := layout.total_lt
    simp at this
    omega
  refine ⟨a, reached, ?_⟩
  simp only [aesdWrite_tested fpos tested, commitEntry_eq layout]
  refine ⟨loffT_of_bounds (by omega) (by omega), trivial, trivial, ?_⟩
  by_cases ends : EndsLine (carried env pending ++ buf)
  · simp only [if_pos ends, true_and]
    exact layout.commit
  · simp only [if_neg ends, true_and]
    exact layout

/-- A granted write: the bytes carried over and the new ones are pending in one block, or have become
the newest record. -/
theorem aesdWrite_granted (fpos : Int) (h : Layout s ring pending lost) (some' : buf ≠ []) (ok : granted env buf s = true) :
    ∃ a, target env pending = some a ∧
      let line := carried env pending ++ buf
      let res := aesdWrite env buf s fpos
      res.retval = buf.length ∧ res.fpos = loffT (fpos + buf.length) ∧ res.oops = false ∧
      if EndsLine buf then
        res.handed = some line ∧ Layout res.state ((ring ++ [(a, line)]).rtake maxWriteOperations) none
          (lost ++ ((ring ++ [(a, line)]).rdrop maxWriteOperations).map Prod.fst)
      else res.handed = none ∧ Layout res.state ring (some (a, line)) lost := by
  have grown := aesdWrite_grown fpos h (Or.inl some') ok
  simpa only [endsLine_append some'] using grown

end Aesd
