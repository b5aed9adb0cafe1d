import Aesd.Driver.Ownership

/-!
# Removing the module

`aesd_cleanup_module` frees what the ten slots point at. A record that is still
being written is in `dev->entry`, which it does not look at.
-/

namespace Aesd
open Library

/-- One iteration: the pointers passed to `kfree` so far, and the heap. -/
def freeSlot (s : Driver) (freed : List Pointer × Heap) (i : Nat) : List Pointer × Heap :=
  let buffptr := (s.dev.buffer.slot i).buffptr
  if buffptr ≠ .null then (freed.1 ++ [buffptr], freed.2.kfree buffptr) else freed

def cleanupModule (s : Driver) : List Pointer × Heap :=
  (List.range maxWriteOperations).foldl (freeSlot s) ([], s.heap)

/-- Each block that a slot or `dev->entry` points at is freed once. -/
structure ReleasesAll (s : Driver) : Prop where
  once : ∀ p ∈ s.pointers, (cleanupModule s).1.count p = 1
  gone : ∀ a, .block a ∈ s.pointers → (cleanupModule s).2.get a = none

variable {s : Driver}

def Driver.slotPointers (s : Driver) : List Pointer :=
  ((List.range maxWriteOperations).map fun i => (s.dev.buffer.slot i).buffptr).filter fun p => p ≠ .null

theorem freeSlot_fold (s : Driver) (slots : List Nat) (freed : List Pointer) (heap : Heap) :
    let pointers := (slots.map fun i => (s.dev.buffer.slot i).buffptr).filter fun p => p ≠ .null
    slots.foldl (freeSlot s) (freed, heap) = (freed ++ pointers, pointers.foldl Heap.kfree heap) := by
  induction slots generalizing freed heap with
  | nil => simp
  | cons i slots ih =>
    simp only [List.foldl_cons, List.map_cons] at ih ⊢
    by_cases used : (s.dev.buffer.slot i).buffptr = .null
    · rw [show freeSlot s (freed, heap) i = (freed, heap) by simp [freeSlot, used], ih,
        List.filter_cons_of_neg (by simp [used])]
    · rw [show freeSlot s (freed, heap) i = (freed ++ [(s.dev.buffer.slot i).buffptr],
          heap.kfree (s.dev.buffer.slot i).buffptr) by simp [freeSlot, used], ih,
        List.filter_cons_of_pos (by simp [used]), List.foldl_cons, List.append_assoc, List.singleton_append]

theorem cleanupModule_eq (s : Driver) :
    cleanupModule s = (s.slotPointers, s.slotPointers.foldl Heap.kfree s.heap) := by
  unfold cleanupModule
  rw [freeSlot_fold, List.nil_append]
  rfl

theorem Driver.pointers_eq (s : Driver) :
    s.pointers = s.slotPointers ++ if s.dev.entry.buffptr = .null then [] else [s.dev.entry.buffptr] := by
  unfold Driver.pointers Driver.slotPointers
  rw [List.filter_append]
  congr 1
  by_cases empty : s.dev.entry.buffptr = .null
  · simp [empty]
  · simp [empty]

/-- In every state that writes lead to, removing the module frees what the device refers to exactly when no
record is being written. -/
theorem releases_all_iff (reach : Reachable s) : ReleasesAll s ↔ s.dev.entry.buffptr = .null := by
  obtain ⟨ring, pending, lost, layout⟩ := reach.layout
  have distinct := layout.pointers_nodup
  rw [s.pointers_eq] at distinct
  constructor
  · intro releases
    by_contra pending
    rw [if_neg pending] at distinct
    have referred : s.dev.entry.buffptr ∈ s.pointers := by
      rw [s.pointers_eq, if_neg pending]
      simp
    have once := releases.once _ referred
    rw [cleanupModule_eq] at once
    have freed : s.dev.entry.buffptr ∈ s.slotPointers := List.count_pos_iff.mp (by rw [once]; decide)
    exact (List.nodup_append.mp distinct).2.2 _ freed _ List.mem_cons_self rfl
  · intro empty
    have slots : s.pointers = s.slotPointers := by rw [s.pointers_eq, if_pos empty, List.append_nil]
    rw [if_pos empty, List.append_nil] at distinct
    constructor
    · intro p referred
      rw [cleanupModule_eq, distinct.count, if_pos (slots ▸ referred)]
    · intro a referred
      rw [cleanupModule_eq, Heap.get_kfree_all, if_pos (slots ▸ referred)]

theorem twelve_records_released :
    let calls : List WriteCall :=
      (List.range 12).map fun i => ⟨{ kmallocAt := some i }, [i.toUInt8 + 65, newline], 0⟩
    ReleasesAll ((writer.run Driver.init calls).getD Driver.init) := by
  intro calls
  exact (releases_all_iff ⟨calls, by decide, rfl⟩).mpr (by decide)

/-- The module is removed after a write without a newline. -/
theorem pending_record_left_behind : ¬ ∀ s : Driver, Reachable s → ReleasesAll s := by
  intro releases
  let calls : List WriteCall := [⟨{ kmallocAt := some 0 }, [65], 0⟩]
  have once := (releases ((writer.run Driver.init calls).getD Driver.init) ⟨calls, by decide, rfl⟩).once
    (.block 0) (by decide)
  revert once
  decide

end Aesd
