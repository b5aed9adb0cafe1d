import Aesd.Driver.Fifo

/-!
# The flag of a full buffer

`full` is set when an entry has to go, not when the last free slot is taken.
-/

namespace Aesd
open Library

namespace CircularBuffer

/-- All ten slots hold entries. -/
def AllHold (b : CircularBuffer) : Prop := ∀ i < maxWriteOperations, 0 < (b.slot i).size

instance (b : CircularBuffer) : Decidable b.AllHold :=
  inferInstanceAs (Decidable (∀ i < maxWriteOperations, 0 < (b.slot i).size))

/-- After every addition the flag says whether all ten slots hold entries, which is when the offsets meet. -/
def FlagMeansFull (es : List BufferEntry) : Prop :=
  ∀ earlier, earlier <+: es → earlier ≠ [] →
    ((added earlier).full = true ↔ (added earlier).AllHold) ∧
      ((added earlier).AllHold ↔ (added earlier).inOffs = (added earlier).outOffs)

variable {b : CircularBuffer} {es : List BufferEntry}

theorem Holds.allHold_iff (h : b.Holds es) : b.AllHold ↔ es.length = maxWriteOperations := by
  constructor
  · intro all
    by_contra notFull
    have free := h.unused es.length (Nat.le_refl _) (Nat.lt_of_le_of_ne h.few notFull)
    have used := all _ (Nat.mod_lt (b.outOffs + es.length) (by decide))
    rw [free] at used
    exact Nat.lt_irrefl 0 used
  · intro full i inside
    -- Slot `i` is the one `(i - out_offs) mod 10` places from `out_offs`.
    have out := h.out_lt
    have place : (b.outOffs + (i + maxWriteOperations - b.outOffs) % maxWriteOperations) % maxWriteOperations = i := by
      rw [Nat.add_mod_mod, show b.outOffs + (i + maxWriteOperations - b.outOffs) = i + maxWriteOperations by omega,
        Nat.add_mod_right, Nat.mod_eq_of_lt inside]
    have stored : (i + maxWriteOperations - b.outOffs) % maxWriteOperations < es.length := by
      rw [full]
      exact Nat.mod_lt _ (by decide)
    rw [← place, h.slot_eq stored]
    exact h.positive _ (List.getElem_mem stored)

theorem holds_added (positive : ∀ e ∈ es, 0 < e.size) : (added es).Holds (es.rtake maxWriteOperations) := by
  refine ⟨ring_added ?_, ?_⟩
  · intro e dropped
    exact positive e (List.mem_of_mem_take dropped)
  · intro e kept
    exact positive e (mem_of_mem_rtake kept)

/-- The flag is set by the addition after the tenth. -/
theorem full_added (positive : ∀ e ∈ es, 0 < e.size) : (added es).full = true ↔ maxWriteOperations < es.length := by
  induction es using List.reverseRecOn with
  | nil => decide
  | append_singleton es e ih =>
    have earlier : ∀ e ∈ es, 0 < e.size := fun e inside => positive e (List.mem_append_left _ inside)
    have evicts := (holds_added earlier).evicts_iff.trans full_iff
    have before := ih earlier
    rw [added_snoc, List.length_append, List.length_singleton]
    unfold addEntry
    by_cases out : (added es).Evicts
    · rw [if_pos out]
      exact iff_of_true rfl (Nat.lt_succ_of_le (evicts.mp out))
    · rw [if_neg out]
      have room : ¬ maxWriteOperations ≤ es.length := fun full => out (evicts.mpr full)
      show (added es).full = true ↔ _
      rw [before]
      omega

/-- After an addition the flag is right unless it was the tenth. -/
theorem full_iff_allHold (positive : ∀ e ∈ es, 0 < e.size) :
    ((added es).full = true ↔ (added es).AllHold) ↔ es.length ≠ maxWriteOperations := by
  rw [full_added positive, (holds_added positive).allHold_iff, full_iff]
  omega

/-- The flag is right after every addition of entries with bytes exactly when there are fewer than ten. -/
theorem flag_means_full_iff (positive : ∀ e ∈ es, 0 < e.size) :
    FlagMeansFull es ↔ es.length < maxWriteOperations := by
  constructor
  · intro flag
    by_contra many
    have ten : (es.take maxWriteOperations).length = maxWriteOperations :=
      List.length_take_of_le (Nat.le_of_not_lt many)
    have some' : es.take maxWriteOperations ≠ [] := by
      intro none'
      rw [none'] at ten
      cases ten
    have positive' : ∀ e ∈ es.take maxWriteOperations, 0 < e.size :=
      fun e inside => positive e (List.mem_of_mem_take inside)
    exact (full_iff_allHold positive').mp (flag _ (List.take_prefix _ _) some').1 ten
  · intro few earlier before some'
    have positive' : ∀ e ∈ earlier, 0 < e.size := fun e inside => positive e (before.subset inside)
    have shorter := before.length_le
    have held := holds_added positive'
    refine ⟨(full_iff_allHold positive').mpr (by omega), ?_⟩
    rw [rtake_of_length_le (by omega)] at held
    rw [held.allHold_iff, held.ring.meet_iff (List.length_pos_iff.mpr some')]

theorem nine_entries_flagged_right :
    FlagMeansFull ((List.range 9).map fun i => ⟨.block i, i + 1⟩) :=
  (flag_means_full_iff (by decide)).mpr (by decide)

/-- Ten entries of one byte fill the buffer, and the flag is not set. -/
theorem tenth_entry_not_flagged :
    ¬ ∀ es : List BufferEntry, (∀ e ∈ es, 0 < e.size) → FlagMeansFull es := by
  intro flag
  have ten := (flag ((List.range 10).map fun i => ⟨.block i, 1⟩) (by decide) _ (List.prefix_refl _) (by decide)).1
  revert ten
  decide

end CircularBuffer
end Aesd
