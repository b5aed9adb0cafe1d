import Aesd.Driver.CircularBuffer

/-!
# The buffer as a bounded queue

Adding entries of any size to an empty buffer. It keeps the last ten in order as
long as each entry that has to go has a byte: a full buffer is told from an empty
one by the size of its oldest entry.
-/

namespace Aesd
open Library

namespace CircularBuffer

def added (es : List BufferEntry) : CircularBuffer := es.foldl addEntry init

/-- The slots from `out_offs` on hold the last entries added, as many as there is room for. -/
structure Keeps (es : List BufferEntry) : Prop where
  in_lt : (added es).inOffs < maxWriteOperations
  out_lt : (added es).outOffs < maxWriteOperations
  stored : window (added es).slot maxWriteOperations (added es).outOffs (min es.length maxWriteOperations) =
    es.rtake maxWriteOperations

/-- When ten entries are held the next one replaces the oldest and `out_offs` moves on. -/
def Replaces (es : List BufferEntry) (e : BufferEntry) : Prop :=
  maxWriteOperations ≤ es.length →
    ((added es).addEntry e).slot (added es).outOffs = e ∧
    ((added es).addEntry e).outOffs = ((added es).outOffs + 1) % maxWriteOperations

structure BoundedFifo (es : List BufferEntry) : Prop where
  keeps : ∀ earlier, earlier <+: es → Keeps earlier
  replaces : ∀ earlier e, earlier ++ [e] <+: es → Replaces earlier e

/-- Every entry that ten later ones follow has a byte. -/
def DroppedHaveBytes (es : List BufferEntry) : Prop := ∀ e ∈ es.rdrop maxWriteOperations, 0 < e.size

variable {es : List BufferEntry} {e : BufferEntry}

theorem added_snoc (es : List BufferEntry) (e : BufferEntry) : added (es ++ [e]) = (added es).addEntry e := by
  simp [added]

theorem droppedHaveBytes_snoc : DroppedHaveBytes (es ++ [e]) ↔ DroppedHaveBytes es ∧
    (maxWriteOperations ≤ es.length → ∀ oldest ∈ (es.rtake maxWriteOperations).head?, 0 < oldest.size) := by
  unfold DroppedHaveBytes
  constructor
  · intro all
    refine ⟨fun x inside => all x ?_, fun full x first => all x ?_⟩
    · exact (mem_rdrop_push (by decide)).mpr (Or.inl inside)
    · exact (mem_rdrop_push (by decide)).mpr (Or.inr ⟨full, first⟩)
  · intro both x inside
    rcases (mem_rdrop_push (by decide)).mp inside with old | new
    · exact both.1 x old
    · exact both.2 new.1 x new.2

theorem droppedHaveBytes_earlier {earlier : List BufferEntry} (before : earlier <+: es) (h : DroppedHaveBytes es) :
    DroppedHaveBytes earlier := by
  induction es using List.reverseRecOn with
  | nil =>
    rw [List.prefix_nil] at before
    rwa [before]
  | append_singleton es e ih =>
    rcases List.prefix_concat_iff.mp before with same | shorter
    · rwa [same]
    · exact ih shorter (droppedHaveBytes_snoc.mp h).1

theorem full_iff : (es.rtake maxWriteOperations).length = maxWriteOperations ↔ maxWriteOperations ≤ es.length := by
  rw [length_rtake]
  omega

/-! ### Any number of additions -/

theorem ring_added (h : DroppedHaveBytes es) : (added es).Ring (es.rtake maxWriteOperations) := by
  induction es using List.reverseRecOn with
  | nil => exact init_ring
  | append_singleton es e ih =>
    obtain ⟨earlier, oldest⟩ := droppedHaveBytes_snoc.mp h
    have ring := ih earlier
    rw [added_snoc, ← rtake_push_rtake]
    apply ring.addEntry
    intro full
    exact ring.evicts_iff.mpr ⟨full, oldest (full_iff.mp full)⟩

theorem Ring.keeps (h : (added es).Ring (es.rtake maxWriteOperations)) : Keeps es := by
  refine ⟨h.in_lt, h.out_lt, ?_⟩
  rw [Nat.min_comm, ← length_rtake]
  exact h.stored

/-- The full ring moves on exactly when its oldest entry has a byte. -/
theorem Ring.replaces_iff (h : (added es).Ring (es.rtake maxWriteOperations)) : Replaces es e ↔
    (maxWriteOperations ≤ es.length → ∀ oldest ∈ (es.rtake maxWriteOperations).head?, 0 < oldest.size) := by
  unfold Replaces
  apply forall_congr'
  intro full
  have length := full_iff.mpr full
  have evicts := h.evicts_iff
  rw [and_iff_right length] at evicts
  rw [← evicts]
  have meet : (added es).inOffs = (added es).outOffs := (h.meet_iff (by rw [length]; decide)).mpr length
  constructor
  · intro both
    by_contra keep
    have moved := both.2
    simp only [CircularBuffer.addEntry, if_neg keep] at moved
    apply cell_ne maxWriteOperations (added es).outOffs (i := 0) (j := 1) (by decide) (by decide)
    rw [Nat.add_zero, Nat.mod_eq_of_lt h.out_lt]
    exact moved
  · intro out
    simp only [CircularBuffer.addEntry, if_pos out, and_true]
    rw [slot_set h.in_lt, meet, Function.update_self]

/-- Additions of any sizes keep a queue of the last ten entries, and each addition to a full buffer
replaces the oldest, exactly when every entry that is to be replaced has a byte. -/
theorem bounded_fifo_iff (es : List BufferEntry) : BoundedFifo es ↔ DroppedHaveBytes es := by
  constructor
  · intro fifo
    induction es using List.reverseRecOn with
    | nil => exact fun e inside => absurd inside (by simp [List.rdrop])
    | append_singleton es e ih =>
      have earlier : DroppedHaveBytes es := by
        apply ih
        constructor
        · intro first before
          exact fifo.keeps first (before.trans (List.prefix_append _ _))
        · intro first x before
          exact fifo.replaces first x (before.trans (List.prefix_append _ _))
      have replaces := fifo.replaces es e (List.prefix_refl _)
      exact droppedHaveBytes_snoc.mpr ⟨earlier, (ring_added earlier).replaces_iff.mp replaces⟩
  · intro dropped
    constructor
    · intro earlier before
      exact (ring_added (droppedHaveBytes_earlier before dropped)).keeps
    · intro earlier e before
      obtain ⟨first, oldest⟩ := droppedHaveBytes_snoc.mp (droppedHaveBytes_earlier before dropped)
      exact (ring_added first).replaces_iff.mpr oldest

/-- An entry of no bytes, then ten of one byte: the last one overwrites the first and `out_offs` stays,
so the newest entry is where the oldest should be. -/
theorem bounded_fifo_empty_entry : ¬ ∀ es : List BufferEntry, BoundedFifo es := by
  intro fifo
  have stored := ((fifo (⟨.zeroSize, 0⟩ :: (List.range 10).map fun i => ⟨.block i, 1⟩)).keeps _
    (List.prefix_refl _)).stored
  revert stored
  decide

end CircularBuffer
end Aesd
