import Aesd.Library.Heap
import Aesd.Library.Segments
import Aesd.Library.Window
import Mathlib.Algebra.Order.BigOperators.Group.Finset

/-!
# The circular buffer

`aesd-circular-buffer.c` as it computes, and the ring it keeps: the slots from
`out_offs` on hold the last ten entries added, oldest first.
-/

namespace Aesd
open Library

abbrev maxWriteOperations : Nat := 10

/-- A `size_t`, modulo its 64 bits. -/
def sizeT (n : Nat) : Nat := n % 2 ^ 64

def sizeSub (a b : Nat) : Nat := (a + 2 ^ 64 - b) % 2 ^ 64

theorem sizeT_of_lt {n : Nat} (h : n < 2 ^ 64) : sizeT n = n := Nat.mod_eq_of_lt h

theorem sizeSub_of_le {a b : Nat} (le : b ≤ a) (small : a < 2 ^ 64) : sizeSub a b = a - b := by
  unfold sizeSub
  omega

structure BufferEntry where
  buffptr : Pointer
  size : Nat
  deriving DecidableEq, Repr

def BufferEntry.unused : BufferEntry := ⟨.null, 0⟩

structure CircularBuffer where
  entry : Vector BufferEntry maxWriteOperations
  inOffs : Nat
  outOffs : Nat
  full : Bool
  deriving DecidableEq

namespace CircularBuffer

def slot (b : CircularBuffer) (i : Nat) : BufferEntry := b.entry[i]?.getD .unused

def init : CircularBuffer := ⟨Vector.replicate maxWriteOperations .unused, 0, 0, false⟩

/-- The loop of `aesd_circular_buffer_find_entry_offset_for_fpos`, with `left` iterations to go. -/
def findLoop (b : CircularBuffer) (charOffset : Nat) : (left i cumulativeOffset : Nat) → Option (Nat × Nat)
  | 0, _, _ => none
  | left + 1, i, cumulativeOffset =>
    let value := (i + b.outOffs) % maxWriteOperations
    if sizeT (cumulativeOffset + (b.slot value).size) > charOffset then
      some (value, sizeSub charOffset cumulativeOffset)
    else b.findLoop charOffset left (i + 1) (sizeT (cumulativeOffset + (b.slot value).size))

/-- `aesd_circular_buffer_find_entry_offset_for_fpos`: the index of the entry, `none` for NULL, and
`*entry_offset_byte_rtn`, whose value at the call is the last argument. -/
def findEntryOffsetForFpos (b : CircularBuffer) (charOffset entryOffsetByteRtn : Nat) : Option Nat × Nat :=
  match b.findLoop charOffset maxWriteOperations 0 0 with
  | some (value, offset) => (some value, offset)
  | none => (none, entryOffsetByteRtn)

/-- The test of `aesd_circular_buffer_add_entry` for a buffer that must give up its oldest entry. -/
def Evicts (b : CircularBuffer) : Prop := b.inOffs = b.outOffs ∧ (b.slot b.outOffs).size > 0

instance (b : CircularBuffer) : Decidable b.Evicts := inferInstanceAs (Decidable (_ ∧ _))

def addEntry (b : CircularBuffer) (add : BufferEntry) : CircularBuffer :=
  let b := if b.Evicts then { b with full := true, outOffs := (b.outOffs + 1) % maxWriteOperations } else b
  { b with entry := b.entry.setIfInBounds b.inOffs add, inOffs := (b.inOffs + 1) % maxWriteOperations }

@[simp] theorem slot_init (i : Nat) : init.slot i = .unused := by
  unfold slot init
  simp only [Vector.getElem?_replicate]
  split <;> rfl

theorem slot_set {b : CircularBuffer} {i : Nat} (inside : i < maxWriteOperations) (e : BufferEntry)
    (inOffs outOffs : Nat) (full : Bool) :
    slot ⟨b.entry.setIfInBounds i e, inOffs, outOffs, full⟩ = Function.update b.slot i e := by
  funext j
  by_cases same : j = i
  · subst same
    simp [slot, inside]
  · simp [slot, same, Ne.symm same]

/-! ### The ring -/

/-- The buffer holds the entries `es`, of any size, oldest first. -/
structure Ring (b : CircularBuffer) (es : List BufferEntry) : Prop where
  few : es.length ≤ maxWriteOperations
  out_lt : b.outOffs < maxWriteOperations
  in_eq : b.inOffs = (b.outOffs + es.length) % maxWriteOperations
  stored : window b.slot maxWriteOperations b.outOffs es.length = es
  unused : ∀ j, es.length ≤ j → j < maxWriteOperations →
    b.slot ((b.outOffs + j) % maxWriteOperations) = .unused
  unwrapped : es.length < maxWriteOperations → b.outOffs = 0

/-- Each of them has a byte. -/
structure Holds (b : CircularBuffer) (es : List BufferEntry) : Prop extends ring : Ring b es where
  positive : ∀ e ∈ es, 0 < e.size

variable {b : CircularBuffer} {es : List BufferEntry} {e : BufferEntry}

theorem init_ring : init.Ring [] where
  few := by simp
  out_lt := by decide
  in_eq := rfl
  stored := rfl
  unused := by simp
  unwrapped := fun _ => rfl

theorem init_holds : init.Holds [] := ⟨init_ring, by simp⟩

theorem Ring.slot_eq (h : b.Ring es) {j : Nat} (inside : j < es.length) :
    b.slot ((b.outOffs + j) % maxWriteOperations) = es[j] := by
  have inWindow : j < (window b.slot maxWriteOperations b.outOffs es.length).length := by simpa using inside
  have cell := window_getElem inWindow
  rw [← cell]
  simp only [h.stored]

theorem Ring.in_lt (h : b.Ring es) : b.inOffs < maxWriteOperations := by
  rw [h.in_eq]; exact Nat.mod_lt _ (by decide)

theorem Ring.oldest (h : b.Ring es) (some' : 0 < es.length) : b.slot b.outOffs = es[0] := by
  rw [← h.slot_eq some', Nat.add_zero, Nat.mod_eq_of_lt h.out_lt]

/-- With entries in the ring the offsets meet when it is full. -/
theorem Ring.meet_iff (h : b.Ring es) (some' : 0 < es.length) :
    b.inOffs = b.outOffs ↔ es.length = maxWriteOperations := by
  constructor
  · intro meet
    by_contra notFull
    have apart := cell_ne maxWriteOperations b.outOffs some' (Nat.lt_of_le_of_ne h.few notFull)
    rw [Nat.add_zero, Nat.mod_eq_of_lt h.out_lt, ← h.in_eq] at apart
    exact apart meet.symm
  · intro full
    rw [h.in_eq, full, Nat.add_mod_right, Nat.mod_eq_of_lt h.out_lt]

/-- A full ring gives up its oldest entry if that has a byte. -/
theorem Ring.evicts_iff (h : b.Ring es) :
    b.Evicts ↔ es.length = maxWriteOperations ∧ ∀ oldest ∈ es.head?, 0 < oldest.size := by
  unfold Evicts
  rcases Nat.eq_zero_or_pos es.length with empty | some'
  · have zero := h.unused 0 (Nat.le_of_eq empty) (by decide)
    rw [Nat.add_zero, Nat.mod_eq_of_lt h.out_lt] at zero
    rw [zero, empty]
    exact iff_of_false (fun both => Nat.lt_irrefl 0 both.2) (fun both => absurd both.1 (by decide))
  · rw [h.meet_iff some', h.oldest some', List.head?_eq_getElem?, List.getElem?_eq_getElem some']
    simp

theorem Holds.evicts_iff (h : b.Holds es) : b.Evicts ↔ es.length = maxWriteOperations := by
  rw [h.ring.evicts_iff, and_iff_left_iff_imp]
  intro _ oldest first
  exact h.positive oldest (List.mem_of_head? first)

theorem Ring.addEntry (h : b.Ring es) (oldest : es.length = maxWriteOperations → b.Evicts) :
    (b.addEntry e).Ring ((es ++ [e]).rtake maxWriteOperations) := by
  by_cases full : es.length = maxWriteOperations
  · have evicts := oldest full
    have meet : b.inOffs = b.outOffs := evicts.1
    have queue := rtake_push_full full (by decide) e
    have length : ((es ++ [e]).rtake maxWriteOperations).length = maxWriteOperations := by
      rw [queue, List.length_append, List.length_tail, List.length_singleton, full]; rfl
    refine ⟨by omega, ?_, ?_, ?_, by omega, by omega⟩
    · simp only [CircularBuffer.addEntry, if_pos evicts]
      exact Nat.mod_lt _ (by decide)
    · simp only [CircularBuffer.addEntry, if_pos evicts]
      rw [length, Nat.add_mod_right, Nat.mod_mod, meet]
    · simp only [CircularBuffer.addEntry, if_pos evicts]
      rw [length, slot_set h.in_lt, meet, window_evict h.out_lt, queue]
      congr 2
      exact full ▸ h.stored
  · have room : es.length < maxWriteOperations := Nat.lt_of_le_of_ne h.few full
    have queue := rtake_push_room room e
    have keep : ¬ b.Evicts := fun evicts => full (h.evicts_iff.mp evicts).1
    rw [queue]
    refine ⟨by simp; omega, ?_, ?_, ?_, ?_, ?_⟩
    · simpa only [CircularBuffer.addEntry, if_neg keep] using h.out_lt
    · simp only [CircularBuffer.addEntry, if_neg keep, List.length_append, List.length_singleton]
      rw [h.in_eq, Nat.mod_add_mod, Nat.add_assoc]
    · simp only [CircularBuffer.addEntry, if_neg keep, List.length_append, List.length_singleton]
      rw [slot_set h.in_lt, h.in_eq, window_push room, h.stored]
    · intro j above below
      simp only [CircularBuffer.addEntry, if_neg keep, List.length_append, List.length_singleton] at above ⊢
      rw [slot_set h.in_lt, h.in_eq, Function.update_of_ne (cell_ne _ _ (by omega) (by omega)).symm]
      exact h.unused j (by omega) below
    · intro _
      simpa only [CircularBuffer.addEntry, if_neg keep] using h.unwrapped room

theorem Holds.addEntry (h : b.Holds es) (pos : 0 < e.size) :
    (b.addEntry e).Holds ((es ++ [e]).rtake maxWriteOperations) := by
  refine ⟨h.ring.addEntry fun full => h.evicts_iff.mpr full, ?_⟩
  intro e' member
  rcases List.mem_append.mp (mem_of_mem_rtake member) with old | new
  · exact h.positive e' old
  · obtain rfl := List.mem_singleton.mp new
    exact pos

/-! ### The search -/

def before (b : CircularBuffer) (j : Nat) : Nat :=
  ∑ i ∈ Finset.range j, (b.slot ((i + b.outOffs) % maxWriteOperations)).size

theorem before_succ (b : CircularBuffer) (j : Nat) :
    b.before (j + 1) = b.before j + (b.slot ((j + b.outOffs) % maxWriteOperations)).size :=
  Finset.sum_range_succ _ _

theorem before_mono (b : CircularBuffer) {i j : Nat} (h : i ≤ j) : b.before i ≤ b.before j :=
  Finset.sum_le_sum_of_subset (Finset.range_mono h)

theorem findLoop_spec (fits : b.before maxWriteOperations < 2 ^ 64) (charOffset left i : Nat)
    (count : left + i = maxWriteOperations) (reached : b.before i ≤ charOffset) :
    match b.findLoop charOffset left i (b.before i) with
    | some (value, offset) => ∃ j < maxWriteOperations, value = (j + b.outOffs) % maxWriteOperations ∧
        b.before j ≤ charOffset ∧ charOffset < b.before (j + 1) ∧ offset = charOffset - b.before j
    | none => b.before maxWriteOperations ≤ charOffset := by
  induction left generalizing i with
  | zero =>
    obtain rfl : i = maxWriteOperations := by omega
    exact reached
  | succ left ih =>
    have bound : b.before (i + 1) < 2 ^ 64 := Nat.lt_of_le_of_lt (b.before_mono (by omega)) fits
    have word : sizeT (b.before i + (b.slot ((i + b.outOffs) % maxWriteOperations)).size) = b.before (i + 1) := by
      rw [← before_succ, sizeT_of_lt bound]
    rw [findLoop]
    simp only [word]
    by_cases inside : b.before (i + 1) > charOffset
    · rw [if_pos inside]
      exact ⟨i, by omega, rfl, reached, inside, sizeSub_of_le reached (Nat.lt_trans inside bound)⟩
    · rw [if_neg inside]
      exact ih _ (by omega) (Nat.le_of_not_lt inside)

end CircularBuffer
end Aesd
