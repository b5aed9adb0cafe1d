import Aesd.Driver.CircularBuffer

/-!
# Where a position is

`aesd_circular_buffer_find_entry_offset_for_fpos` on slots of any sizes, against
the slots laid end to end from `out_offs` on.
-/

namespace Aesd
open Library

namespace CircularBuffer

/-- Byte `charOffset` of the slots laid end to end is in the `j`-th slot from `out_offs`. -/
structure Place (b : CircularBuffer) (charOffset j : Nat) : Prop where
  inside : j < maxWriteOperations
  above : b.before j ≤ charOffset
  below : charOffset < b.before (j + 1)

/-- The sums of the loop before they are cut to 64 bits: the argument of `%`, and `cumulative_offset` with
the size of the slot. -/
def loopSums (b : CircularBuffer) (charOffset : Nat) : (left i cumulativeOffset : Nat) → List Nat
  | 0, _, _ => []
  | left + 1, i, cumulativeOffset =>
    let sum := cumulativeOffset + (b.slot ((i + b.outOffs) % maxWriteOperations)).size
    (i + b.outOffs) :: sum ::
      if sizeT sum > charOffset then [] else b.loopSums charOffset left (i + 1) (sizeT sum)

variable {b : CircularBuffer} {charOffset rtn i j : Nat}

theorem loopSums_even (b : CircularBuffer) (charOffset left i cumulativeOffset : Nat) :
    (b.loopSums charOffset left i cumulativeOffset).length % 2 = 0 := by
  induction left generalizing i cumulativeOffset with
  | zero => rfl
  | succ left ih =>
    rw [loopSums, List.length_cons, List.length_cons]
    split
    · rfl
    · have := ih (i + 1) (sizeT (cumulativeOffset + (b.slot ((i + b.outOffs) % maxWriteOperations)).size))
      omega

/-- What the loop finds is read off its sums: the last one decides, the last argument of `%` is the slot, and the
sum before is what the position is counted from. -/
theorem findLoop_sums (b : CircularBuffer) (charOffset left i cumulativeOffset : Nat) :
    b.findLoop charOffset left i (sizeT cumulativeOffset) =
      match (b.loopSums charOffset left i (sizeT cumulativeOffset)).reverse with
      | sum :: place :: earlier =>
        if sizeT sum > charOffset then
          some (place % maxWriteOperations, sizeSub charOffset (sizeT (earlier.head?.getD cumulativeOffset)))
        else none
      | _ => none := by
  induction left generalizing i cumulativeOffset with
  | zero => rfl
  | succ left ih =>
    rw [findLoop, loopSums]
    set sum := sizeT cumulativeOffset + (b.slot ((i + b.outOffs) % maxWriteOperations)).size
    by_cases found : sizeT sum > charOffset
    · simp [found]
    · rw [if_neg found, if_neg found, ih (i + 1) sum, List.reverse_cons, List.reverse_cons]
      cases later : (b.loopSums charOffset left (i + 1) (sizeT sum)).reverse with
      | nil => simp [found]
      | cons last before =>
        cases before with
        | nil =>
          have even := b.loopSums_even charOffset left (i + 1) (sizeT sum)
          rw [← List.length_reverse, later] at even
          cases even
        | cons place earlier => cases earlier <;> simp

theorem Place.unique (first : b.Place charOffset i) (second : b.Place charOffset j) : i = j := by
  obtain ⟨_, above, below⟩ := first
  obtain ⟨_, above', below'⟩ := second
  rcases Nat.lt_trichotomy i j with earlier | same | later
  · have between := b.before_mono (show i + 1 ≤ j from earlier)
    omega
  · exact same
  · have between := b.before_mono (show j + 1 ≤ i from later)
    omega

theorem Place.offset_lt (h : b.Place charOffset j) :
    charOffset - b.before j < (b.slot ((b.outOffs + j) % maxWriteOperations)).size := by
  have last := h.below
  rw [before_succ, Nat.add_comm j] at last
  have above := h.above
  omega

theorem Place.lt_total (h : b.Place charOffset j) : charOffset < b.before maxWriteOperations :=
  Nat.lt_of_lt_of_le h.below (b.before_mono h.inside)

theorem findEntry_cases (fits : b.before maxWriteOperations < 2 ^ 64) (charOffset rtn : Nat) :
    (∃ j, b.Place charOffset j ∧ b.findEntryOffsetForFpos charOffset rtn =
      (some ((b.outOffs + j) % maxWriteOperations), charOffset - b.before j)) ∨
    (b.before maxWriteOperations ≤ charOffset ∧ b.findEntryOffsetForFpos charOffset rtn = (none, rtn)) := by
  have found := findLoop_spec fits charOffset maxWriteOperations 0 rfl (Nat.zero_le _)
  rw [show b.before 0 = 0 from rfl] at found
  unfold findEntryOffsetForFpos
  cases result : b.findLoop charOffset maxWriteOperations 0 0 with
  | none =>
    rw [result] at found
    exact Or.inr ⟨found, rfl⟩
  | some hit =>
    obtain ⟨value, offset⟩ := hit
    rw [result] at found
    obtain ⟨j, inside, rfl, above, below, rfl⟩ := found
    rw [Nat.add_comm j]
    exact Or.inl ⟨j, ⟨inside, above, below⟩, rfl⟩

/-- At iteration `i` the sum so far is that of the `i` slots before. -/
theorem loopSums_lt (fits : b.before maxWriteOperations < 2 ^ 64) (out : b.outOffs < maxWriteOperations) (left i : Nat)
    (count : left + i = maxWriteOperations) : ∀ sum ∈ b.loopSums charOffset left i (b.before i), sum < 2 ^ 64 := by
  induction left generalizing i with
  | zero =>
    intro sum inside
    cases inside
  | succ left ih =>
    have bound : b.before (i + 1) < 2 ^ 64 := Nat.lt_of_le_of_lt (b.before_mono (by omega)) fits
    intro sum inside
    unfold loopSums at inside
    simp only [← before_succ, sizeT_of_lt bound, List.mem_cons] at inside
    rcases inside with rfl | rfl | later
    · have ten : left + 1 + i = 10 := count
      have few : b.outOffs < 10 := out
      omega
    · exact bound
    · split at later
      · cases later
      · exact ih (i + 1) (by omega) sum later

/-- For slots of any sizes that fit in 64 bits, the function finds the slot and the byte in it at which the
position is, or nothing when the position is past the end, and no sum wraps. -/
theorem find_entry_offset (b : CircularBuffer) (charOffset rtn : Nat) (fits : b.before maxWriteOperations < 2 ^ 64)
    (out : b.outOffs < maxWriteOperations) :
    (charOffset < b.before maxWriteOperations → ∃ j, b.Place charOffset j ∧ (∀ i, b.Place charOffset i → i = j) ∧
      b.findEntryOffsetForFpos charOffset rtn =
        (some ((b.outOffs + j) % maxWriteOperations), charOffset - b.before j) ∧
      charOffset - b.before j < (b.slot ((b.outOffs + j) % maxWriteOperations)).size) ∧
    ((b.findEntryOffsetForFpos charOffset rtn).1 = none ↔ b.before maxWriteOperations ≤ charOffset) ∧
    ((b.findEntryOffsetForFpos charOffset rtn).1 = none → (b.findEntryOffsetForFpos charOffset rtn).2 = rtn) ∧
    ∀ sum ∈ b.loopSums charOffset maxWriteOperations 0 0, sum < 2 ^ 64 := by
  refine ⟨?_, ?_, ?_, loopSums_lt fits out maxWriteOperations 0 rfl⟩
  · intro inside
    rcases findEntry_cases fits charOffset rtn with ⟨j, place, found⟩ | ⟨beyond, _⟩
    · exact ⟨j, place, fun i other => other.unique place, found, place.offset_lt⟩
    · exact absurd inside (Nat.not_lt_of_le beyond)
  · rcases findEntry_cases fits charOffset rtn with ⟨j, place, found⟩ | ⟨beyond, found⟩
    · rw [found]
      exact iff_of_false (by simp) (Nat.not_le_of_lt place.lt_total)
    · rw [found]
      exact iff_of_true rfl beyond
  · intro nothing
    rcases findEntry_cases fits charOffset rtn with ⟨j, _, found⟩ | ⟨_, found⟩
    · rw [found] at nothing
      cases nothing
    · rw [found]

/-- Empty slots first, in the middle and last, read from slot 8: position 3 is the first byte of slot 1. -/
theorem find_entry_offset_skips :
    let sizes := #v[0, 2, 0, 0, 4, 0, 0, 0, 0, 3]
    let b : CircularBuffer := ⟨sizes.map fun size => ⟨.block size, size⟩, 8, 8, true⟩
    ∃ j, b.Place 3 j ∧ b.findEntryOffsetForFpos 3 7 = (some ((b.outOffs + j) % maxWriteOperations), 3 - b.before j) := by
  intro sizes b
  have law := find_entry_offset b 3 7 (by decide +kernel) (by decide)
  obtain ⟨j, place, _, found, _⟩ := law.1 (by decide +kernel)
  exact ⟨j, place, found⟩

end CircularBuffer
end Aesd
