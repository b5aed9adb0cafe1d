import Aesd.Library.Segments
import Aesd.Library.Window

/-!
# A bounded log of records

All records ever appended, of which a device with `cap` places keeps the last
`cap`. Record number `n` lies in place `n % cap`. Positions count the bytes of
the kept records, so that each record dropped moves every position on in the
stream of all bytes.
-/

namespace Library

variable {α : Type*}

/-- The rest of the record that position `p` is in, nothing past the end. -/
def restOfRecord : List (List α) → Nat → List α
  | [], _ => []
  | record :: records, p =>
    if p < record.length then record.drop p else restOfRecord records (p - record.length)

/-- The bytes of the records that no longer fit. -/
def droppedBytes (cap : Nat) (records : List (List α)) : Nat := (records.rdrop cap).flatten.length

/-- The record in place `i`. -/
def placed (cap : Nat) (records : List (List α)) (i : Nat) : List α :=
  if i < records.length then records.getD (i + cap * ((records.length - 1 - i) / cap)) [] else []

variable {records : List (List α)} {record : List α} {cap i j p : Nat}

theorem restOfRecord_inside (inside : j < records.length) (above : start records j ≤ p)
    (below : p < start records (j + 1)) : restOfRecord records p = records[j].drop (p - start records j) := by
  induction records generalizing j p with
  | nil => cases inside
  | cons record records ih =>
    unfold restOfRecord
    cases j with
    | zero =>
      rw [start_succ (by simp)] at below
      have first : start (record :: records) 0 = 0 := rfl
      rw [first, List.getElem_cons_zero] at below
      rw [if_pos (by omega), first]
      rfl
    | succ j =>
      have next (k : Nat) : start (record :: records) (k + 1) = record.length + start records k := by simp [start]
      rw [next] at above below
      rw [if_neg (by omega), ih (j := j) (by simpa using inside) (by omega) (by omega), next]
      simp [Nat.sub_sub]

theorem restOfRecord_beyond (beyond : records.flatten.length ≤ p) : restOfRecord records p = [] := by
  induction records generalizing p with
  | nil => rfl
  | cons record records ih =>
    rw [List.flatten_cons, List.length_append] at beyond
    rw [restOfRecord, if_neg (by omega)]
    exact ih (by omega)

theorem restOfRecord_front (records : List (List α)) (p : Nat) :
    restOfRecord records p <+: records.flatten.drop p := by
  induction records generalizing p with
  | nil => exact List.nil_prefix
  | cons record records ih =>
    unfold restOfRecord
    rw [List.flatten_cons, List.drop_append]
    split
    · exact List.prefix_append _ _
    · rename_i beyond
      rw [List.drop_eq_nil_of_le (Nat.le_of_not_lt beyond), List.nil_append]
      exact ih (p - record.length)

theorem restOfRecord_eq_nil : restOfRecord records p = [] ↔ records.flatten.length ≤ p := by
  refine ⟨?_, restOfRecord_beyond⟩
  induction records generalizing p with
  | nil => simp
  | cons record records ih =>
    intro nothing
    unfold restOfRecord at nothing
    rw [List.flatten_cons, List.length_append]
    split at nothing
    · have := List.drop_eq_nil_iff.mp nothing
      omega
    · have := ih nothing
      omega

theorem restOfRecord_inside_one (records : List (List α)) (p : Nat) :
    restOfRecord records p = [] ∨ ∃ record ∈ records, restOfRecord records p <:+ record := by
  induction records generalizing p with
  | nil => exact Or.inl rfl
  | cons record records ih =>
    unfold restOfRecord
    split
    · exact Or.inr ⟨record, List.mem_cons_self, List.drop_suffix _ _⟩
    · rcases ih (p - record.length) with nothing | ⟨other, inside, rest⟩
      · exact Or.inl nothing
      · exact Or.inr ⟨other, List.mem_cons_of_mem _ inside, rest⟩

/-- Before the end a piece of what is left of a record has a byte; it is as long as it may be or ends the record. -/
theorem restOfRecord_take {count : Nat} (pos : 0 < count) (left : p < records.flatten.length) :
    (restOfRecord records p).take count ≠ [] ∧ (((restOfRecord records p).take count).length = count ∨
      ∃ record ∈ records, (restOfRecord records p).take count <:+ record) := by
  have more : restOfRecord records p ≠ [] := by
    intro nothing
    have := restOfRecord_eq_nil.mp nothing
    omega
  have some' := List.length_pos_iff.mpr more
  constructor
  · rw [← List.length_pos_iff, List.length_take]
    omega
  by_cases short : count ≤ (restOfRecord records p).length
  · left
    rw [List.length_take, Nat.min_eq_left short]
  · obtain ⟨record, inside, rest⟩ := (restOfRecord_inside_one records p).resolve_left more
    right
    rw [List.take_of_length_le (by omega)]
    exact ⟨record, inside, rest⟩

/-- A piece of the kept records is a piece of the whole stream, the dropped bytes further on. -/
theorem restOfRecord_stream (cap : Nat) (records : List (List α)) (p : Nat) :
    restOfRecord (records.rtake cap) p <+: records.flatten.drop (droppedBytes cap records + p) := by
  have split : records.flatten = (records.rdrop cap).flatten ++ (records.rtake cap).flatten := by
    rw [← List.flatten_append, List.rdrop, List.rtake, List.take_append_drop]
  rw [split, droppedBytes, ← List.drop_drop, List.drop_left]
  exact restOfRecord_front _ _

theorem length_flatten_split (cap : Nat) (records : List (List α)) :
    droppedBytes cap records + (records.rtake cap).flatten.length = records.flatten.length := by
  rw [droppedBytes, ← List.length_append, ← List.flatten_append, List.rdrop, List.rtake, List.take_append_drop]

theorem droppedBytes_mono (cap : Nat) (records more : List (List α)) :
    droppedBytes cap records ≤ droppedBytes cap (records ++ more) := by
  have earlier : records.rdrop cap <+: (records ++ more).rdrop cap := by
    unfold List.rdrop
    rw [List.length_append, List.take_append]
    apply List.IsPrefix.trans _ (List.prefix_append _ _)
    exact List.take_prefix_take_left (by omega)
  obtain ⟨rest, split⟩ := earlier
  rw [droppedBytes, droppedBytes, ← split, List.flatten_append, List.length_append]
  exact Nat.le_add_right _ _

/-- Pieces of a stream taken where the last one ended are a piece of it. -/
theorem prefix_append_drop {got piece stream : List α} (front : got <+: stream)
    (next : piece <+: stream.drop got.length) : got ++ piece <+: stream := by
  obtain ⟨rest, rfl⟩ := front
  rw [List.drop_left] at next
  exact (List.prefix_append_right_inj _).mpr next

/-! ### Places -/

theorem placed_outside (outside : records.length ≤ i) : placed cap records i = [] := by
  rw [placed, if_neg (by omega)]

/-- The `j`-th kept record lies in the place of its number. -/
theorem placed_kept (pos : 0 < cap) (inside : j < (records.rtake cap).length) :
    placed cap records ((records.length - cap + j) % cap) = (records.rtake cap)[j] := by
  rw [length_rtake] at inside
  have number : (records.length - cap + j) % cap +
      cap * ((records.length - 1 - (records.length - cap + j) % cap) / cap) = records.length - cap + j := by
    have split := Nat.div_add_mod (records.length - cap + j) cap
    set n := records.length - cap + j with same
    set r := n % cap
    set q := n / cap
    have below : r < cap := Nat.mod_lt _ pos
    have quotient : (records.length - 1 - r) / cap = q := by
      apply Nat.div_eq_of_lt_le
      · rw [Nat.mul_comm]; omega
      · rw [Nat.mul_comm, Nat.mul_succ]; omega
    rw [quotient]
    omega
  have smaller : (records.length - cap + j) % cap ≤ records.length - cap + j := Nat.mod_le _ _
  rw [placed, if_pos (by omega), number, List.getD_eq_getElem _ _ (by omega)]
  simp only [List.rtake, List.getElem_drop]

end Library
