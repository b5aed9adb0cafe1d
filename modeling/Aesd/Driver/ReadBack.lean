import Aesd.Driver.Lookup
import Aesd.Driver.Writer

/-!
# Reading the device back

`aesd_read` finds its position in the ring and stops at the end of the entry.
Successive reads, whatever their counts, deliver the stored records end to end.
-/

namespace Aesd
open Library

variable {s : Driver} {ring : List Cell} {pending : Option Cell} {lost : List Nat} {env : CallEnv}
  {p : Nat}

theorem Layout.before_eq (h : Layout s ring pending lost) {j : Nat} (le : j ≤ maxWriteOperations) :
    s.dev.buffer.before j = start (ring.map Prod.snd) j := by
  rw [start_eq_sum]
  apply Finset.sum_congr rfl
  intro i inside
  have below := Finset.mem_range.mp inside
  rw [Nat.add_comm i]
  by_cases stored : i < ring.length
  · rw [h.holds.slot_eq (by simpa using stored)]
    simp [Cell.entry, stored]
  · rw [h.holds.unused i (by simpa using stored) (by omega)]
    simp [BufferEntry.unused, stored]

theorem Layout.records_lt (h : Layout s ring pending lost) : (ring.map Prod.snd).flatten.length < 2 ^ 63 := by
  have := h.total_lt
  simp only [List.map_append, List.flatten_append, List.length_append] at this
  omega

theorem Layout.find (h : Layout s ring pending lost) (p : Nat) :
    (∃ j, ∃ stored : j < ring.length, start (ring.map Prod.snd) j ≤ p ∧ p < start (ring.map Prod.snd) (j + 1) ∧
      s.dev.buffer.findEntryOffsetForFpos p 0 = (some ((j + s.dev.buffer.outOffs) % maxWriteOperations),
        p - start (ring.map Prod.snd) j) ∧
      s.dev.buffer.slot ((j + s.dev.buffer.outOffs) % maxWriteOperations) = (ring[j]).entry) ∨
    ((ring.map Prod.snd).flatten.length ≤ p ∧ s.dev.buffer.findEntryOffsetForFpos p 0 = (none, 0)) := by
  have few : ring.length ≤ maxWriteOperations := by simpa using h.holds.few
  have total : s.dev.buffer.before maxWriteOperations = (ring.map Prod.snd).flatten.length := by
    rw [h.before_eq (Nat.le_refl _), start, List.take_of_length_le (by simpa using few)]
  have fits : s.dev.buffer.before maxWriteOperations < 2 ^ 64 := by
    have := h.records_lt
    omega
  rcases CircularBuffer.findEntry_cases fits p 0 with ⟨j, place, found⟩ | ⟨beyond, found⟩
  · obtain ⟨inside, above, below⟩ := place
    rw [h.before_eq (Nat.le_of_lt inside)] at above found
    rw [h.before_eq (show j + 1 ≤ maxWriteOperations from inside)] at below
    have stored : j < ring.length := by
      by_contra outside
      have := start_le (ring.map Prod.snd) (j + 1)
      have saturated : start (ring.map Prod.snd) j = (ring.map Prod.snd).flatten.length := by
        rw [start, List.take_of_length_le (by simpa using outside)]
      omega
    refine Or.inl ⟨j, stored, above, below, ?_, ?_⟩
    · rw [found, Nat.add_comm]
    · rw [Nat.add_comm, h.holds.slot_eq (by simpa using stored), List.getElem_map]
  · exact Or.inr ⟨by simpa only [total] using beyond, found⟩

theorem Layout.read (h : Layout s ring pending lost) (count : Nat) (lock : env.interrupted = false)
    (copies : env.notCopied = 0) (small : p < 2 ^ 63) :
    let source := (ring.map Prod.snd).flatten
    let res := aesdRead env count s p
    res.retval = res.data.length ∧ res.fpos = (p + res.data.length : Nat) ∧ res.data <+: source.drop p ∧
      p + res.data.length ≤ max p source.length ∧ res.data.length ≤ count ∧
      (0 < count → res.data = [] → source.length ≤ p) := by
  intro source res
  have word : toSizeT p = p := toSizeT_natCast (by omega)
  have bound := h.records_lt
  rcases h.find p with ⟨j, stored, above, below, found, slot⟩ | ⟨past, found⟩
  · have stored' : j < (ring.map Prod.snd).length := by simpa using stored
    have rest := flatten_drop stored' above (Nat.le_of_lt below)
    have last : start (ring.map Prod.snd) (j + 1) ≤ source.length := start_le _ _
    have bound : source.length < 2 ^ 63 := bound
    rw [start_succ stored', List.getElem_map] at below last
    rw [List.getElem_map] at rest
    have live := h.live ring[j] (by simp)
    have length : (ring[j].2.drop (p - start (ring.map Prod.snd) j)).length =
        ring[j].2.length - (p - start (ring.map Prod.snd) j) := List.length_drop
    have data : res.data = (ring[j].2.drop (p - start (ring.map Prod.snd) j)).take count := by
      simp only [res, aesdRead, lock, Bool.false_eq_true, if_false, aesdReadLocked, word, found, slot, copies,
        Nat.zero_min, ne_eq, not_true_eq_false, Cell.entry, Heap.bytes, live]
      rw [sizeSub_of_le (by omega) (by omega), List.drop_take, Nat.add_sub_cancel_left,
        List.take_eq_take_iff, length]
      omega
    have size : res.data.length = min count (ring[j].2.length - (p - start (ring.map Prod.snd) j)) := by
      rw [data, List.length_take, length]
    refine ⟨?_, ?_, ?_, by omega, by omega, fun some' none' => ?_⟩
    · rw [size]
      simp only [res, aesdRead, lock, Bool.false_eq_true, if_false, aesdReadLocked, word, found, slot, copies,
        Nat.zero_min, ne_eq, not_true_eq_false, Cell.entry]
      rw [sizeSub_of_le (by omega) (by omega), loffT_of_bounds (by omega) (by omega)]
    · rw [size]
      simp only [res, aesdRead, lock, Bool.false_eq_true, if_false, aesdReadLocked, word, found, slot, copies,
        Nat.zero_min, ne_eq, not_true_eq_false, Cell.entry]
      rw [sizeSub_of_le (by omega) (by omega), loffT_of_bounds (by omega) (by omega)]
      rfl
    · rw [data, show source.drop p = _ from rest]
      exact (List.take_prefix _ _).trans (List.prefix_append _ _)
    · rw [none', List.length_nil] at size
      omega
  · have empty : res = ⟨0, [], p⟩ := by
      simp only [res, aesdRead, lock, Bool.false_eq_true, if_false, aesdReadLocked, word, found]
    rw [empty]
    exact ⟨rfl, rfl, List.nil_prefix, by simp, Nat.zero_le _, fun _ _ => past⟩

/-! ### Successive reads -/

/-- `*f_pos` at the `i`-th of successive calls of `aesd_read` from `p`, with no write in between. -/
def readPos (envs : Nat → CallEnv) (counts : Nat → Nat) (s : Driver) (p : Int) : Nat → Int
  | 0 => p
  | i + 1 => (aesdRead (envs i) (counts i) s (readPos envs counts s p i)).fpos

def readCall (envs : Nat → CallEnv) (counts : Nat → Nat) (s : Driver) (p : Int) (i : Nat) : ReadResult :=
  aesdRead (envs i) (counts i) s (readPos envs counts s p i)

section
variable {envs : Nat → CallEnv} {counts : Nat → Nat}
  (lock : ∀ i, (envs i).interrupted = false) (copies : ∀ i, (envs i).notCopied = 0)
include lock copies

theorem Layout.reads (h : Layout s ring pending lost) (positive : ∀ i, 0 < counts i) :
    Reads (ring.map Prod.snd).flatten (2 ^ 63 - 1) fun i q => (aesdRead (envs i) (counts i) s q).data where
  fits := by have := h.records_lt; omega
  piece i q small := (h.read (counts i) (lock i) (copies i) (by omega)).2.2.1
  last i q small := (h.read (counts i) (lock i) (copies i) (by omega)).2.2.2.2.2 (positive i)

theorem readPos_eq (h : Layout s ring pending lost) (positive : ∀ i, 0 < counts i) (small : p < 2 ^ 63) (i : Nat) :
    readPos envs counts s p i = position (fun i q => (aesdRead (envs i) (counts i) s q).data) p i := by
  induction i with
  | zero => rfl
  | succ i ih =>
    have inside := (h.reads lock copies positive).position_le (p := p) (by omega) i
    rw [readPos, ih, (h.read (counts i) (lock i) (copies i) (by omega)).2.1, position]

variable (envs counts) in
/-- From any state that successful writes lead to, successive reads deliver the last ten records handed
to the ring from `p` on, then return 0; they return 0 only at the end. -/
theorem read_back {calls : List WriteCall} (run : writer.run Driver.init calls = some s)
    (ok : writer.Along Succeeds Driver.init calls) (positive : ∀ i, 0 < counts i) (small : p < 2 ^ 63) :
    let source := ((writer.observe handed Driver.init calls).rtake maxWriteOperations).flatten
    (∃ m, (readCall envs counts s p m).retval = 0 ∧ (∀ i < m, 0 < (readCall envs counts s p i).retval) ∧
      ((List.range m).flatMap fun i => (readCall envs counts s p i).data) = source.drop p) ∧
    (∀ i, (readCall envs counts s p i).retval = (readCall envs counts s p i).data.length) ∧
    ∀ i, (readCall envs counts s p i).retval = 0 ↔ (source.length : Int) ≤ readPos envs counts s p i := by
  obtain ⟨ring, pending, lost, layout, history⟩ := run_layout (Machine.along_mono (fun _ _ h => h.1) ok) run
  simp only [← history]
  have reads := layout.reads lock copies positive
  have inside : p ≤ 2 ^ 63 - 1 := by omega
  have calls (i : Nat) := layout.read (counts i) (lock i) (copies i)
    (Nat.lt_of_le_of_lt (reads.position_le inside i) (by decide))
  have same (i : Nat) : (readCall envs counts s p i).data =
      (aesdRead (envs i) (counts i) s (position (fun i q => (aesdRead (envs i) (counts i) s q).data) p i)).data := by
    rw [readCall, readPos_eq lock copies layout positive small]
  have returned (i : Nat) : (readCall envs counts s p i).retval = (readCall envs counts s p i).data.length := by
    rw [same, readCall, readPos_eq lock copies layout positive small]
    exact (calls i).1
  obtain ⟨m, empty, more, drained⟩ := reads.drains inside
  refine ⟨⟨m, ?_, ?_, ?_⟩, returned, fun i => ?_⟩
  · rw [returned, same, empty]
    rfl
  · intro i before
    rw [returned, same]
    have := List.length_pos_iff.mpr (more i before)
    omega
  · simp only [same, drained]
  · rw [returned, same, readPos_eq lock copies layout positive small]
    obtain ⟨_, _, piece, _, _, last⟩ := calls i
    constructor
    · intro zero
      have := last (positive i) (List.eq_nil_of_length_eq_zero (by omega))
      omega
    · intro past
      rw [List.drop_eq_nil_of_le (by omega)] at piece
      rw [List.prefix_nil.mp piece]
      rfl

end

theorem read_back_wrapped :
    let calls : List WriteCall := (List.range 12).map fun i => ⟨{ kmallocAt := some i }, [i.toUInt8, newline], 0⟩
    let s := (writer.run Driver.init calls).getD Driver.init
    ∃ m, (readCall (fun _ => {}) (fun _ => 3) s 1 m).retval = 0 ∧
      ((List.range m).flatMap fun i => (readCall (fun _ => {}) (fun _ => 3) s 1 i).data) =
        [10, 3, 10, 4, 10, 5, 10, 6, 10, 7, 10, 8, 10, 9, 10, 10, 10, 11, 10] := by
  intro calls s
  obtain ⟨⟨m, zero, _, drained⟩, _⟩ := read_back (fun _ => {}) (fun _ => 3) (fun _ => rfl) (fun _ => rfl) (p := 1)
    (s := s) rfl (show writer.Along Succeeds Driver.init calls by decide) (fun _ => by decide) (by decide)
  exact ⟨m, zero, drained⟩

end Aesd
