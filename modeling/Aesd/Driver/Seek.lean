import Aesd.Driver.ReadBack

/-!
# Seeking

`get_buffer_size` and the ioctl walk the physical slots from 0, `aesd_read` the
logical ones from `out_offs`. The two agree on the total. They agree on the
position of a record when the slots before it, counted either way, add up to the
same.
-/

namespace Aesd
open Library

variable {s : Driver} {ring : List Cell} {pending : Option Cell} {lost : List Nat} {env : CallEnv}
  {calls : List WriteCall}

theorem slotSum_succ (b : CircularBuffer) (n : Nat) :
    slotSum b (n + 1) = loffT (slotSum b n + (b.slot n).size) := by
  rw [slotSum, List.range_succ, List.foldl_append, ← slotSum, List.foldl_cons, List.foldl_nil]

theorem slotSum_eq {b : CircularBuffer} {n : Nat} (fits : ∑ i ∈ Finset.range n, (b.slot i).size < 2 ^ 63) :
    slotSum b n = (∑ i ∈ Finset.range n, (b.slot i).size : Nat) := by
  induction n with
  | zero => rfl
  | succ n ih =>
    rw [Finset.sum_range_succ] at fits ⊢
    rw [slotSum_succ, ih (by omega), loffT_of_bounds (by omega) (by omega), Nat.cast_add]

theorem Layout.total_eq (h : Layout s ring pending lost) :
    ∑ i ∈ Finset.range maxWriteOperations, (s.dev.buffer.slot i).size = (ring.map Prod.snd).flatten.length := by
  have few : ring.length ≤ maxWriteOperations := by simpa using h.holds.few
  rw [← sum_turn (fun i => (s.dev.buffer.slot i).size) maxWriteOperations s.dev.buffer.outOffs]
  have total := h.before_eq (Nat.le_refl _)
  rwa [start, List.take_of_length_le (by simpa using few)] at total

theorem Layout.slotSum_eq (h : Layout s ring pending lost) {n : Nat} (le : n ≤ maxWriteOperations) :
    slotSum s.dev.buffer n = (∑ i ∈ Finset.range n, (s.dev.buffer.slot i).size : Nat) ∧
      ∑ i ∈ Finset.range n, (s.dev.buffer.slot i).size ≤ (ring.map Prod.snd).flatten.length := by
  have part : ∑ i ∈ Finset.range n, (s.dev.buffer.slot i).size ≤ (ring.map Prod.snd).flatten.length := by
    rw [← h.total_eq]
    exact Finset.sum_le_sum_of_subset (Finset.range_mono le)
  have := h.records_lt
  exact ⟨Aesd.slotSum_eq (by omega), part⟩

theorem Layout.getBufferSize_eq (h : Layout s ring pending lost) (lock : env.interrupted = false) :
    getBufferSize env s = (ring.map Prod.snd).flatten.length := by
  rw [getBufferSize, lock, if_neg (by decide), (h.slotSum_eq (Nat.le_refl _)).1, h.total_eq]

theorem Layout.rewind (h : Layout s ring pending lost) (lock : env.interrupted = false) (fpos : Int) :
    aesdLlseek env 0 seekSet s fpos = (0, 0) := by
  have inside : ¬ ((0 : Int) < 0 ∨ (0 : Int) > ((ring.map Prod.snd).flatten.length : Nat)) := by omega
  simp only [aesdLlseek, seekWithin, h.getBufferSize_eq lock, if_true, if_neg inside]

theorem Layout.ioctl (h : Layout s ring pending lost) (copied : env.notCopied = 0) (cmd : Seekto) (fpos : Int) :
    aesdIoctl env iocSeekto cmd s fpos =
      if cmd.writeCmd.toNat < maxWriteOperations ∧
          cmd.writeCmdOffset.toNat < (s.dev.buffer.slot cmd.writeCmd.toNat).size then
        (0, ((∑ i ∈ Finset.range cmd.writeCmd.toNat, (s.dev.buffer.slot i).size +
          cmd.writeCmdOffset.toNat : Nat) : Int))
      else (-einval, fpos) := by
  unfold aesdIoctl
  simp only [if_true, copied, Nat.zero_min, ne_eq, not_true_eq_false, if_false]
  by_cases known : cmd.writeCmd.toNat < maxWriteOperations
  · rw [if_neg (by omega)]
    by_cases inside : cmd.writeCmdOffset.toNat < (s.dev.buffer.slot cmd.writeCmd.toNat).size
    · rw [if_neg (by omega), if_pos ⟨known, inside⟩]
      have part := (h.slotSum_eq (n := cmd.writeCmd.toNat + 1) known).2
      rw [Finset.sum_range_succ] at part
      have := h.records_lt
      rw [(h.slotSum_eq (Nat.le_of_lt known)).1, loffT_of_bounds (by omega) (by omega)]
      rfl
    · rw [if_pos (by omega), if_neg fun both => inside both.2]
  · rw [if_pos (by omega), if_neg fun both => known both.1]

/-- The ioctl seeks to byte `write_cmd_offset` of the `write_cmd`-th oldest of the stored records, where
the next read starts, and refuses exactly the pairs that name no byte. -/
structure SeekAgrees (env : CallEnv) (s : Driver) (stored : List (List UInt8)) (cmd : Seekto) (fpos : Int) : Prop where
  accepts : (aesdIoctl env iocSeekto cmd s fpos).1 = 0 ↔ cmd.writeCmd.toNat < stored.length ∧
    cmd.writeCmdOffset.toNat < (stored.getD cmd.writeCmd.toNat []).length
  refuses : (aesdIoctl env iocSeekto cmd s fpos).1 ≠ 0 → aesdIoctl env iocSeekto cmd s fpos = (-einval, fpos)
  position : (aesdIoctl env iocSeekto cmd s fpos).1 = 0 → (aesdIoctl env iocSeekto cmd s fpos).2 =
    ((stored.take cmd.writeCmd.toNat).flatten.length + cmd.writeCmdOffset.toNat : Nat)
  reads : (aesdIoctl env iocSeekto cmd s fpos).1 = 0 → ∀ count > 0,
    (aesdRead {} count s (aesdIoctl env iocSeekto cmd s fpos).2).data ≠ [] ∧
    (aesdRead {} count s (aesdIoctl env iocSeekto cmd s fpos).2).data <+:
      (stored.drop cmd.writeCmd.toNat).flatten.drop cmd.writeCmdOffset.toNat

/-- Physical slot `write_cmd` and the slot of the `write_cmd`-th oldest record are on the same side of
the offset, and where it lies inside, the slots before each add up to the same. -/
def SlotsAgree (b : CircularBuffer) (cmd : Seekto) : Prop :=
  let k := cmd.writeCmd.toNat
  let o := cmd.writeCmdOffset.toNat
  k < maxWriteOperations →
    (o < (b.slot k).size ↔ o < (b.slot ((k + b.outOffs) % maxWriteOperations)).size) ∧
    (o < (b.slot k).size → ∑ i ∈ Finset.range k, (b.slot i).size =
      ∑ i ∈ Finset.range k, (b.slot ((i + b.outOffs) % maxWriteOperations)).size)

theorem Layout.logical_size (h : Layout s ring pending lost) {k : Nat} (inside : k < maxWriteOperations) :
    (s.dev.buffer.slot ((k + s.dev.buffer.outOffs) % maxWriteOperations)).size =
      ((ring.map Prod.snd).getD k []).length := by
  have next := h.before_eq (j := k + 1) inside
  have here := h.before_eq (Nat.le_of_lt inside)
  rw [CircularBuffer.before_succ, here, start_eq_sum, start_eq_sum, Finset.sum_range_succ] at next
  omega

theorem Layout.seekAgrees_iff (h : Layout s ring pending lost) (copied : env.notCopied = 0) (cmd : Seekto)
    (fpos : Int) : SeekAgrees env s (ring.map Prod.snd) cmd fpos ↔ SlotsAgree s.dev.buffer cmd := by
  have few : (ring.map Prod.snd).length ≤ maxWriteOperations := by simpa using h.holds.few
  have result := h.ioctl copied cmd fpos
  set k := cmd.writeCmd.toNat
  set o := cmd.writeCmdOffset.toNat
  have named : k < (ring.map Prod.snd).length ∧ o < ((ring.map Prod.snd).getD k []).length ↔
      k < maxWriteOperations ∧ o < (s.dev.buffer.slot ((k + s.dev.buffer.outOffs) % maxWriteOperations)).size := by
    constructor
    · intro both
      obtain ⟨stored, inside⟩ := both
      have known : k < maxWriteOperations := Nat.lt_of_lt_of_le stored few
      exact ⟨known, by rwa [h.logical_size known]⟩
    · intro both
      obtain ⟨known, inside⟩ := both
      rw [h.logical_size known] at inside
      refine ⟨?_, inside⟩
      by_contra outside
      rw [List.getD_eq_default _ _ (by omega)] at inside
      simp at inside
  have nonzero : (-einval : Int) ≠ 0 := by decide
  constructor
  · intro agrees known
    have accepts := agrees.accepts
    have position := agrees.position
    rw [named, result] at accepts
    rw [result] at position
    by_cases inside : o < (s.dev.buffer.slot k).size
    · rw [if_pos ⟨known, inside⟩] at accepts position
      have same := position rfl
      refine ⟨iff_of_true inside (accepts.mp rfl).2, ?_⟩
      intro _
      have logical := h.before_eq (Nat.le_of_lt known)
      rw [CircularBuffer.before, start] at logical
      exact (Nat.add_right_cancel (Int.ofNat.inj same)).trans logical.symm
    · rw [if_neg fun both => inside both.2] at accepts
      exact ⟨iff_of_false inside fun other => nonzero (accepts.mpr ⟨known, other⟩), fun other => (inside other).elim⟩
  · intro agree
    by_cases both : k < maxWriteOperations ∧ o < (s.dev.buffer.slot k).size
    · obtain ⟨known, inside⟩ := both
      obtain ⟨sides, sums⟩ := agree known
      rw [if_pos ⟨known, inside⟩] at result
      have position : ∑ i ∈ Finset.range k, (s.dev.buffer.slot i).size = start (ring.map Prod.snd) k :=
        (sums inside).trans (h.before_eq (Nat.le_of_lt known))
      have stored := named.mpr ⟨known, sides.mp inside⟩
      rw [position] at result
      have last := start_le (ring.map Prod.snd) (k + 1)
      rw [start_succ stored.1, ← List.getD_eq_getElem _ [] stored.1] at last
      have bound := h.records_lt
      refine ⟨by rw [result, named]; exact iff_of_true rfl ⟨known, sides.mp inside⟩,
        fun refused => (refused (by rw [result])).elim, fun _ => by rw [result]; rfl, fun _ count pos => ?_⟩
      rw [result]
      obtain ⟨_, _, piece, _, _, empty⟩ := h.read count (rfl : ({} : CallEnv).interrupted = false) rfl
        (p := start (ring.map Prod.snd) k + o) (by omega)
      refine ⟨fun none' => ?_, by rwa [flatten_drop_start] at piece⟩
      have := empty pos none'
      omega
    · rw [if_neg both] at result
      refine ⟨?_, fun _ => result, fun accepted => ?_, fun accepted => ?_⟩
      · rw [result, named]
        refine iff_of_false nonzero fun other => both ⟨other.1, ?_⟩
        exact (agree other.1).1.mpr other.2
      · rw [result] at accepted
        exact (nonzero accepted).elim
      · rw [result] at accepted
        exact (nonzero accepted).elim

theorem Layout.slotsAgree_all (h : Layout s ring pending lost) :
    (∀ cmd, SlotsAgree s.dev.buffer cmd) ↔ ∀ k < maxWriteOperations, (s.dev.buffer.slot k).size =
      (s.dev.buffer.slot ((k + s.dev.buffer.outOffs) % maxWriteOperations)).size := by
  constructor
  · intro agree k known
    by_cases room : ring.length < maxWriteOperations
    · rw [h.holds.unwrapped (by simpa using room), Nat.add_zero, Nat.mod_eq_of_lt known]
    -- The ring is full: every slot has a first byte, so offset 0 compares every prefix.
    have filled : ∀ i < maxWriteOperations,
        0 < (s.dev.buffer.slot ((i + s.dev.buffer.outOffs) % maxWriteOperations)).size := by
      intro i inside
      have slot := h.holds.slot_eq (j := i) (by rw [List.length_map]; omega)
      rw [Nat.add_comm i, slot]
      exact h.holds.positive _ (List.getElem_mem _)
    have prefixes : ∀ i ≤ maxWriteOperations, ∑ l ∈ Finset.range i, (s.dev.buffer.slot l).size =
        ∑ l ∈ Finset.range i, (s.dev.buffer.slot ((l + s.dev.buffer.outOffs) % maxWriteOperations)).size := by
      intro i le
      rcases Nat.lt_or_eq_of_le le with inside | rfl
      · have word : (UInt32.ofNat i).toNat = i := by
          rw [UInt32.toNat_ofNat']
          exact Nat.mod_eq_of_lt (Nat.lt_trans inside (by decide))
        have here := agree ⟨UInt32.ofNat i, 0⟩
        unfold SlotsAgree at here
        simp only [word, UInt32.toNat_zero] at here
        obtain ⟨sides, sums⟩ := here inside
        exact sums (sides.mpr (filled i inside))
      · exact (sum_turn (fun i => (s.dev.buffer.slot i).size) _ _).symm
    have next := prefixes (k + 1) known
    rw [Finset.sum_range_succ, Finset.sum_range_succ, prefixes k (Nat.le_of_lt known)] at next
    omega
  · intro same cmd known
    refine ⟨by rw [same _ known], fun _ => Finset.sum_congr rfl fun i inside => same i ?_⟩
    exact Nat.lt_trans (Finset.mem_range.mp inside) known

/-- In every state that successful writes lead to, the ioctl agrees with the order of the reads on
exactly the pairs for which the physical slots do, and on all pairs exactly when each slot has the
size of the slot `out_offs` further on. -/
theorem seek_agrees_iff (run : writer.run Driver.init calls = some s) (ok : writer.Along Succeeds Driver.init calls)
    (copied : env.notCopied = 0) (fpos : Int) :
    let stored := (writer.observe handed Driver.init calls).rtake maxWriteOperations
    (∀ cmd, SeekAgrees env s stored cmd fpos ↔ SlotsAgree s.dev.buffer cmd) ∧
    ((∀ cmd, SeekAgrees env s stored cmd fpos) ↔ ∀ k < maxWriteOperations, (s.dev.buffer.slot k).size =
      (s.dev.buffer.slot ((k + s.dev.buffer.outOffs) % maxWriteOperations)).size) := by
  obtain ⟨ring, pending, lost, layout, history⟩ := run_layout (Machine.along_mono (fun _ _ h => h.1) ok) run
  simp only [← history]
  have each (cmd : Seekto) := layout.seekAgrees_iff copied cmd fpos
  refine ⟨each, ?_⟩
  rw [← layout.slotsAgree_all]
  exact forall_congr' each

theorem seek_agrees_equal_sizes :
    let calls : List WriteCall := (List.range 12).map fun i => ⟨{ kmallocAt := some i }, [i.toUInt8, newline], 0⟩
    let s := (writer.run Driver.init calls).getD Driver.init
    ∀ cmd, SeekAgrees {} s ((writer.observe handed Driver.init calls).rtake maxWriteOperations) cmd 5 := by
  intro calls s
  have agrees := seek_agrees_iff (s := s) rfl (show writer.Along Succeeds Driver.init calls by decide)
    (show ({} : CallEnv).notCopied = 0 from rfl) 5
  exact agrees.2.mpr (by decide)

/-- Eleven records, the newest one longer: slot 0 now holds it, and seeking to the second oldest record
counts it as if it came first. -/
theorem seek_counts_newest_first :
    ¬ ∀ (calls : List WriteCall) (s : Driver) (env : CallEnv) (cmd : Seekto) (fpos : Int),
      writer.run Driver.init calls = some s → writer.Along Succeeds Driver.init calls → env.notCopied = 0 →
      SeekAgrees env s ((writer.observe handed Driver.init calls).rtake maxWriteOperations) cmd fpos := by
  intro agrees
  let calls : List WriteCall := (List.range 11).map fun i =>
    ⟨{ kmallocAt := some i }, if i = 10 then [98, 98, newline] else [97, newline], 0⟩
  have position := (agrees calls ((writer.run Driver.init calls).getD Driver.init) {} ⟨1, 0⟩ 0 rfl (by decide) rfl).position
  revert position
  decide

end Aesd
