import Aesd.Driver.Seek
import Mathlib.Order.Bounds.Defs

/-!
# The end of the device

`aesd_llseek` measures the device by the sum over the physical slots, `aesd_read`
ends where its search through the logical ones finds nothing. Both ends are the
total length of the stored records, also where 64-bit positions wrap.
-/

namespace Aesd
open Library

/-- Where a seek points to, as an integer. -/
def seekTarget (total offSet whence fpos : Int) : Int :=
  if whence = seekSet then offSet else if whence = seekCur then fpos + offSet else total + offSet

variable {s : Driver} {ring : List Cell} {pending : Option Cell} {lost : List Nat} {env : CallEnv}
  {calls : List WriteCall} {offSet whence fpos : Int}

theorem loffT_of_over {x : Int} (low : 2 ^ 63 ≤ x) (high : x < 2 ^ 64) : loffT x = x - 2 ^ 64 := by
  rw [loffT, ← Int.sub_bmod_right]
  exact Int.bmod_eq_of_le (by omega) (by omega)

/-- A sum that leaves the 64 bits upwards wraps below 0, so it stays out of the device. -/
theorem loffT_inside {x total : Int} (fpos : Int) (small : total < 2 ^ 63) (low : -(2 ^ 63) ≤ x) (high : x < 2 ^ 64) :
    (if loffT x < 0 ∨ loffT x > total then (-einval, fpos) else (loffT x, loffT x)) =
      if 0 ≤ x ∧ x ≤ total then (x, x) else (-einval, fpos) := by
  by_cases fits : x < 2 ^ 63
  · rw [loffT_of_bounds low fits]
    by_cases inside : 0 ≤ x ∧ x ≤ total
    · rw [if_pos inside, if_neg (by omega)]
    · rw [if_neg inside, if_pos (by omega)]
  · rw [loffT_of_over (by omega) high, if_pos (by omega), if_neg (by omega)]

theorem Layout.llseek (h : Layout s ring pending lost) (lock : env.interrupted = false)
    (fposLow : 0 ≤ fpos) (fposHigh : fpos < 2 ^ 63) (offLow : -(2 ^ 63) ≤ offSet) (offHigh : offSet < 2 ^ 63)
    (known : whence = seekSet ∨ whence = seekCur ∨ whence = seekEnd) :
    let total : Int := (ring.map Prod.snd).flatten.length
    aesdLlseek env offSet whence s fpos =
      if 0 ≤ seekTarget total offSet whence fpos ∧ seekTarget total offSet whence fpos ≤ total then
        (seekTarget total offSet whence fpos, seekTarget total offSet whence fpos)
      else (-einval, fpos) := by
  intro total
  have bound : total < 2 ^ 63 := by
    have := h.records_lt
    omega
  unfold aesdLlseek seekWithin
  rw [h.getBufferSize_eq lock]
  rcases known with rfl | rfl | rfl
  · have inside := loffT_inside fpos bound offLow (show offSet < 2 ^ 64 by omega)
    rw [loffT_of_bounds offLow offHigh] at inside
    exact inside
  · exact loffT_inside fpos bound (by omega) (by omega)
  · exact loffT_inside fpos bound (by omega) (by omega)

theorem Layout.read_zero_iff (h : Layout s ring pending lost) (lock : env.interrupted = false) {count p : Nat}
    (pos : 0 < count) (small : p < 2 ^ 63) :
    (aesdRead env count s p).retval = 0 ↔ (ring.map Prod.snd).flatten.length ≤ p := by
  have word : toSizeT p = p := toSizeT_natCast (by omega)
  have bound := h.records_lt
  unfold aesdRead aesdReadLocked
  simp only [lock, Bool.false_eq_true, if_false, word]
  rcases h.find p with ⟨j, stored, above, below, found, slot⟩ | ⟨past, found⟩
  · have stored' : j < (ring.map Prod.snd).length := by simpa using stored
    have last := start_le (ring.map Prod.snd) (j + 1)
    refine iff_of_false ?_ (by omega)
    rw [start_succ stored', List.getElem_map] at below last
    simp only [found, slot, Cell.entry]
    split
    · simp [efault]
    · rw [sizeSub_of_le (by omega) (by omega)]
      simp only
      rw [loffT_of_bounds (by omega) (by omega)]
      omega
  · simp only [found, past]

/-- Whatever writes came before: a seek succeeds exactly when its target lies in the device, whose end is
the sum over the slots, the total length of the records and the first position with nothing to read. -/
theorem seek_end_of_file (run : writer.run Driver.init calls = some s) (lock : env.interrupted = false)
    (fposLow : 0 ≤ fpos) (fposHigh : fpos < 2 ^ 63) (offLow : -(2 ^ 63) ≤ offSet) (offHigh : offSet < 2 ^ 63)
    (known : whence = seekSet ∨ whence = seekCur ∨ whence = seekEnd) :
    let total := s.records.flatten.length
    (aesdLlseek env offSet whence s fpos =
      if 0 ≤ seekTarget total offSet whence fpos ∧ seekTarget total offSet whence fpos ≤ total then
        (seekTarget total offSet whence fpos, seekTarget total offSet whence fpos)
      else (-einval, fpos)) ∧
    getBufferSize env s = total ∧
    ∀ (readEnv : CallEnv) (count : Nat), readEnv.interrupted = false → 0 < count →
      IsLeast {p : Nat | (aesdRead readEnv count s p).retval = 0} total := by
  obtain ⟨ring, pending, lost, layout, _⟩ := run_settled run
  intro total
  have same : total = (ring.map Prod.snd).flatten.length := congrArg (fun r => r.flatten.length) layout.records_eq
  have bound := layout.records_lt
  rw [same]
  refine ⟨layout.llseek lock fposLow fposHigh offLow offHigh known, layout.getBufferSize_eq lock, ?_⟩
  intro readEnv count readLock pos
  constructor
  · exact (layout.read_zero_iff readLock pos bound).mpr (Nat.le_refl _)
  · intro p empty
    by_cases small : p < 2 ^ 63
    · exact (layout.read_zero_iff readLock pos small).mp empty
    · omega

/-- A position beyond the end of the device and an offset that brings the sum past the last `loff_t`. -/
theorem seek_end_of_file_wraps :
    let calls : List WriteCall := [⟨{ kmallocAt := some 0 }, [97, newline], 0⟩]
    let s := (writer.run Driver.init calls).getD Driver.init
    aesdLlseek {} (2 ^ 63 - 1) seekCur s 3 = (-einval, 3) := by
  intro calls s
  have run : writer.run Driver.init calls = some s := rfl
  have lock : ({} : CallEnv).interrupted = false := rfl
  have far : (2 ^ 63 - 1 : Int) < 2 ^ 63 := by decide
  obtain ⟨seek, _, _⟩ := seek_end_of_file run lock (show (0 : Int) ≤ 3 by decide) (by decide) (by decide) far
    (Or.inr (Or.inl rfl))
  rw [seek]
  decide

end Aesd
