import Aesd.Library.Machine
import Mathlib.Algebra.Order.BigOperators.Group.Finset

/-!
# Programs that count down

A deterministic step function whose steps lower a rank, and the state in which it
stops. Steps taken one at a time, between those of others, lead where the whole
program leads. Of several threads that each count down, all together take no more
steps than their ranks add up to.
-/

namespace Library

structure Countdown (σ : Type*) where
  step : σ → Option σ
  rank : σ → Nat
  descends : ∀ {s t}, step s = some t → rank t < rank s

namespace Countdown
variable {σ : Type*} {c : Countdown σ} {s t : σ}

def final (c : Countdown σ) (s : σ) : σ :=
  match _h : c.step s with
  | none => s
  | some t => c.final t
termination_by c.rank s
decreasing_by exact c.descends _h

theorem final_stopped (h : c.step s = none) : c.final s = s := by
  rw [final]
  split
  · rfl
  · rename_i more
    rw [h] at more
    cases more

theorem final_step (h : c.step s = some t) : c.final s = c.final t := by
  rw [final]
  split
  · rename_i stopped
    rw [h] at stopped
    cases stopped
  · rename_i u more
    rw [Option.some.inj (h.symm.trans more)]

end Countdown

theorem Machine.length_le {σ ι : Type*} {m : Machine σ ι} {guard : σ → ι → Prop} {rank : σ → Nat} {s t : σ} {is : List ι}
    (lowers : ∀ {s i t}, guard s i → m.step s i = some t → rank t < rank s) (guarded : m.Along guard s is)
    (run : m.run s is = some t) : is.length + rank t ≤ rank s := by
  induction is generalizing s with
  | nil =>
    obtain rfl : s = t := by simpa using run
    simp
  | cons i is ih =>
    obtain ⟨u, step, later⟩ := run_cons.mp run
    have next := ih (guarded.2 u step) later
    have lower := lowers guarded.1 step
    rw [List.length_cons]
    omega

/-- The ranks of the first `n` threads. -/
def totalRank {σ : Type*} (rank : σ → Nat) (n : Nat) (threads : Nat → σ) : Nat :=
  ∑ t ∈ Finset.range n, rank (threads t)

theorem totalRank_update {σ : Type*} {rank : σ → Nat} {n t : Nat} {threads : Nat → σ} {x : σ} (inside : t < n)
    (lower : rank x < rank (threads t)) : totalRank rank n (Function.update threads t x) < totalRank rank n threads := by
  apply Finset.sum_lt_sum
  · intro u _
    by_cases same : u = t
    · rw [same, Function.update_self]
      exact Nat.le_of_lt lower
    · rw [Function.update_of_ne same]
  · exact ⟨t, Finset.mem_range.mpr inside, by rwa [Function.update_self]⟩

theorem totalRank_le {σ : Type*} {rank : σ → Nat} {n bound : Nat} {threads : Nat → σ}
    (each : ∀ t, rank (threads t) ≤ bound) :
    totalRank rank n threads ≤ bound * n := by
  induction n with
  | zero => simp [totalRank]
  | succ n ih =>
    have last := each n
    unfold totalRank at ih ⊢
    rw [Finset.sum_range_succ, Nat.mul_succ]
    omega

end Library
