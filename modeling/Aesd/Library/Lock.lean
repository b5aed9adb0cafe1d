import Mathlib.Logic.Function.Basic

/-!
# One lock, many threads

The lock names its owner, and a predicate on thread states says which threads
are between their acquire and their release. The lock is exclusive when the two
agree. Each kind of step keeps it so.
-/

namespace Library

variable {σ : Type*} {holds : σ → Prop} {threads : Nat → σ} {owner : Option Nat} {t u : Nat} {x : σ}

/-- Exactly the owner is between acquire and release. -/
def Exclusive (holds : σ → Prop) (owner : Option Nat) (threads : Nat → σ) : Prop :=
  ∀ t, holds (threads t) ↔ owner = some t

namespace Exclusive

theorem initial (outside : ∀ t, ¬ holds (threads t)) : Exclusive holds none threads :=
  fun t => ⟨fun h => (outside t h).elim, fun h => (Option.some_ne_none t h.symm).elim⟩

theorem unique (h : Exclusive holds owner threads) (ht : holds (threads t)) (hu : holds (threads u)) : t = u :=
  Option.some.inj (((h t).mp ht).symm.trans ((h u).mp hu))

theorem acquire (h : Exclusive holds none threads) (inside : holds x) :
    Exclusive holds (some t) (Function.update threads t x) := by
  intro v
  by_cases same : v = t
  · subst same; simp [inside]
  · rw [Function.update_of_ne same]
    constructor
    · intro hv
      exact (Option.some_ne_none v ((h v).mp hv).symm).elim
    · intro e
      exact (same (Option.some.inj e).symm).elim

theorem release (h : Exclusive holds owner threads) (held : holds (threads t)) (outside : ¬ holds x) :
    Exclusive holds none (Function.update threads t x) := by
  intro v
  by_cases same : v = t
  · subst same; simp [outside]
  · rw [Function.update_of_ne same]
    constructor
    · intro hv
      exact (same (h.unique hv held)).elim
    · intro e
      exact (Option.some_ne_none v e.symm).elim

theorem within (h : Exclusive holds owner threads) (same : holds x ↔ holds (threads t)) :
    Exclusive holds owner (Function.update threads t x) := by
  intro v
  by_cases e : v = t
  · subst e; rw [Function.update_self]; exact same.trans (h v)
  · rw [Function.update_of_ne e]; exact h v

end Exclusive
end Library
