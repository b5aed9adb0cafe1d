import Aesd.Library.Machine

/-!
# Simulation between machines

Each guarded step of one machine matched by the steps that another takes under
labels computed from it: one step, several or none. What is proved of each step
holds of every run: the abstract run exists, ends in a state that represents the
concrete one and shows the same.
-/

namespace Library

/-- A step of `m` is a run of `n` under the labels `translate` gives it, and shows the same. -/
structure Simulates {σ τ ι κ β : Type*} (m : Machine σ ι) (n : Machine τ κ) (guard : σ → ι → Prop)
    (represents : σ → τ → Prop) (translate : σ → ι → List κ) (seen : σ → ι → List β) (shown : τ → κ → List β) :
    Prop where
  step : ∀ {s t i s'}, represents s t → guard s i → m.step s i = some s' →
    ∃ t', n.run t (translate s i) = some t' ∧ represents s' t' ∧ seen s i = n.observe shown t (translate s i)

namespace Machine
variable {σ ι β : Type*} {m : Machine σ ι} {s t : σ} {is js : List ι} {look : σ → ι → List β}

theorem observe_append (h : m.run s is = some t) :
    m.observe look s (is ++ js) = m.observe look s is ++ m.observe look t js := by
  induction is generalizing s with
  | nil =>
    obtain rfl : s = t := by simpa using h
    rfl
  | cons i is ih =>
    obtain ⟨u, step, h⟩ := run_cons.mp h
    simp only [List.cons_append, observe, step, Option.elim_some, ih h, List.append_assoc]

theorem observe_silent (m : Machine σ ι) (s : σ) (is : List ι) : m.observe (fun _ _ => ([] : List β)) s is = [] := by
  induction is generalizing s with
  | nil => rfl
  | cons i is ih =>
    cases step : m.step s i with
    | none => simp only [observe, step, Option.elim_none, List.append_nil]
    | some t => simp only [observe, step, Option.elim_some, ih t, List.append_nil]

theorem observe_filter {p : ι → Prop} [DecidablePred p] (h : m.run s is = some t) :
    m.observe (fun _ i => if p i then [i] else []) s is = is.filter p := by
  induction is generalizing s with
  | nil => rfl
  | cons i is ih =>
    obtain ⟨u, step, later⟩ := run_cons.mp h
    simp only [observe, step, Option.elim_some, ih later]
    by_cases kept : p i
    · rw [if_pos kept, List.filter_cons_of_pos (by simpa using kept), List.singleton_append]
    · rw [if_neg kept, List.filter_cons_of_neg (by simpa using kept), List.nil_append]

end Machine

namespace Machine
variable {σ τ ι κ : Type*} {m : Machine σ ι} {n : Machine τ κ} {represents : σ → τ → Prop} {P : σ → Prop} {s s' : σ}
  {t : τ} {is : List ι}

/-- A simulation that lasts until `P`, the abstract labels left open. -/
theorem represented_until (stays : ∀ {s i s'}, P s → m.step s i = some s' → P s')
    (step : ∀ {s t i s'}, represents s t → m.step s i = some s' →
      P s' ∨ ∃ js t', n.run t js = some t' ∧ represents s' t')
    (start : represents s t) (run : m.run s is = some s') : P s' ∨ ∃ js t', n.run t js = some t' ∧ represents s' t' := by
  refine run_invariant (P := fun s' => P s' ∨ ∃ js t', n.run t js = some t' ∧ represents s' t') ?_ ?_ along_true run
  · rintro u i v (done | ⟨js, t', before, h⟩) _ moved
    · exact Or.inl (stays done moved)
    · rcases step h moved with done | ⟨more, t'', after, h'⟩
      · exact Or.inl done
      · exact Or.inr ⟨js ++ more, t'', run_append.mpr ⟨t', before, after⟩, h'⟩
  · exact Or.inr ⟨[], t, rfl, start⟩

end Machine

namespace Simulates
variable {σ τ ι κ β : Type*} {m : Machine σ ι} {n : Machine τ κ} {guard : σ → ι → Prop} {represents : σ → τ → Prop}
  {translate : σ → ι → List κ} {seen : σ → ι → List β} {shown : τ → κ → List β} {s s' : σ} {t : τ} {is : List ι}

theorem run (h : Simulates m n guard represents translate seen shown) (start : represents s t)
    (guarded : m.Along guard s is) (run : m.run s is = some s') :
    ∃ t', n.run t (m.observe translate s is) = some t' ∧ represents s' t' ∧
      m.observe seen s is = n.observe shown t (m.observe translate s is) := by
  induction is generalizing s t with
  | nil =>
    obtain rfl : s = s' := by simpa using run
    exact ⟨t, rfl, start, rfl⟩
  | cons i is ih =>
    obtain ⟨u, step, later⟩ := Machine.run_cons.mp run
    obtain ⟨v, taken, next, same⟩ := h.step start guarded.1 step
    obtain ⟨t', reached, done, rest⟩ := ih next (guarded.2 u step) later
    simp only [Machine.observe, step, Option.elim_some]
    exact ⟨t', Machine.run_append.mpr ⟨v, taken, reached⟩, done,
      by rw [Machine.observe_append taken, same, rest]⟩

end Simulates
end Library
