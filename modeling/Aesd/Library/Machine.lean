import Mathlib.Data.List.Basic
import Mathlib.Data.List.Induction

/-!
# Labelled machines

A partial step function, its finite runs, what a run shows on the way, and the
induction rules that turn a fact about one step into a fact about every run.
-/

namespace Library

structure Machine (σ ι : Type*) where
  step : σ → ι → Option σ

namespace Machine
variable {σ ι β : Type*} (m : Machine σ ι)

def run : σ → List ι → Option σ
  | s, [] => some s
  | s, i :: is => (m.step s i).bind fun t => run t is

/-- What `look` shows at each step of a run, in order. -/
def observe (look : σ → ι → List β) : σ → List ι → List β
  | _, [] => []
  | s, i :: is => look s i ++ (m.step s i).elim [] fun t => observe look t is

/-- `guard` holds at each step of a run, of the state before it and its label. -/
def Along (guard : σ → ι → Prop) : σ → List ι → Prop
  | _, [] => True
  | s, i :: is => guard s i ∧ ∀ t, m.step s i = some t → Along guard t is

instance decidableAlong (guard : σ → ι → Prop) [∀ s i, Decidable (guard s i)] :
    ∀ s is, Decidable (m.Along guard s is)
  | _, [] => isTrue trivial
  | s, i :: is =>
    match h : m.step s i with
    | none => decidable_of_iff (guard s i) (by simp [Along, h])
    | some t =>
      have := decidableAlong guard t is
      decidable_of_iff (guard s i ∧ m.Along guard t is) (by simp [Along, h])

variable {m} {s t u : σ} {i : ι} {is js ks : List ι} {look : σ → ι → List β} {guard : σ → ι → Prop}

@[simp] theorem run_nil : m.run s [] = some s := rfl

theorem run_cons : m.run s (i :: is) = some t ↔ ∃ u, m.step s i = some u ∧ m.run u is = some t := by
  simp [run, Option.bind_eq_some_iff]

theorem run_append : m.run s (is ++ js) = some t ↔ ∃ u, m.run s is = some u ∧ m.run u js = some t := by
  induction is generalizing s with
  | nil => simp
  | cons i is ih =>
    simp only [List.cons_append, run_cons, ih]
    constructor
    · intro h
      obtain ⟨v, hv, u, hu, ht⟩ := h
      exact ⟨u, ⟨v, hv, hu⟩, ht⟩
    · intro h
      obtain ⟨u, ⟨v, hv, hu⟩, ht⟩ := h
      exact ⟨v, hv, u, hu, ht⟩

theorem run_snoc : m.run s (is ++ [i]) = some t ↔ ∃ u, m.run s is = some u ∧ m.step u i = some t := by
  simp [run_append, run_cons]

theorem run_getD {l : List ι} (h : (m.run s l).isSome) (u : σ) : m.run s l = some ((m.run s l).getD u) := by
  obtain ⟨t, reached⟩ := Option.isSome_iff_exists.mp h
  rw [reached, Option.getD_some]

theorem observe_snoc (h : m.run s is = some t) :
    m.observe look s (is ++ [i]) = m.observe look s is ++ look t i := by
  induction is generalizing s with
  | nil =>
    obtain rfl : s = t := by simpa using h
    cases hs : m.step s i <;> simp [observe, hs]
  | cons j js ih =>
    obtain ⟨v, hv, h⟩ := run_cons.mp h
    simp only [List.cons_append, observe, hv, Option.elim_some, ih h, List.append_assoc]

theorem along_append (h : m.run s is = some t) :
    m.Along guard s (is ++ js) ↔ m.Along guard s is ∧ m.Along guard t js := by
  induction is generalizing s with
  | nil =>
    obtain rfl : s = t := by simpa using h
    simp [Along]
  | cons j is ih =>
    obtain ⟨v, hv, h⟩ := run_cons.mp h
    simp only [List.cons_append, Along, hv, Option.some.injEq, forall_eq', ih h, and_assoc]

theorem along_snoc (h : m.run s is = some t) :
    m.Along guard s (is ++ [i]) ↔ m.Along guard s is ∧ guard t i := by
  rw [along_append h]
  simp [Along]

theorem along_of_prefixes (h : ∀ is i js t, ks = is ++ i :: js → m.run s is = some t → guard t i) :
    m.Along guard s ks := by
  induction ks generalizing s with
  | nil => trivial
  | cons i js ih =>
    refine ⟨h [] i js s rfl rfl, fun t ht => ih fun is j ks u e hu => ?_⟩
    exact h (i :: is) j ks u (by rw [e, List.cons_append]) (run_cons.mpr ⟨t, ht, hu⟩)

theorem along_mono {weaker : σ → ι → Prop} (le : ∀ s i, guard s i → weaker s i)
    (h : m.Along guard s is) : m.Along weaker s is := by
  induction is generalizing s with
  | nil => trivial
  | cons i is ih => exact ⟨le _ _ h.1, fun t ht => ih (h.2 t ht)⟩

theorem along_and {other : σ → ι → Prop} :
    m.Along (fun s i => guard s i ∧ other s i) s is ↔ m.Along guard s is ∧ m.Along other s is := by
  induction is generalizing s with
  | nil => simp [Along]
  | cons i is ih =>
    simp only [Along, ih]
    constructor
    · intro h
      obtain ⟨⟨hg, ho⟩, next⟩ := h
      exact ⟨⟨hg, fun t ht => (next t ht).1⟩, ho, fun t ht => (next t ht).2⟩
    · intro h
      obtain ⟨⟨hg, next⟩, ho, other⟩ := h
      exact ⟨⟨hg, ho⟩, fun t ht => ⟨next t ht, other t ht⟩⟩

/-- Guards that agree wherever a run can be agree along it. -/
theorem along_congr {P : σ → Prop} {other : σ → ι → Prop} (agree : ∀ {t i}, P t → (guard t i ↔ other t i))
    (keeps : ∀ {t i u}, P t → m.step t i = some u → P u) (start : P s) :
    m.Along guard s is ↔ m.Along other s is := by
  induction is generalizing s with
  | nil => exact Iff.rfl
  | cons i is ih =>
    unfold Along
    rw [agree start]
    apply and_congr_right
    intro _
    apply forall_congr'
    intro t
    apply imp_congr_right
    intro step
    exact ih (keeps start step)

/-- The run rule: what holds before the first label and survives one guarded step, given the labels
so far, holds at the end of every guarded run. -/
theorem run_induction {P : List ι → σ → Prop} (start : P [] s)
    (next : ∀ {is t i u}, m.run s is = some t → P is t → guard t i → m.step t i = some u → P (is ++ [i]) u)
    (guarded : m.Along guard s is) (h : m.run s is = some t) : P is t := by
  induction is using List.reverseRecOn generalizing t with
  | nil =>
    obtain rfl : s = t := by simpa using h
    exact start
  | append_singleton is i ih =>
    obtain ⟨v, hv, hs⟩ := run_snoc.mp h
    obtain ⟨before, here⟩ := (along_snoc hv).mp guarded
    exact next hv (ih before hv) here hs

theorem run_invariant {P : σ → Prop} (keeps : ∀ {t i u}, P t → guard t i → m.step t i = some u → P u)
    (start : P s) (guarded : m.Along guard s is) (h : m.run s is = some t) : P t :=
  run_induction (P := fun _ => P) start (fun _ hp hg hs => keeps hp hg hs) guarded h

/-- The run rule for each state on the way. -/
theorem on_the_way {P : List ι → σ → Prop} (start : P [] s)
    (next : ∀ {is t i u}, m.run s is = some t → P is t → guard t i → m.step t i = some u → P (is ++ [i]) u)
    (guarded : m.Along guard s ks) : ∀ is js t, ks = is ++ js → m.run s is = some t → P is t := by
  intro is js t split reached
  rw [split, along_append reached] at guarded
  exact run_induction start next guarded.1 reached

theorem along_of_forall {p : ι → Prop} (h : ∀ i ∈ is, p i) : m.Along (fun _ i => p i) s is := by
  induction is generalizing s with
  | nil => trivial
  | cons i is ih =>
    exact ⟨h i List.mem_cons_self, fun _ _ => ih fun j inside => h j (List.mem_cons_of_mem i inside)⟩

theorem along_keeping {P : σ → Prop} (keeps : ∀ {t i u}, P t → guard t i → m.step t i = some u → P u) (start : P s)
    (guarded : m.Along guard s is) : m.Along (fun t i => P t ∧ guard t i) s is := by
  induction is generalizing s with
  | nil => trivial
  | cons i is ih => exact ⟨⟨start, guarded.1⟩, fun t step => ih (keeps start guarded.1 step) (guarded.2 t step)⟩

theorem along_true : m.Along (fun _ _ => True) s is := by
  induction is generalizing s with
  | nil => trivial
  | cons i is ih => exact ⟨trivial, fun _ _ => ih⟩

end Machine
end Library
