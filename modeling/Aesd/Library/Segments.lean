import Mathlib.Algebra.BigOperators.Group.Finset.Basic
import Mathlib.Algebra.BigOperators.Intervals
import Mathlib.Data.List.GetD

/-!
# Segments laid end to end

Positions in a concatenation, and readers that deliver it piece by piece.
-/

namespace Library

variable {α : Type*}

def start (segments : List (List α)) (j : Nat) : Nat := (segments.take j).flatten.length

theorem start_succ {segments : List (List α)} {j : Nat} (h : j < segments.length) :
    start segments (j + 1) = start segments j + segments[j].length := by
  rw [start, List.take_succ_eq_append_getElem h, List.flatten_append, List.length_append]
  simp [start]

theorem start_le (segments : List (List α)) (j : Nat) : start segments j ≤ segments.flatten.length := by
  conv_rhs => rw [← List.take_append_drop j segments, List.flatten_append, List.length_append]
  exact Nat.le_add_right _ _

theorem start_eq_sum (segments : List (List α)) (j : Nat) :
    start segments j = ∑ i ∈ Finset.range j, (segments.getD i []).length := by
  induction j with
  | zero => simp [start]
  | succ j ih =>
    rw [Finset.sum_range_succ, ← ih]
    by_cases h : j < segments.length
    · rw [start_succ h, List.getD_eq_getElem _ _ h]
    · simp [start, List.take_of_length_le (Nat.le_of_not_lt h),
        List.take_of_length_le (Nat.le_succ_of_le (Nat.le_of_not_lt h)),
        List.getElem?_eq_none (Nat.le_of_not_lt h)]

theorem flatten_drop {segments : List (List α)} {j p : Nat} (h : j < segments.length)
    (above : start segments j ≤ p) (below : p ≤ start segments (j + 1)) :
    segments.flatten.drop p = segments[j].drop (p - start segments j) ++ (segments.drop (j + 1)).flatten := by
  rw [start_succ h] at below
  conv_lhs => rw [← List.take_append_drop j segments, List.flatten_append, List.drop_append]
  have before : (segments.take j).flatten.drop p = [] := List.drop_eq_nil_of_le above
  have split : (segments.drop j).flatten = segments[j] ++ (segments.drop (j + 1)).flatten := by
    rw [List.drop_eq_getElem_cons h, List.flatten_cons]
  rw [before, List.nil_append, split, show (segments.take j).flatten.length = start segments j from rfl,
    List.drop_append_of_le_length (by omega)]

theorem flatten_drop_start (segments : List (List α)) (j o : Nat) :
    segments.flatten.drop (start segments j + o) = (segments.drop j).flatten.drop o := by
  have split : segments.flatten = (segments.take j).flatten ++ (segments.drop j).flatten := by
    rw [← List.flatten_append, List.take_append_drop]
  rw [split, start, ← List.drop_drop, List.drop_left]

theorem flatMap_length_le {ι : Type*} {part whole : ι → List α} {xs : List ι} (le : ∀ x ∈ xs, part x <+: whole x) :
    (xs.flatMap part).length ≤ (xs.flatMap whole).length := by
  induction xs with
  | nil => exact Nat.le_refl 0
  | cons x xs ih =>
    rw [List.forall_mem_cons] at le
    rw [List.flatMap_cons, List.flatMap_cons, List.length_append, List.length_append]
    exact Nat.add_le_add le.1.length_le (ih le.2)

/-- Parts taken from the front of each piece add up to the pieces only if each is whole. -/
theorem flatMap_whole_iff {ι : Type*} {part whole : ι → List α} {xs : List ι} (le : ∀ x ∈ xs, part x <+: whole x) :
    xs.flatMap part = xs.flatMap whole ↔ ∀ x ∈ xs, part x = whole x := by
  induction xs with
  | nil => simp
  | cons x xs ih =>
    rw [List.forall_mem_cons] at le
    obtain ⟨here, later⟩ := le
    rw [List.flatMap_cons, List.flatMap_cons, List.forall_mem_cons, ← ih later]
    constructor
    · intro same
      have lengths := congrArg List.length same
      rw [List.length_append, List.length_append] at lengths
      have first := here.length_le
      have rest := flatMap_length_le later
      exact List.append_inj same (by omega)
    · intro both
      rw [both.1, both.2]

/-! ### Groups -/

/-- The list cut after each value that ends a group. -/
structure Grouped (ends : α → Prop) (xs : List α) (groups : List (List α)) (rest : List α) : Prop where
  split : xs = groups.flatten ++ rest
  closed : ∀ group ∈ groups, ∃ body last, group = body ++ [last] ∧ ends last ∧ ∀ x ∈ body, ¬ ends x
  opened : ∀ x ∈ rest, ¬ ends x

section
variable {ends : α → Prop} {xs rest : List α} {groups : List (List α)} {x : α}

theorem Grouped.nil (ends : α → Prop) : Grouped ends [] [] [] := ⟨rfl, by simp, by simp⟩

theorem Grouped.close (h : Grouped ends xs groups rest) (last : ends x) :
    Grouped ends (xs ++ [x]) (groups ++ [rest ++ [x]]) [] := by
  refine ⟨by simp [h.split], ?_, by simp⟩
  intro group member
  rcases List.mem_append.mp member with old | new
  · exact h.closed group old
  · obtain rfl := List.mem_singleton.mp new
    exact ⟨rest, x, rfl, last, h.opened⟩

theorem Grouped.extend (h : Grouped ends xs groups rest) (more : ¬ ends x) :
    Grouped ends (xs ++ [x]) groups (rest ++ [x]) := by
  refine ⟨by simp [h.split], h.closed, ?_⟩
  intro y member
  rcases List.mem_append.mp member with old | new
  · exact h.opened y old
  · obtain rfl := List.mem_singleton.mp new
    exact more

end

/-! ### Readers -/

/-- A reader of `source`: its `i`-th call, at position `p`, delivers a piece of what is left from `p`,
and nothing only when nothing is left. Positions go up to `limit`. -/
structure Reads (source : List α) (limit : Nat) (read : Nat → Nat → List α) : Prop where
  fits : source.length ≤ limit
  piece : ∀ i p, p ≤ limit → read i p <+: source.drop p
  last : ∀ i p, p ≤ limit → read i p = [] → source.length ≤ p

def position (read : Nat → Nat → List α) (p : Nat) : Nat → Nat
  | 0 => p
  | i + 1 => position read p i + (read i (position read p i)).length

section
variable {source : List α} {limit : Nat} {read : Nat → Nat → List α} {p : Nat}

theorem Reads.position_le (h : Reads source limit read) (inside : p ≤ limit) (i : Nat) :
    position read p i ≤ limit := by
  induction i with
  | zero => exact inside
  | succ i ih =>
    have short := (h.piece i _ ih).length_le
    rw [List.length_drop] at short
    have := h.fits
    simp only [position]
    omega

theorem Reads.split (h : Reads source limit read) (inside : p ≤ limit) (i : Nat) :
    ((List.range i).flatMap fun k => read k (position read p k)) ++ source.drop (position read p i) =
      source.drop p := by
  induction i with
  | zero => simp [position]
  | succ i ih =>
    obtain ⟨rest, split⟩ := h.piece i _ (h.position_le inside i)
    rw [List.range_succ, List.flatMap_append, List.append_assoc, ← ih]
    congr 1
    rw [position, ← List.drop_drop, ← split]
    simp

theorem Reads.ends (h : Reads source limit read) (inside : p ≤ limit) :
    ∃ i, read i (position read p i) = [] := by
  by_contra more
  push Not at more
  have grows : ∀ i, p + i ≤ position read p i := by
    intro i
    induction i with
    | zero => exact Nat.le_refl _
    | succ i ih =>
      have := List.length_pos_iff.mpr (more i)
      simp only [position]
      omega
  have piece := h.piece source.length _ (h.position_le inside source.length)
  rw [List.drop_eq_nil_of_le (by have := grows source.length; omega)] at piece
  exact more source.length (List.prefix_nil.mp piece)

theorem Reads.drains (h : Reads source limit read) (inside : p ≤ limit) :
    ∃ m, read m (position read p m) = [] ∧ (∀ i < m, read i (position read p i) ≠ []) ∧
      ((List.range m).flatMap fun i => read i (position read p i)) = source.drop p := by
  classical
  have ends := h.ends inside
  have empty := Nat.find_spec ends
  refine ⟨Nat.find ends, empty, fun i before => Nat.find_min ends before, ?_⟩
  have split := h.split inside (Nat.find ends)
  have done := h.last _ _ (h.position_le inside _) empty
  rwa [List.drop_eq_nil_of_le done, List.append_nil] at split

end

end Library
