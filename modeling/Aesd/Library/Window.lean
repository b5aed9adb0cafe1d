import Mathlib.Algebra.BigOperators.Group.Finset.Basic
import Mathlib.Algebra.BigOperators.Intervals
import Mathlib.Data.Int.ModEq
import Mathlib.Data.List.DropRight
import Mathlib.Logic.Function.Basic

/-!
# Windows of a cyclic array

A cyclic array of `cap` cells read from `head` on, and the bounded queue that
keeps the last `cap` pushed values. Pushing into the cyclic array is pushing into
the queue.
-/

namespace Library

variable {α : Type*}

/-- The `n` cells from `head` on, in cyclic order. -/
def window (cells : Nat → α) (cap head n : Nat) : List α :=
  (List.range n).map fun j => cells ((head + j) % cap)

@[simp] theorem window_length (cells : Nat → α) (cap head n : Nat) :
    (window cells cap head n).length = n := by
  simp [window]

theorem window_getElem {cells : Nat → α} {cap head n j : Nat} (h : j < (window cells cap head n).length) :
    (window cells cap head n)[j] = cells ((head + j) % cap) := by
  simp [window]

theorem window_congr {cells other : Nat → α} {cap head n : Nat}
    (same : ∀ j < n, cells ((head + j) % cap) = other ((head + j) % cap)) :
    window cells cap head n = window other cap head n :=
  List.map_congr_left fun j hj => same j (List.mem_range.mp hj)

theorem window_succ (cells : Nat → α) (cap head n : Nat) :
    window cells cap head (n + 1) = window cells cap head n ++ [cells ((head + n) % cap)] := by
  simp [window, List.range_succ]

theorem window_cons (cells : Nat → α) (cap head n : Nat) (inside : head < cap) :
    window cells cap head (n + 1) = cells head :: window cells cap ((head + 1) % cap) n := by
  apply List.ext_getElem (by simp)
  intro j _ _
  cases j with
  | zero => simp [window, Nat.mod_eq_of_lt inside]
  | succ j =>
    rw [window_getElem, List.getElem_cons_succ, window_getElem, Nat.mod_add_mod,
      show head + (j + 1) = head + 1 + j by omega]

theorem cell_ne (cap head : Nat) {i j : Nat} (hi : i < j) (hj : j < i + cap) :
    (head + i) % cap ≠ (head + j) % cap := by
  intro same
  have divides : cap ∣ (head + j) - (head + i) := (Nat.modEq_iff_dvd' (by omega)).mp same
  have := Nat.le_of_dvd (by omega) divides
  omega

/-- A whole turn passes the same cells from wherever it starts. -/
theorem window_perm (cells : Nat → α) (cap head : Nat) (inside : head < cap) :
    (window cells cap head cap).Perm (window cells cap 0 cap) := by
  induction head with
  | zero => exact List.Perm.refl _
  | succ head ih =>
    refine List.Perm.trans ?_ (ih (by omega))
    obtain ⟨n, rfl⟩ : ∃ n, cap = n + 1 := ⟨cap - 1, by omega⟩
    rw [window_cons cells _ head _ (by omega), Nat.mod_eq_of_lt inside, window_succ]
    have last : (head + 1 + n) % (n + 1) = head := by
      rw [show head + 1 + n = head + (n + 1) by omega, Nat.add_mod_right, Nat.mod_eq_of_lt (by omega)]
    rw [last]
    exact List.perm_append_singleton _ _

theorem sum_turn (cells : Nat → Nat) (cap head : Nat) :
    ∑ i ∈ Finset.range cap, cells ((i + head) % cap) = ∑ i ∈ Finset.range cap, cells i := by
  induction head with
  | zero =>
    apply Finset.sum_congr rfl
    intro i inside
    rw [Nat.add_zero, Nat.mod_eq_of_lt (Finset.mem_range.mp inside)]
  | succ head ih =>
    have first := Finset.sum_range_succ' (fun i => cells ((i + head) % cap)) cap
    rw [Finset.sum_range_succ, Nat.add_mod_left, Nat.zero_add, Nat.add_right_cancel_iff] at first
    rw [← ih, first]
    exact Finset.sum_congr rfl fun i _ => by rw [Nat.add_right_comm, Nat.add_assoc]

theorem window_push {cells : Nat → α} {cap head n : Nat} (room : n < cap) (x : α) :
    window (Function.update cells ((head + n) % cap) x) cap head (n + 1) = window cells cap head n ++ [x] := by
  rw [window_succ, Function.update_self]
  congr 1
  apply window_congr
  intro j hj
  rw [Function.update_of_ne (cell_ne cap head hj (by omega))]

/-- Storing over the oldest cell of a full window and stepping past it drops the oldest value. -/
theorem window_evict {cells : Nat → α} {cap head : Nat} (inside : head < cap) (x : α) :
    window (Function.update cells head x) cap ((head + 1) % cap) cap = (window cells cap head cap).tail ++ [x] := by
  obtain ⟨n, rfl⟩ : ∃ n, cap = n + 1 := ⟨cap - 1, by omega⟩
  rw [window_cons cells _ _ _ inside, List.tail_cons, window_succ]
  have last : ((head + 1) % (n + 1) + n) % (n + 1) = head := by
    rw [Nat.mod_add_mod, show head + 1 + n = head + (n + 1) by omega, Nat.add_mod_right,
      Nat.mod_eq_of_lt inside]
  rw [last, Function.update_self]
  congr 1
  apply window_congr
  intro j hj
  have other : ((head + 1) % (n + 1) + j) % (n + 1) ≠ head := by
    rw [Nat.mod_add_mod, show head + 1 + j = head + (1 + j) by omega]
    intro same
    exact cell_ne (n + 1) head (i := 0) (j := 1 + j) (by omega) (by omega)
      (by rw [same, Nat.add_zero, Nat.mod_eq_of_lt inside])
  rw [Function.update_of_ne other]

/-! ### The bounded queue -/

theorem rtake_of_length_le {xs : List α} {n : Nat} (h : xs.length ≤ n) : xs.rtake n = xs := by
  simp [List.rtake, Nat.sub_eq_zero_of_le h]

theorem length_rtake (xs : List α) (n : Nat) : (xs.rtake n).length = min n xs.length := by
  simp only [List.rtake, List.length_drop]
  omega

theorem rtake_push_room {xs : List α} {n : Nat} (h : xs.length < n) (x : α) :
    (xs ++ [x]).rtake n = xs ++ [x] :=
  rtake_of_length_le (by simp; omega)

theorem rtake_push_full {xs : List α} {n : Nat} (full : xs.length = n) (pos : 0 < n) (x : α) :
    (xs ++ [x]).rtake n = xs.tail ++ [x] := by
  subst full
  rw [List.rtake, List.length_append, List.length_singleton, Nat.add_sub_cancel_left,
    List.drop_append_of_le_length (by omega), List.drop_one]

theorem rtake_push_rtake (xs : List α) (n : Nat) (x : α) :
    (xs.rtake n ++ [x]).rtake n = (xs ++ [x]).rtake n := by
  cases n with
  | zero => simp
  | succ n =>
    rw [List.rtake_concat_succ, List.rtake_concat_succ]
    congr 1
    simp only [List.rtake, List.length_drop, List.drop_drop]
    congr 1
    omega

/-- A push drops from the queue what was at the front of a full one. -/
theorem mem_rdrop_push {xs : List α} {n : Nat} (pos : 0 < n) {x y : α} :
    y ∈ (xs ++ [x]).rdrop n ↔ y ∈ xs.rdrop n ∨ n ≤ xs.length ∧ y ∈ (xs.rtake n).head? := by
  unfold List.rdrop List.rtake
  by_cases full : n ≤ xs.length
  · have next : (xs ++ [x]).length - n = xs.length - n + 1 := by
      rw [List.length_append, List.length_singleton]
      omega
    rw [next, List.take_append_of_le_length (by omega), List.take_add_one, List.mem_append, List.head?_drop]
    simp [full]
  · have none' : (xs ++ [x]).length - n = 0 := by
      rw [List.length_append, List.length_singleton]
      omega
    rw [none', Nat.sub_eq_zero_of_le (by omega)]
    simp [full]

theorem mem_of_mem_rtake {xs : List α} {n : Nat} {x : α} (h : x ∈ xs.rtake n) : x ∈ xs :=
  List.mem_of_mem_drop h

end Library
