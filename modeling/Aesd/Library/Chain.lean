import Mathlib.Data.List.Basic
import Mathlib.Logic.Function.Basic

/-!
# Linked lists in memory

Nodes by address, each with a value and a pointer to the next one. A segment is
the list of the cells between two pointers, a chain one that ends at NULL. The
rules say which chain is left when a node is pushed, taken out or freed.
-/

namespace Library

variable {α : Type*}

structure Node (α : Type*) where
  value : α
  next : Option Nat

/-- The allocated nodes, by address. -/
abbrev Nodes (α : Type*) := Nat → Option (Node α)

inductive Segment (nodes : Nodes α) (last : Option Nat) : Option Nat → List (Nat × α) → Prop where
  | nil : Segment nodes last last []
  | cons {a : Nat} {v : α} {next : Option Nat} {cells : List (Nat × α)} (here : nodes a = some ⟨v, next⟩)
      (rest : Segment nodes last next cells) : Segment nodes last (some a) ((a, v) :: cells)

abbrev Chain (nodes : Nodes α) (head : Option Nat) (cells : List (Nat × α)) : Prop := Segment nodes none head cells

def setNext (nodes : Nodes α) (a : Nat) (next : Option Nat) : Nodes α :=
  Function.update nodes a ((nodes a).map fun node => { node with next })

def free (nodes : Nodes α) (a : Nat) : Nodes α := Function.update nodes a none

variable {nodes other : Nodes α} {head last middle next : Option Nat} {cells front back : List (Nat × α)} {a b : Nat}
  {v w : α}

@[simp] theorem free_self : free nodes a a = none := by simp [free]

theorem free_of_ne (apart : b ≠ a) : free nodes a b = nodes b := by simp [free, apart]

theorem setNext_of_ne (apart : b ≠ a) : setNext nodes a next b = nodes b := by simp [setNext, apart]

theorem setNext_self (live : nodes a = some ⟨v, last⟩) : setNext nodes a next a = some ⟨v, next⟩ := by
  simp [setNext, live]

theorem setNext_eq_none : setNext nodes a next b = none ↔ nodes b = none := by
  by_cases same : b = a
  · subst same
    simp [setNext]
  · rw [setNext_of_ne same]

/-! ### Segments -/

theorem Segment.frame (h : Segment nodes last head cells) (same : ∀ cell ∈ cells, other cell.1 = nodes cell.1) :
    Segment other last head cells := by
  induction h with
  | nil => exact .nil
  | cons here rest ih =>
    refine .cons ?_ (ih fun cell inside => same cell (List.mem_cons_of_mem _ inside))
    rw [same _ List.mem_cons_self]
    exact here

theorem segment_append : Segment nodes last head (front ++ back) ↔
    ∃ middle, Segment nodes middle head front ∧ Segment nodes last middle back := by
  induction front generalizing head with
  | nil =>
    constructor
    · intro h
      exact ⟨head, .nil, h⟩
    · intro h
      obtain ⟨middle, first, second⟩ := h
      cases first
      exact second
  | cons cell front ih =>
    constructor
    · intro h
      cases h with
      | cons here rest =>
        obtain ⟨middle, first, second⟩ := ih.mp rest
        exact ⟨middle, .cons here first, second⟩
    · intro h
      obtain ⟨middle, first, second⟩ := h
      cases first with
      | cons here rest => exact .cons here (ih.mpr ⟨middle, rest, second⟩)

/-! ### Chains -/

theorem chain_nil : Chain nodes none cells ↔ cells = [] := by
  constructor
  · intro h
    cases h
    rfl
  · intro h
    rw [h]
    exact .nil

theorem chain_some (h : Chain nodes (some a) cells) :
    ∃ v next rest, cells = (a, v) :: rest ∧ nodes a = some ⟨v, next⟩ ∧ Chain nodes next rest := by
  cases h with
  | cons here rest => exact ⟨_, _, _, rfl, here, rest⟩

theorem chain_head (h : Chain nodes head ((a, v) :: cells)) : head = some a := by
  cases h
  rfl

theorem Segment.live (h : Segment nodes last head cells) (inside : (a, v) ∈ cells) : ∃ next, nodes a = some ⟨v, next⟩ := by
  obtain ⟨front, back, rfl⟩ := List.append_of_mem inside
  obtain ⟨middle, _, second⟩ := segment_append.mp h
  cases second with
  | cons here rest => exact ⟨_, here⟩

/-- Memory determines the list behind a pointer. -/
theorem chain_unique (h : Chain nodes head cells) (other : Chain nodes head front) : cells = front := by
  induction h generalizing front with
  | nil => exact (chain_nil.mp other).symm
  | cons here rest ih =>
    obtain ⟨w, next, back, rfl, same, tail⟩ := chain_some other
    rw [here] at same
    obtain ⟨rfl, rfl⟩ := Node.mk.inj (Option.some.inj same)
    rw [ih tail]

/-- A chain that came back to one of its nodes would never end. -/
theorem chain_nodup (h : Chain nodes head cells) : (cells.map Prod.fst).Nodup := by
  induction h with
  | nil => exact List.nodup_nil
  | @cons a v next cells here rest ih =>
    rw [List.map_cons, List.nodup_cons]
    refine ⟨?_, ih⟩
    intro again
    obtain ⟨cell, inside, same⟩ := List.mem_map.mp again
    obtain ⟨front, back, rfl⟩ := List.append_of_mem inside
    obtain ⟨middle, _, second⟩ := segment_append.mp rest
    obtain ⟨b, w⟩ := cell
    obtain rfl : b = a := same
    have whole : Chain nodes (some b) ((b, v) :: (front ++ (b, w) :: back)) := .cons here rest
    cases second with
    | cons here' rest' =>
      have short : Chain nodes (some b) ((b, w) :: back) := .cons here' rest'
      have lengths := congrArg List.length (chain_unique whole short)
      simp at lengths
      omega

theorem chain_push (h : Chain nodes head cells) (dead : nodes a = none) (v : α) :
    Chain (Function.update nodes a (some ⟨v, head⟩)) (some a) ((a, v) :: cells) := by
  refine .cons (by simp) (h.frame ?_)
  intro cell inside
  obtain ⟨next, live⟩ := h.live (v := cell.2) inside
  apply Function.update_of_ne
  intro same
  rw [same, dead] at live
  cases live

/-- Freeing the first node leaves the rest. -/
theorem chain_free (h : Chain nodes (some a) ((a, v) :: cells)) :
    ∃ next, nodes a = some ⟨v, next⟩ ∧ Chain (free nodes a) next cells := by
  have distinct := chain_nodup h
  rw [List.map_cons, List.nodup_cons] at distinct
  cases h with
  | cons here rest =>
    refine ⟨_, here, rest.frame ?_⟩
    intro cell inside
    apply free_of_ne
    intro same
    exact distinct.1 (List.mem_map.mpr ⟨cell, inside, same⟩)

/-- The node before takes over the pointer of the one that goes. -/
theorem chain_unlink (h : Chain nodes head (front ++ (b, w) :: (a, v) :: back)) :
    ∃ next, nodes a = some ⟨v, next⟩ ∧ Chain (free (setNext nodes b next) a) head (front ++ (b, w) :: back) := by
  have distinct := chain_nodup h
  simp only [List.map_append, List.map_cons] at distinct
  obtain ⟨_, tail, apart⟩ := List.nodup_append.mp distinct
  rw [List.nodup_cons, List.nodup_cons] at tail
  obtain ⟨notB, notA, _⟩ := tail
  obtain ⟨middle, first, second⟩ := segment_append.mp h
  cases second with
  | cons hereB rest =>
    cases rest with
    | @cons _ _ next _ hereA rest =>
      have ba : b ≠ a := fun same => notB (by simp [same])
      have frame (cell : Nat × α) (notFirst : cell.1 ≠ a) (notSecond : cell.1 ≠ b) :
          free (setNext nodes b next) a cell.1 = nodes cell.1 := by
        rw [free_of_ne notFirst, setNext_of_ne notSecond]
      refine ⟨next, hereA, segment_append.mpr ⟨some b, first.frame ?_, .cons ?_ (rest.frame ?_)⟩⟩
      · intro cell inside
        have member := List.mem_map_of_mem (f := Prod.fst) inside
        exact frame cell (fun same => apart _ member a (by simp) same) fun same => apart _ member b (by simp) same
      · rw [free_of_ne ba, setNext_self hereB]
      · intro cell inside
        have member := List.mem_map_of_mem (f := Prod.fst) inside
        exact frame cell (fun same => notA (same ▸ member)) fun same => notB (List.mem_cons_of_mem _ (same ▸ member))

end Library
