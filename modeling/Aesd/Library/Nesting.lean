import Mathlib.Data.List.Basic

/-!
# Resources taken and given back in order

A log of acquires and releases is nested when each release gives back what was
acquired last and is still held. Replaying it gives what is held at the end.
-/

namespace Library

inductive Use (α : Type*) where
  | acquire (a : α)
  | release (a : α)

variable {α : Type*} [DecidableEq α] {held : List α} {xs ys : List (Use α)}

/-- What is held after the log, last acquired first; `none` when a release is out of order. -/
def replay : List α → List (Use α) → Option (List α)
  | held, [] => some held
  | held, .acquire a :: rest => replay (a :: held) rest
  | [], .release _ :: _ => none
  | b :: held, .release a :: rest => if a = b then replay held rest else none

theorem replay_append (held : List α) (xs ys : List (Use α)) :
    replay held (xs ++ ys) = (replay held xs).bind fun kept => replay kept ys := by
  induction xs generalizing held with
  | nil => rfl
  | cons use xs ih =>
    cases use with
    | acquire a => exact ih (a :: held)
    | release a =>
      cases held with
      | nil => rfl
      | cons b held =>
        simp only [List.cons_append, replay]
        split
        · exact ih held
        · rfl

end Library
