import Mathlib.Data.List.Basic
import Mathlib.Logic.Function.Basic

namespace LinkChain

variable {α : Type} {next next' : α → Option α} {p : Option α} {x : α} {xs : List α}

/-- The nodes `xs` of a singly linked list that begins at a pointer and ends with a null. -/
def Chained (next : α → Option α) : Option α → List α → Prop
  | p, [] => p = none
  | p, x :: xs => p = some x ∧ Chained next (next x) xs

theorem Chained.congr (h : Chained next p xs) (same : ∀ x ∈ xs, next' x = next x) :
    Chained next' p xs := by
  induction xs generalizing p with
  | nil => exact h
  | cons x xs ih =>
    refine ⟨h.1, ?_⟩
    rw [same x List.mem_cons_self]
    exact ih h.2 (fun y hy => same y (List.mem_cons_of_mem x hy))

theorem Chained.eq_nil (h : Chained next none xs) : xs = [] := by
  cases xs with
  | nil => rfl
  | cons x xs => cases h.1

/-- The list behind its first node. -/
theorem Chained.tail (h : Chained next (some x) xs) : ∃ rest, xs = x :: rest ∧ Chained next (next x) rest := by
  cases xs with
  | nil => cases h
  | cons y ys =>
    obtain ⟨first, rest⟩ := h
    cases first
    exact ⟨ys, rfl, rest⟩

/-- A node that points to the first one goes in front of it. -/
theorem Chained.push (h : Chained next p xs) (link : next x = p) : Chained next (some x) (x :: xs) := by
  refine ⟨rfl, ?_⟩
  rw [link]
  exact h

variable [DecidableEq α]

/-- Writing into a node that is not in the list leaves the list alone. -/
theorem Chained.update (h : Chained next p xs) (away : x ∉ xs) (v : Option α) :
    Chained (Function.update next x v) p xs :=
  h.congr (fun _ hy => Function.update_of_ne (ne_of_mem_of_not_mem hy away) _ _)

end LinkChain
