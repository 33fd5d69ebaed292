import Mathlib.Data.List.Perm.Basic

/-- Objects are named by their slot, and a slot is emptied when its object goes away. -/
structure Slots (α : Type) where
  cells : List (Option α)
deriving DecidableEq, Repr

namespace Slots

variable {α β : Type}

def empty : Slots α := ⟨[]⟩

def get (l : Slots α) (i : Nat) : Option α := l.cells[i]?.join

def set (l : Slots α) (i : Nat) (x : Option α) : Slots α := ⟨l.cells.set i x⟩

/-- The next slot, and the slots with an object put there. -/
def next (l : Slots α) : Nat := l.cells.length

def add (l : Slots α) (x : α) : Slots α := ⟨l.cells ++ [some x]⟩

/-- What is found in all the objects. -/
def gather (f : α → List β) (l : Slots α) : List β := l.cells.flatMap (fun x => x.elim [] f)

theorem lt_next {l : Slots α} {i : Nat} {x : α} (h : l.get i = some x) : i < l.next := by
  unfold get at h
  by_contra beyond
  rw [List.getElem?_eq_none (Nat.le_of_not_lt beyond)] at h
  cases h

theorem get_set_same {l : Slots α} {i : Nat} {x : α} (h : l.get i = some x) (y : Option α) :
    (l.set i y).get i = y := by
  have bound := lt_next h
  unfold get set
  rw [List.getElem?_set_self bound]
  rfl

theorem get_set_ne (l : Slots α) {i j : Nat} (ne : i ≠ j) (y : Option α) :
    (l.set i y).get j = l.get j := by
  unfold get set
  rw [List.getElem?_set_ne ne]

theorem get_add_same (l : Slots α) (x : α) : (l.add x).get l.next = some x := by
  simp [get, add, next]

theorem get_add_ne (l : Slots α) (x : α) {j : Nat} (ne : j ≠ l.next) :
    (l.add x).get j = l.get j := by
  unfold get add
  simp only
  rcases Nat.lt_or_gt_of_ne ne with below | above
  · rw [List.getElem?_append_left below]
  · unfold next at above
    rw [List.getElem?_eq_none (by simp; omega), List.getElem?_eq_none (by omega)]

theorem get_next (l : Slots α) : l.get l.next = none := by
  simp [get, next]

/-- One slot and all the others. -/
theorem gather_set {l : Slots α} {i : Nat} {x : α} (f : α → List β) (h : l.get i = some x) :
    ∃ others, (l.gather f).Perm (f x ++ others) ∧
      ∀ y : Option α, ((l.set i y).gather f).Perm (y.elim [] f ++ others) := by
  have bound : i < l.cells.length := lt_next h
  have here : l.cells.get ⟨i, bound⟩ = some x := by
    unfold get at h
    rw [List.getElem?_eq_getElem bound, Option.join_some] at h
    exact h
  refine ⟨(l.cells.take i).flatMap (fun x => x.elim [] f) ++
    (l.cells.drop (i + 1)).flatMap (fun x => x.elim [] f), ?_, fun y => ?_⟩
  · have whole : l.cells = l.cells.take i ++ some x :: l.cells.drop (i + 1) := by
      rw [← here]
      simp
    unfold gather
    conv => lhs; rw [whole]
    rw [List.flatMap_append, List.flatMap_cons]
    exact List.perm_append_comm_assoc _ _ _
  · unfold gather set
    rw [List.set_eq_take_append_cons_drop, if_pos bound, List.flatMap_append, List.flatMap_cons]
    exact List.perm_append_comm_assoc _ _ _

theorem count_gather_set [DecidableEq β] {l : Slots α} {i : Nat} {x : α} (f : α → List β)
    (h : l.get i = some x) (y : Option α) (b : β) :
    ((l.set i y).gather f).count b + (f x).count b = (l.gather f).count b + (y.elim [] f).count b := by
  obtain ⟨others, perm, rest⟩ := gather_set f h
  rw [perm.count_eq, (rest y).count_eq, List.count_append, List.count_append]
  omega

theorem length_gather_set {l : Slots α} {i : Nat} {x : α} (f : α → List β)
    (h : l.get i = some x) (y : Option α) :
    ((l.set i y).gather f).length + (f x).length = (l.gather f).length + (y.elim [] f).length := by
  obtain ⟨others, perm, rest⟩ := gather_set f h
  rw [perm.length_eq, (rest y).length_eq, List.length_append, List.length_append]
  omega

theorem length_gather_le {f : α → List β} {k : Nat} (h : ∀ x, (f x).length ≤ k) (l : Slots α) :
    (l.gather f).length ≤ k * l.next := by
  obtain ⟨cells⟩ := l
  unfold gather next
  simp only
  induction cells with
  | nil => simp
  | cons c cells ih =>
    have first : (c.elim [] f).length ≤ k := by
      cases c with
      | none => exact Nat.zero_le k
      | some x => exact h x
    rw [List.flatMap_cons, List.length_append, List.length_cons, Nat.mul_succ]
    omega

theorem gather_add (f : α → List β) (l : Slots α) (x : α) :
    (l.add x).gather f = l.gather f ++ f x := by
  simp [gather, add]

theorem mem_gather {f : α → List β} {l : Slots α} {b : β} :
    b ∈ l.gather f ↔ ∃ i x, l.get i = some x ∧ b ∈ f x := by
  constructor
  · intro h
    obtain ⟨c, hc, hb⟩ := List.mem_flatMap.mp h
    cases c with
    | none => cases hb
    | some x =>
      obtain ⟨i, bound, at_i⟩ := List.getElem_of_mem hc
      refine ⟨i, x, ?_, hb⟩
      unfold get
      rw [List.getElem?_eq_getElem bound, at_i]
      rfl
  · rintro ⟨i, x, h, hb⟩
    obtain ⟨others, perm, -⟩ := gather_set f h
    exact perm.mem_iff.mpr (List.mem_append_left _ hb)

/-- Two slots that hold the same thing. -/
theorem two_le_count [DecidableEq β] {f : α → List β} {l : Slots α} {i j : Nat} {x y : α} {b : β}
    (ne : i ≠ j) (hi : l.get i = some x) (hj : l.get j = some y) (hx : b ∈ f x) (hy : b ∈ f y) :
    2 ≤ (l.gather f).count b := by
  obtain ⟨others, perm, rest⟩ := gather_set f hi
  have left : b ∈ (l.set i none).gather f := by
    refine mem_gather.mpr ⟨j, y, ?_, hy⟩
    rw [get_set_ne l ne]
    exact hj
  have there : b ∈ others := (rest none).mem_iff.mp left
  rw [perm.count_eq, List.count_append]
  have one := List.count_pos_iff.mpr hx
  have two := List.count_pos_iff.mpr there
  omega

end Slots
