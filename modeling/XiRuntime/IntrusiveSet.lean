import Mathlib.Data.List.Nodup
import Mathlib.Order.Bounds.Defs
import Mathlib.Order.BoundedOrder.Lattice

namespace IntrusiveSet

variable {α κ : Type} [LinearOrder κ]

/-- An ordered set holds its elements in the order of a key that each of them carries,
and refuses an element with the key of one already there. -/
def insertUnique (key : α → κ) (a : α) : List α → List α
  | [] => [a]
  | x :: xs =>
    if key a < key x then a :: x :: xs
    else if key x < key a then x :: insertUnique key a xs
    else x :: xs

def Ordered (key : α → κ) (xs : List α) : Prop := xs.Pairwise (fun x y => key x < key y)

theorem ordered_cons {key : α → κ} {x : α} {xs : List α} :
    Ordered key (x :: xs) ↔ (∀ y ∈ xs, key x < key y) ∧ Ordered key xs := List.pairwise_cons

namespace Ordered

variable {key key' : α → κ} {xs ys : List α} {a : α}

theorem nodup (h : Ordered key xs) : xs.Nodup :=
  List.Pairwise.imp (fun hlt heq => absurd (congrArg key heq) (ne_of_lt hlt)) h

theorem congr (h : Ordered key xs) (same : ∀ x ∈ xs, key' x = key x) : Ordered key' xs := by
  refine List.Pairwise.imp_of_mem ?_ h
  intro x y hx hy hlt
  rw [same x hx, same y hy]
  exact hlt

theorem right (h : Ordered key (xs ++ ys)) : Ordered key ys := (List.pairwise_append.mp h).2.1

end Ordered

theorem insertUnique_of_tied {key : α → κ} {a : α} {xs : List α} (h : Ordered key xs)
    (tied : ∃ x ∈ xs, key x = key a) : insertUnique key a xs = xs := by
  induction xs with
  | nil => simp at tied
  | cons x xs ih =>
    obtain ⟨hx, hxs⟩ := ordered_cons.mp h
    obtain ⟨y, hy, heq⟩ := tied
    rcases List.mem_cons.mp hy with rfl | hy
    · simp [insertUnique, heq]
    · have hlt : key x < key a := heq ▸ hx y hy
      simp [insertUnique, hlt, hlt.le, ih hxs ⟨y, hy, heq⟩]

theorem insertUnique_perm {key : α → κ} {a : α} {xs : List α} (untied : ∀ x ∈ xs, key x ≠ key a) :
    (insertUnique key a xs).Perm (a :: xs) := by
  induction xs with
  | nil => exact List.Perm.refl _
  | cons x xs ih =>
    have perm := ih (fun y hy => untied y (List.mem_cons_of_mem x hy))
    unfold insertUnique
    split
    next => exact List.Perm.refl _
    next hge =>
      have hlt : key x < key a := lt_of_le_of_ne (le_of_not_gt hge) (untied x List.mem_cons_self)
      rw [if_pos hlt]
      exact (perm.cons x).trans (List.Perm.swap a x xs)

theorem insertUnique_subset {key : α → κ} {a : α} {xs : List α} :
    ∀ x ∈ insertUnique key a xs, x = a ∨ x ∈ xs := by
  induction xs with
  | nil => simp [insertUnique]
  | cons y xs ih =>
    intro x hx
    unfold insertUnique at hx
    split at hx
    next => exact List.mem_cons.mp hx
    next =>
      split at hx
      next =>
        rcases List.mem_cons.mp hx with rfl | hx
        · exact Or.inr List.mem_cons_self
        · exact (ih x hx).imp_right (List.mem_cons_of_mem y)
      next => exact Or.inr hx

theorem Ordered.insertUnique {key : α → κ} {a : α} {xs : List α} (h : Ordered key xs) :
    Ordered key (insertUnique key a xs) := by
  induction xs with
  | nil => exact List.pairwise_singleton _ a
  | cons x xs ih =>
    obtain ⟨hx, hxs⟩ := ordered_cons.mp h
    unfold IntrusiveSet.insertUnique
    split
    next hlt =>
      refine ordered_cons.mpr ⟨?_, h⟩
      intro y hy
      rcases List.mem_cons.mp hy with rfl | hy
      · exact hlt
      · exact lt_trans hlt (hx y hy)
    next =>
      split
      next hlt =>
        refine ordered_cons.mpr ⟨?_, ih hxs⟩
        intro y hy
        rcases insertUnique_subset y hy with rfl | hy
        · exact hlt
        · exact hx y hy
      next => exact h

variable [OrderTop κ]

/-- The key of the first element. -/
def least (key : α → κ) (xs : List α) : κ := (xs.head?.map key).getD ⊤

theorem least_congr {key key' : α → κ} {xs : List α} (same : ∀ x ∈ xs, key' x = key x) :
    least key' xs = least key xs := by
  cases xs with
  | nil => rfl
  | cons x xs => simp [least, same x List.mem_cons_self]

theorem least_insertUnique (key : α → κ) (a : α) (xs : List α) :
    least key (insertUnique key a xs) = min (key a) (least key xs) := by
  cases xs with
  | nil => simp [least, insertUnique]
  | cons x xs =>
    unfold insertUnique
    split
    next hlt => simp [least, hlt.le]
    next hge =>
      have hle : key x ≤ key a := le_of_not_gt hge
      split <;> simp [least, hle]

theorem Ordered.least_le {key : α → κ} {xs : List α} (h : Ordered key xs) :
    ∀ x ∈ xs, least key xs ≤ key x := by
  intro x hx
  cases xs with
  | nil => simp at hx
  | cons y xs =>
    rcases List.mem_cons.mp hx with rfl | hx
    · simp [least]
    · have hlt := (ordered_cons.mp h).1 x hx
      simpa [least] using hlt.le

theorem Ordered.isLeast {key : α → κ} {xs : List α} (h : Ordered key xs) (hne : xs ≠ []) :
    IsLeast {k | ∃ x ∈ xs, key x = k} (least key xs) := by
  obtain ⟨x, rest, rfl⟩ := List.exists_cons_of_ne_nil hne
  constructor
  · exact ⟨x, List.mem_cons_self, rfl⟩
  · rintro k ⟨y, hy, rfl⟩
    exact h.least_le y hy

end IntrusiveSet
