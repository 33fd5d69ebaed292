import Mathlib.Data.List.Nodup
import Mathlib.Logic.Function.Basic

/-- The two neighbours of a node in a list that is threaded through its nodes. -/
structure Link (α : Type) where
  prev : α
  next : α
deriving DecidableEq, Repr

namespace LinkRing

variable {α : Type}

/-- Consecutive nodes are linked both ways. -/
def Linked (l : α → Link α) : List α → Prop
  | x :: y :: rest => (l x).next = y ∧ (l y).prev = x ∧ Linked l (y :: rest)
  | _ => True

/-- The nodes `xs` in a circle that is closed by `s`. -/
structure Ring (l : α → Link α) (s : α) (xs : List α) : Prop where
  linked : Linked l (s :: (xs ++ [s]))
  nodup : (s :: xs).Nodup

theorem linked_append {l : α → Link α} {x : α} {xs ys : List α} :
    Linked l (xs ++ x :: ys) ↔ Linked l (xs ++ [x]) ∧ Linked l (x :: ys) := by
  induction xs with
  | nil => simp [Linked]
  | cons a xs ih =>
    cases xs with
    | nil => simp [Linked, and_assoc]
    | cons b xs =>
      simp only [List.cons_append, Linked] at ih ⊢
      rw [ih]
      simp only [and_assoc]

/-- The first node's `prev` and the last one's `next` are not part of it. -/
theorem Linked.congr {l l' : α → Link α} {xs : List α} (h : Linked l xs)
    (next : ∀ x ∈ xs.dropLast, (l' x).next = (l x).next)
    (prev : ∀ x ∈ xs.tail, (l' x).prev = (l x).prev) : Linked l' xs := by
  induction xs with
  | nil => trivial
  | cons x xs ih =>
    cases xs with
    | nil => trivial
    | cons y rest =>
      obtain ⟨after, before, tail⟩ := h
      refine ⟨(next x ?_).trans after, (prev y List.mem_cons_self).trans before, ih tail ?_ ?_⟩
      · simp
      · intro z hz
        exact next z (by simpa using Or.inr hz)
      · intro z hz
        exact prev z (List.mem_cons_of_mem y hz)

theorem Ring.congr {l l' : α → Link α} {s : α} {xs : List α} (h : Ring l s xs)
    (same : ∀ x ∈ s :: xs, l' x = l x) : Ring l' s xs := by
  refine ⟨h.linked.congr ?_ ?_, h.nodup⟩
  · intro x hx
    rw [← List.cons_append, List.dropLast_concat] at hx
    rw [same x hx]
  · intro x hx
    have mem : x ∈ s :: xs := by
      rcases List.mem_append.mp hx with hx | hx
      · exact List.mem_cons_of_mem s hx
      · rw [List.mem_singleton.mp hx]
        exact List.mem_cons_self
    rw [same x mem]

theorem ring_nil {l : α → Link α} {s : α} (next : (l s).next = s) (prev : (l s).prev = s) :
    Ring l s [] := ⟨⟨next, prev, trivial⟩, List.nodup_singleton s⟩

theorem Ring.next_head {l : α → Link α} {s : α} {xs : List α} (h : Ring l s xs) :
    (l s).next = xs.headD s := by
  have linked := h.linked
  cases xs with
  | nil => exact linked.1
  | cons x xs => exact linked.1

/-- The neighbours of a node in a ring. -/
theorem Ring.neighbours {l : α → Link α} {s x : α} {xs ys : List α} (h : Ring l s (xs ++ x :: ys)) :
    (l x).prev = (s :: xs).getLast (List.cons_ne_nil s xs) ∧ (l x).next = ys.headD s := by
  have linked := h.linked
  have front : s :: (xs ++ x :: ys ++ [s]) = (s :: xs) ++ x :: (ys ++ [s]) := by simp
  rw [front, linked_append] at linked
  obtain ⟨before, behind⟩ := linked
  constructor
  · rw [← List.dropLast_append_getLast (List.cons_ne_nil s xs), List.append_assoc,
      List.singleton_append, linked_append] at before
    exact before.2.2.1
  · cases ys with
    | nil => exact behind.1
    | cons y ys => exact behind.1

variable [DecidableEq α]

def setPrev (l : α → Link α) (x p : α) : α → Link α := Function.update l x ⟨p, (l x).next⟩

def setNext (l : α → Link α) (x n : α) : α → Link α := Function.update l x ⟨(l x).prev, n⟩

@[simp] theorem setPrev_next (l : α → Link α) (x p y : α) : (setPrev l x p y).next = (l y).next := by
  unfold setPrev
  by_cases same : y = x
  · subst same
    rw [Function.update_self]
  · rw [Function.update_of_ne same]

@[simp] theorem setNext_prev (l : α → Link α) (x n y : α) : (setNext l x n y).prev = (l y).prev := by
  unfold setNext
  by_cases same : y = x
  · subst same
    rw [Function.update_self]
  · rw [Function.update_of_ne same]

theorem setPrev_prev (l : α → Link α) (x p y : α) :
    (setPrev l x p y).prev = if y = x then p else (l y).prev := by
  unfold setPrev
  split
  next same => rw [same, Function.update_self]
  next other => rw [Function.update_of_ne other]

theorem setNext_next (l : α → Link α) (x n y : α) :
    (setNext l x n y).next = if y = x then n else (l y).next := by
  unfold setNext
  split
  next same => rw [same, Function.update_self]
  next other => rw [Function.update_of_ne other]

/-- The neighbours of a node are linked to each other. -/
def unlink (l : α → Link α) (x : α) : α → Link α :=
  setNext (setPrev l (l x).next (l x).prev) (l x).prev (l x).next

/-- A node is put behind `s`. -/
def linkBehind (l : α → Link α) (s x : α) : α → Link α :=
  setNext (Function.update (setPrev l (l s).next x) x ⟨s, (l s).next⟩) s x

theorem linkPair_next (l : α → Link α) (a b y : α) :
    (setNext (setPrev l b a) a b y).next = if y = a then b else (l y).next := by
  rw [setNext_next, setPrev_next]

theorem linkPair_prev (l : α → Link α) (a b y : α) :
    (setNext (setPrev l b a) a b y).prev = if y = b then a else (l y).prev := by
  rw [setNext_prev, setPrev_prev]

/-- Two linked parts are joined by linking the nodes between them. -/
theorem Linked.join {l : α → Link α} {a b : α} {front back : List α}
    (before : Linked l (front ++ [a])) (behind : Linked l (b :: back))
    (aFront : a ∉ front) (aBack : a ∉ (b :: back).dropLast) (bFront : b ∉ (front ++ [a]).tail)
    (bBack : b ∉ back) : Linked (setNext (setPrev l b a) a b) (front ++ a :: b :: back) := by
  rw [linked_append]
  refine ⟨before.congr ?_ ?_, ?_, ?_, behind.congr ?_ ?_⟩
  · intro y hy
    rw [List.dropLast_concat] at hy
    rw [linkPair_next, if_neg (ne_of_mem_of_not_mem hy aFront)]
  · intro y hy
    rw [linkPair_prev, if_neg (ne_of_mem_of_not_mem hy bFront)]
  · rw [linkPair_next, if_pos rfl]
  · rw [linkPair_prev, if_pos rfl]
  · intro y hy
    rw [linkPair_next, if_neg (ne_of_mem_of_not_mem hy aBack)]
  · intro y hy
    rw [linkPair_prev, if_neg (ne_of_mem_of_not_mem hy bBack)]

theorem Ring.unlink {l : α → Link α} {s x : α} {xs ys : List α} (h : Ring l s (xs ++ x :: ys)) :
    Ring (unlink l x) s (xs ++ ys) := by
  obtain ⟨prev, next⟩ := h.neighbours
  have nodup : (s :: (xs ++ ys)).Nodup := by
    refine h.nodup.sublist ?_
    exact ((List.sublist_append_right [x] ys).append_left xs).cons_cons s
  refine ⟨?_, nodup⟩
  have linked := h.linked
  have whole : s :: (xs ++ x :: ys ++ [s]) = (s :: xs) ++ x :: (ys ++ [s]) := by simp
  rw [whole, linked_append] at linked
  obtain ⟨before, behind⟩ := linked
  have parts : (s :: xs).Nodup ∧ ys.Nodup ∧ ∀ y ∈ ys, y ∉ s :: xs := by
    rw [← List.cons_append] at nodup
    obtain ⟨left, right, apart⟩ := List.nodup_append.mp nodup
    exact ⟨left, right, fun y hy mem => apart y mem y hy rfl⟩
  obtain ⟨left, right, apart⟩ := parts
  -- the last node in front of `x` and the first one behind it
  obtain ⟨front, a, hfront⟩ : ∃ front a, s :: xs = front ++ [a] :=
    ⟨_, _, (List.dropLast_append_getLast (List.cons_ne_nil s xs)).symm⟩
  have ha : (l x).prev = a := by
    rw [prev]
    simp [hfront]
  have mem : a ∈ s :: xs := by
    rw [hfront]
    exact List.mem_append_right _ List.mem_cons_self
  have tail : (front ++ [a]).tail = xs := by rw [← hfront, List.tail_cons]
  have aFront : a ∉ front := by
    rw [hfront] at left
    exact fun inside => (List.nodup_append.mp left).2.2 a inside a List.mem_cons_self rfl
  rw [hfront, List.append_assoc, List.singleton_append, linked_append] at before
  have shape : s :: (xs ++ ys ++ [s]) = front ++ a :: (ys ++ [s]) := by
    rw [List.append_assoc, ← List.cons_append, hfront, List.append_assoc, List.singleton_append]
  rw [LinkRing.unlink, ha, next, shape]
  cases ys with
  | nil =>
    show Linked (setNext (setPrev l s a) a s) (front ++ a :: [s])
    refine before.1.join behind.2.2 aFront (by simp) ?_ List.not_mem_nil
    rw [tail]
    exact (List.nodup_cons.mp left).1
  | cons y ys =>
    have outside := apart y List.mem_cons_self
    have rest : Linked l (y :: (ys ++ [s])) := behind.2.2
    have drop : (y :: (ys ++ [s])).dropLast = y :: ys := by
      rw [← List.cons_append, List.dropLast_concat]
    show Linked (setNext (setPrev l y a) a y) (front ++ a :: y :: (ys ++ [s]))
    refine before.1.join rest aFront ?_ ?_ ?_
    · rw [drop]
      exact fun inside => apart a inside mem
    · rw [tail]
      exact fun inside => outside (List.mem_cons_of_mem s inside)
    · intro inside
      rcases List.mem_append.mp inside with inside | inside
      · exact (List.nodup_cons.mp right).1 inside
      · rw [List.mem_singleton.mp inside] at outside
        exact outside List.mem_cons_self

theorem Ring.linkBehind {l : α → Link α} {s x : α} {xs : List α} (h : Ring l s xs)
    (fresh : x ∉ s :: xs) : Ring (linkBehind l s x) s (x :: xs) := by
  obtain ⟨ne, absent⟩ : x ≠ s ∧ x ∉ xs := by simpa using fresh
  obtain ⟨out, nodup⟩ := List.nodup_cons.mp h.nodup
  have next : ∀ y, (LinkRing.linkBehind l s x y).next =
      if y = s then x else if y = x then (l s).next else (l y).next := by
    intro y
    rw [LinkRing.linkBehind, setNext_next, Function.update_apply]
    split
    next => rfl
    next =>
      split
      next => rfl
      next => rw [setPrev_next]
  have prev : ∀ y, (LinkRing.linkBehind l s x y).prev =
      if y = x then s else if y = (l s).next then x else (l y).prev := by
    intro y
    rw [LinkRing.linkBehind, setNext_prev, Function.update_apply]
    split
    next => rfl
    next => rw [setPrev_prev]
  refine ⟨?_, ?_⟩
  · have first := h.next_head
    have behind : Linked (LinkRing.linkBehind l s x) (xs ++ [s]) := by
      have linked := h.linked
      cases xs with
      | nil => trivial
      | cons y ys =>
        refine linked.2.2.congr ?_ ?_
        · intro z hz
          have drop : (y :: (ys ++ [s])).dropLast = y :: ys := by
            rw [← List.cons_append, List.dropLast_concat]
          rw [List.append_eq, drop] at hz
          rw [next, if_neg (ne_of_mem_of_not_mem hz out), if_neg (ne_of_mem_of_not_mem hz absent)]
        · intro z hz
          have other : z ≠ y := by
            rcases List.mem_append.mp hz with hz | hz
            · exact ne_of_mem_of_not_mem hz (List.nodup_cons.mp nodup).1
            · rw [List.mem_singleton.mp hz]
              exact fun same => out (same ▸ List.mem_cons_self)
          have apart : z ≠ x := by
            rcases List.mem_append.mp hz with hz | hz
            · exact ne_of_mem_of_not_mem (List.mem_cons_of_mem y hz) absent
            · rw [List.mem_singleton.mp hz]
              exact ne.symm
          rw [prev, if_neg apart, first, List.headD_cons, if_neg other]
    have here : (LinkRing.linkBehind l s x s).next = x ∧ (LinkRing.linkBehind l s x x).prev = s ∧
        (LinkRing.linkBehind l s x x).next = xs.headD s := by
      refine ⟨by rw [next, if_pos rfl], by rw [prev, if_pos rfl], ?_⟩
      rw [next, if_neg ne, if_pos rfl, first]
    refine ⟨here.1, here.2.1, ?_⟩
    cases xs with
    | nil =>
      refine ⟨here.2.2, ?_, trivial⟩
      rw [prev, if_neg ne.symm, first, List.headD_nil, if_pos rfl]
    | cons y ys =>
      refine ⟨here.2.2, ?_, behind⟩
      have other : y ≠ x := fun same => absent (same ▸ List.mem_cons_self)
      rw [prev, if_neg other, first, List.headD_cons, if_pos rfl]
  · refine List.nodup_cons.mpr ⟨?_, List.nodup_cons.mpr ⟨absent, nodup⟩⟩
    simpa using ⟨ne.symm, out⟩

/-- The nodes that `unlink` and `linkBehind` write to are in the ring. -/
theorem Ring.unlink_frame {l : α → Link α} {s x y : α} {xs ys : List α}
    (h : Ring l s (xs ++ x :: ys)) (out : y ∉ s :: (xs ++ ys)) : LinkRing.unlink l x y = l y := by
  obtain ⟨prev, next⟩ := h.neighbours
  have before : (l x).prev ∈ s :: (xs ++ ys) := by
    have mem : (l x).prev ∈ s :: xs := prev ▸ List.getLast_mem (List.cons_ne_nil s xs)
    rw [← List.cons_append]
    exact List.mem_append_left ys mem
  have behind : (l x).next ∈ s :: (xs ++ ys) := by
    rw [next]
    cases ys with
    | nil => exact List.mem_cons_self
    | cons z ys => simp
  rw [LinkRing.unlink, setNext, Function.update_of_ne (ne_of_mem_of_not_mem before out).symm, setPrev,
    Function.update_of_ne (ne_of_mem_of_not_mem behind out).symm]

theorem Ring.linkBehind_frame {l : α → Link α} {s x y : α} {xs : List α} (h : Ring l s xs)
    (out : y ∉ s :: x :: xs) : LinkRing.linkBehind l s x y = l y := by
  obtain ⟨notS, notX, absent⟩ : y ≠ s ∧ y ≠ x ∧ y ∉ xs := by simpa using out
  have first : (l s).next ∈ s :: xs := by
    rw [h.next_head]
    cases xs with
    | nil => exact List.mem_cons_self
    | cons z zs => simp
  have other : y ≠ (l s).next := by
    intro same
    rw [← same] at first
    rcases List.mem_cons.mp first with here | inside
    · exact notS here
    · exact absent inside
  rw [LinkRing.linkBehind, setNext, Function.update_of_ne notS, Function.update_of_ne notX, setPrev,
    Function.update_of_ne other]

/-- The first node from `n` on that has the property; the walk ends at `s`. -/
def walk (l : α → Link α) (s : α) (p : α → Bool) : Nat → α → Option α
  | 0, _ => none
  | fuel + 1, n => if n = s then none else if p n then some n else walk l s p fuel (l n).next

theorem walk_linked {l : α → Link α} {s : α} {xs : List α} (p : α → Bool) {fuel : Nat}
    (linked : Linked l (xs ++ [s])) (out : s ∉ xs) (enough : xs.length < fuel) :
    walk l s p fuel (xs.headD s) = xs.find? p := by
  induction xs generalizing fuel with
  | nil =>
    obtain ⟨fuel, rfl⟩ := Nat.exists_eq_add_of_lt enough
    simp [walk]
  | cons x xs ih =>
    obtain ⟨more, rfl⟩ : ∃ more, fuel = more + 1 := ⟨fuel - 1, by omega⟩
    have other : x ≠ s := fun same => out (same ▸ List.mem_cons_self)
    have rest : Linked l (xs ++ [s]) ∧ (l x).next = xs.headD s := by
      cases xs with
      | nil => exact ⟨trivial, linked.1⟩
      | cons y ys => exact ⟨linked.2.2, linked.1⟩
    rw [List.headD_cons, walk, if_neg other, List.find?_cons]
    cases found : p x with
    | true => rfl
    | false =>
      simp only [Bool.false_eq_true, if_false]
      rw [rest.2]
      exact ih rest.1 (fun mem => out (List.mem_cons_of_mem x mem))
        (by rw [List.length_cons] at enough; omega)

/-- The walk through a ring finds what is first in it. -/
theorem Ring.walk {l : α → Link α} {s : α} {xs : List α} (h : Ring l s xs) (p : α → Bool)
    {fuel : Nat} (enough : xs.length < fuel) :
    walk l s p fuel (l s).next = xs.find? p := by
  obtain ⟨out, -⟩ := List.nodup_cons.mp h.nodup
  have linked : Linked l (xs ++ [s]) := by
    have all := h.linked
    cases xs with
    | nil => trivial
    | cons x xs => exact all.2.2
  rw [h.next_head]
  exact walk_linked p linked out enough

end LinkRing
