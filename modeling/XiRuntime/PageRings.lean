import XiRuntime.PageAllocator

namespace XiRuntime

open LinkRing

namespace PageList

variable {l : Nat → Link Nat} {list : PageList} {span : Nat}

theorem ring_of_ne (l : Nat → Link Nat) (list : PageList) {n : Nat} (h : n ≠ 0) :
    list.ring l n = l n := Function.update_of_ne h _ _

theorem ring_zero (l : Nat → Link Nat) (list : PageList) :
    list.ring l 0 = ⟨list.back, list.front⟩ := Function.update_self _ _ _

/-- A write to a page's link is one to the ring, and so is one to the head. -/
theorem ring_setPrev (l : Nat → Link Nat) (list : PageList) (n p : Nat) :
    setPrev (list.ring l) n p =
      if n ≠ 0 then list.ring (setPrev l n p) else { list with back := p }.ring l := by
  unfold setPrev ring
  split
  next page =>
    rw [Function.update_of_ne page]
    exact (Function.update_comm page _ _ _).symm
  next head =>
    rw [not_not.mp head, Function.update_self, Function.update_idem]

theorem ring_setNext (l : Nat → Link Nat) (list : PageList) (n q : Nat) :
    setNext (list.ring l) n q =
      if n ≠ 0 then list.ring (setNext l n q) else { list with front := q }.ring l := by
  unfold setNext ring
  split
  next page =>
    rw [Function.update_of_ne page]
    exact (Function.update_comm page _ _ _).symm
  next head =>
    rw [not_not.mp head, Function.update_self, Function.update_idem]

theorem setPrev_of_ne (l : Nat → Link Nat) {n m : Nat} (p : Nat) (h : m ≠ n) :
    setPrev l n p m = l m := Function.update_of_ne h _ _

theorem ring_erase (page : span ≠ 0) (apart : span ≠ (l span).next) :
    (erase l list span).2.ring (erase l list span).1 = LinkRing.unlink (list.ring l) span := by
  have same : list.ring l span = l span := ring_of_ne l list page
  rw [LinkRing.unlink, same, ring_setPrev]
  simp only [erase]
  by_cases last : (l span).next = 0
  · simp only [last, ne_eq, not_true_eq_false, if_false]
    rw [ring_setNext]
    split <;> rfl
  · simp only [last, ne_eq, not_false_eq_true, if_true, setPrev_of_ne l _ apart]
    rw [ring_setNext]
    split <;> rfl

theorem ring_pushFront (l : Nat → Link Nat) (list : PageList) (page : span ≠ 0) :
    (pushFront l list span).2.ring (pushFront l list span).1 =
      LinkRing.linkBehind (list.ring l) 0 span := by
  rw [linkBehind, ring_zero, ring_setPrev]
  simp only [pushFront]
  have head : ∀ (l : Nat → Link Nat) (list : PageList) (k : Link Nat),
      setNext (Function.update (list.ring l) span k) 0 span =
        { list with front := span }.ring (Function.update l span k) := by
    intro l list k
    unfold setNext ring
    rw [Function.update_of_ne page.symm, Function.update_self]
    simp only
    rw [← Function.update_comm page, Function.update_idem]
  split
  next => rw [head]
  next => rw [head]

/-- The first page is taken off like any other one. -/
theorem popFront_eq (first : (l list.front).prev = 0) (apart : list.front ≠ (l list.front).next) :
    popFront l list = erase l list list.front := by
  simp only [popFront, erase, first]
  split
  next => simp [setPrev_of_ne l _ apart, first]
  next => simp [first]

theorem ring_page {xs : List Nat} {x : Nat} (h : Ring (list.ring l) 0 xs) (hx : x ∈ xs) : x ≠ 0 := by
  rintro rfl
  exact (List.nodup_cons.mp h.nodup).1 hx

/-- A page's next one is not itself. -/
theorem ring_apart {xs ys : List Nat} (h : Ring (list.ring l) 0 (xs ++ span :: ys)) :
    span ≠ (l span).next := by
  have page : span ≠ 0 := ring_page h (List.mem_append_right xs List.mem_cons_self)
  have next := h.neighbours.2
  rw [ring_of_ne _ _ page] at next
  rw [next]
  have nodup := (List.nodup_cons.mp h.nodup).2
  cases ys with
  | nil => exact page
  | cons y ys =>
    rintro rfl
    have behind := (List.nodup_append.mp nodup).2.1
    exact (List.nodup_cons.mp behind).1 List.mem_cons_self

end PageList

/-- A list's ring does not see what is done to the links of another one. -/
theorem ring_frame {l l' : Nat → Link Nat} {list : PageList} {xs : List Nat}
    (ring : Ring (list.ring l) 0 xs) (same : ∀ x ∈ xs, l' x = l x) :
    Ring (list.ring l') 0 xs := by
  refine ring.congr fun x hx => ?_
  rcases List.mem_cons.mp hx with rfl | hx
  · rw [PageList.ring_zero, PageList.ring_zero]
  · have page := PageList.ring_page ring hx
    rw [PageList.ring_of_ne _ _ page, PageList.ring_of_ne _ _ page, same x hx]

/-- Lists over the same links: `mem` says what is in each of them. -/
def Rings {ι : Type} (lists : ι → PageList) (l : Nat → Link Nat) (mem : ι → Nat → Prop) : Prop :=
  ∀ i, ∃ xs, Ring ((lists i).ring l) 0 xs ∧ ∀ x, x ∈ xs ↔ mem i x

namespace Rings

variable {ι : Type} {lists : ι → PageList} {l l' : Nat → Link Nat} {mem mem' : ι → Nat → Prop} {i : ι}
  {x : Nat}

theorem page (h : Rings lists l mem) (inside : mem i x) : x ≠ 0 := by
  obtain ⟨xs, ring, same⟩ := h i
  exact PageList.ring_page ring ((same x).mpr inside)

theorem congr (h : Rings lists l mem) (same : ∀ i x, mem' i x ↔ mem i x) : Rings lists l mem' := by
  intro i
  obtain ⟨xs, ring, here⟩ := h i
  exact ⟨xs, ring, fun x => (here x).trans (same i x).symm⟩

/-- What is done to the links of other pages. -/
theorem frame (h : Rings lists l mem) (same : ∀ i x, mem i x → l' x = l x) : Rings lists l' mem := by
  intro i
  obtain ⟨xs, ring, here⟩ := h i
  exact ⟨xs, ring_frame ring fun x hx => same i x ((here x).mp hx), here⟩

theorem isEmpty (h : Rings lists l mem) (i : ι) : (lists i).isEmpty = true ↔ ∀ x, ¬ mem i x := by
  obtain ⟨xs, ring, here⟩ := h i
  have first := ring.next_head
  rw [PageList.ring_zero] at first
  simp only at first
  unfold PageList.isEmpty
  rw [first, beq_iff_eq]
  cases xs with
  | nil => simp [← here]
  | cons y ys =>
    have page := PageList.ring_page ring List.mem_cons_self
    simp only [List.headD_cons, page, false_iff, not_forall, not_not]
    exact ⟨y, (here y).mp List.mem_cons_self⟩

/-- The front of a list that has pages. -/
theorem front (h : Rings lists l mem) (i : ι) (filled : (lists i).isEmpty = false) :
    mem i (lists i).front := by
  obtain ⟨xs, ring, here⟩ := h i
  have first := ring.next_head
  rw [PageList.ring_zero] at first
  simp only at first
  cases xs with
  | nil =>
    rw [List.headD_nil] at first
    simp [PageList.isEmpty, first] at filled
  | cons y ys =>
    rw [List.headD_cons] at first
    rw [first]
    exact (here y).mp List.mem_cons_self

variable [DecidableEq ι]

/-- A page of no list is put into one. -/
theorem pushFront (h : Rings lists l mem) (i : ι) (page : x ≠ 0) (fresh : ∀ j, ¬ mem j x)
    (apart : ∀ j k y, mem j y → mem k y → j = k) :
    Rings (Function.update lists i ((lists i).pushFront l x).2) ((lists i).pushFront l x).1
      (fun j y => (j = i ∧ y = x) ∨ mem j y) ∧
      ∀ y, y ≠ 0 → y ≠ x → ¬ mem i y → ((lists i).pushFront l x).1 y = l y := by
  obtain ⟨own, ring, here⟩ := h i
  have pushed := PageList.ring_pushFront l (lists i) page
  have others : ∀ y, y ≠ 0 → y ≠ x → ¬ mem i y → ((lists i).pushFront l x).1 y = l y := by
    intro y node other out
    have kept := ring.linkBehind_frame (x := x) (y := y) (by simp [node, other, here, out])
    rw [← pushed, PageList.ring_of_ne _ _ node, PageList.ring_of_ne _ _ node] at kept
    exact kept
  refine ⟨fun j => ?_, others⟩
  by_cases same : j = i
  · subst same
    refine ⟨x :: own, ?_, fun y => ?_⟩
    · rw [Function.update_self, pushed]
      exact ring.linkBehind (by simp [page, here, fresh])
    · simp [here]
  · obtain ⟨xs, other, there⟩ := h j
    refine ⟨xs, ?_, fun y => ?_⟩
    · rw [Function.update_of_ne same]
      refine ring_frame other fun y hy => others y (PageList.ring_page other hy) ?_ ?_
      · rintro rfl
        exact fresh j ((there y).mp hy)
      · intro inside
        exact same (apart j i y ((there y).mp hy) inside)
    · simp [there, same]

/-- A page is taken off its list. -/
theorem erase (h : Rings lists l mem) (i : ι) (inside : mem i x)
    (apart : ∀ j k y, mem j y → mem k y → j = k) :
    Rings (Function.update lists i ((lists i).erase l x).2) ((lists i).erase l x).1
      (fun j y => mem j y ∧ y ≠ x) ∧
      ∀ y, y ≠ 0 → ¬ mem i y → ((lists i).erase l x).1 y = l y := by
  obtain ⟨own, ring, here⟩ := h i
  obtain ⟨xs, ys, rfl⟩ := List.append_of_mem ((here x).mpr inside)
  have page := h.page inside
  have erased : ((lists i).erase l x).2.ring ((lists i).erase l x).1 = _ :=
    PageList.ring_erase page (PageList.ring_apart ring)
  have fewer : ∀ y, y ∈ xs ++ ys ↔ mem i y ∧ y ≠ x := by
    intro y
    have nodup := (List.nodup_cons.mp ring.nodup).2
    rw [List.nodup_append, List.nodup_cons] at nodup
    rw [← here, List.mem_append, List.mem_append, List.mem_cons]
    constructor
    · rintro (hy | hy)
      · exact ⟨Or.inl hy, nodup.2.2 y hy x List.mem_cons_self⟩
      · exact ⟨Or.inr (Or.inr hy), fun same => nodup.2.1.1 (same ▸ hy)⟩
    · rintro ⟨hy | rfl | hy, ne⟩
      · exact Or.inl hy
      · exact absurd rfl ne
      · exact Or.inr hy
  have others : ∀ y, y ≠ 0 → ¬ mem i y → ((lists i).erase l x).1 y = l y := by
    intro y node out
    have away : y ∉ 0 :: (xs ++ ys) := by
      rw [List.mem_cons, fewer, not_or]
      exact ⟨node, fun there => out there.1⟩
    have kept := ring.unlink_frame away
    rw [← erased, PageList.ring_of_ne _ _ node, PageList.ring_of_ne _ _ node] at kept
    exact kept
  refine ⟨fun j => ?_, others⟩
  by_cases same : j = i
  · subst same
    refine ⟨xs ++ ys, ?_, fewer⟩
    rw [Function.update_self, erased]
    exact ring.unlink
  · obtain ⟨zs, other, there⟩ := h j
    refine ⟨zs, ?_, fun y => ?_⟩
    · rw [Function.update_of_ne same]
      refine ring_frame other fun y hy => others y (PageList.ring_page other hy) fun mine => ?_
      exact same (apart j i y ((there y).mp hy) mine)
    · rw [there]
      refine ⟨fun mine => ⟨mine, ?_⟩, And.left⟩
      rintro rfl
      exact same (apart j i y mine inside)

/-- The first page is taken off its list. -/
theorem popFront (h : Rings lists l mem) (i : ι) (filled : (lists i).isEmpty = false)
    (apart : ∀ j k y, mem j y → mem k y → j = k) :
    mem i (lists i).front ∧
      Rings (Function.update lists i ((lists i).popFront l).2) ((lists i).popFront l).1
        (fun j y => mem j y ∧ y ≠ (lists i).front) ∧
      ∀ y, y ≠ 0 → ¬ mem i y → ((lists i).popFront l).1 y = l y := by
  have inside := h.front i filled
  have page := h.page inside
  obtain ⟨own, ring, here⟩ := h i
  have first := ring.next_head
  rw [PageList.ring_zero] at first
  cases own with
  | nil => exact absurd ((here _).mpr inside) List.not_mem_nil
  | cons x xs =>
    simp only [List.headD_cons] at first
    rw [first] at inside page ⊢
    have whole : Ring ((lists i).ring l) 0 ([] ++ x :: xs) := ring
    have prev := whole.neighbours.1
    rw [PageList.ring_of_ne _ _ page, List.getLast_singleton] at prev
    have like : (lists i).popFront l = (lists i).erase l x := by
      have eq := @PageList.popFront_eq l (lists i)
      rw [first] at eq
      exact eq prev (PageList.ring_apart whole)
    rw [show PageList.popFront l (lists i) = PageList.erase l (lists i) x from like]
    exact ⟨inside, h.erase i inside apart⟩

end Rings

end XiRuntime
