import Mathlib.Data.List.Pairwise
import XiRuntime.PageRings

namespace XiRuntime

open LinkRing

/-- A run of pages. -/
structure PageSpan where
  start : Nat
  size : Nat
  free : Bool
deriving DecidableEq, Repr

namespace PageSpan

def stop (sp : PageSpan) : Nat := sp.start + sp.size

def Apart (a b : PageSpan) : Prop := a.stop ≤ b.start ∨ b.stop ≤ a.start

theorem Apart.symm {a b : PageSpan} (h : a.Apart b) : b.Apart a := Or.symm h

end PageSpan

/-- The spans follow one another from one page to another. -/
def Tiled : Nat → List PageSpan → Nat → Prop
  | lo, [], hi => lo = hi
  | lo, sp :: spans, hi => sp.start = lo ∧ 0 < sp.size ∧ Tiled sp.stop spans hi

theorem tiled_append {lo hi : Nat} {xs ys : List PageSpan} :
    Tiled lo (xs ++ ys) hi ↔ ∃ mid, Tiled lo xs mid ∧ Tiled mid ys hi := by
  induction xs generalizing lo with
  | nil => simp [Tiled]
  | cons sp xs ih =>
    simp only [List.cons_append, Tiled, ih]
    constructor
    · rintro ⟨start, size, mid, front, back⟩
      exact ⟨mid, ⟨start, size, front⟩, back⟩
    · rintro ⟨mid, ⟨start, size, front⟩, back⟩
      exact ⟨start, size, mid, front, back⟩

theorem Tiled.le {lo hi : Nat} {spans : List PageSpan} (h : Tiled lo spans hi) : lo ≤ hi := by
  induction spans generalizing lo with
  | nil => exact Nat.le_of_eq h
  | cons sp spans ih =>
    obtain ⟨rfl, -, rest⟩ := h
    exact Nat.le_trans (Nat.le_add_right _ _) (ih rest)

theorem Tiled.bounds {lo hi : Nat} {spans : List PageSpan} (h : Tiled lo spans hi) :
    ∀ sp ∈ spans, lo ≤ sp.start ∧ 0 < sp.size ∧ sp.stop ≤ hi := by
  induction spans generalizing lo with
  | nil => simp
  | cons sp spans ih =>
    obtain ⟨rfl, size, rest⟩ := h
    intro x hx
    rcases List.mem_cons.mp hx with rfl | hx
    · exact ⟨Nat.le_refl _, size, rest.le⟩
    · obtain ⟨above, pos, below⟩ := ih rest x hx
      exact ⟨Nat.le_trans (Nat.le_add_right _ _) above, pos, below⟩

/-- Page 0 is in no span, and no page is in two. -/
structure Separate (spans : List PageSpan) : Prop where
  page : ∀ sp ∈ spans, 0 < sp.start ∧ 0 < sp.size
  apart : spans.Pairwise PageSpan.Apart

namespace Separate

variable {spans : List PageSpan} {a b : PageSpan}

theorem mem_apart (h : Separate spans) (ha : a ∈ spans) (hb : b ∈ spans) (ne : a ≠ b) :
    a.Apart b := by
  have : Std.Symm PageSpan.Apart := ⟨fun _ _ apart => apart.symm⟩
  exact h.apart.forall ha hb ne

theorem eq_of_start (h : Separate spans) (ha : a ∈ spans) (hb : b ∈ spans)
    (start : a.start = b.start) : a = b := by
  by_contra ne
  have sizes := (h.page a ha).2
  have size := (h.page b hb).2
  rcases h.mem_apart ha hb ne with below | above
  · unfold PageSpan.stop at below
    omega
  · unfold PageSpan.stop at above
    omega

theorem nodup (h : Separate spans) : spans.Nodup := by
  refine h.apart.imp_of_mem ?_
  rintro a b ha hb apart rfl
  have size := (h.page a ha).2
  rcases apart with below | above
  · unfold PageSpan.stop at below
    omega
  · unfold PageSpan.stop at above
    omega

theorem sublist {fewer : List PageSpan} (h : Separate spans) (sub : fewer.Sublist spans) :
    Separate fewer :=
  ⟨fun sp hsp => h.page sp (sub.subset hsp), h.apart.sublist sub⟩

theorem start_ne {pre post : List PageSpan} (h : Separate (pre ++ a :: post)) (hb : b ∈ pre ++ post) :
    b.start ≠ a.start := by
  intro start
  have inside : a ∈ pre ++ a :: post := List.mem_append_right _ List.mem_cons_self
  have sub : b ∈ pre ++ a :: post := ((List.sublist_cons_self a post).append_left pre).subset hb
  have same := h.eq_of_start sub inside start
  subst same
  have nodup := h.nodup
  rw [List.nodup_append, List.nodup_cons] at nodup
  rcases List.mem_append.mp hb with hb | hb
  · exact nodup.2.2 b hb b List.mem_cons_self rfl
  · exact nodup.2.1.1 hb

end Separate

namespace CpuPages

/-- The head and the tail of each span say what it is. -/
def Marked (pages : Nat → Page) (spans : List PageSpan) : Prop :=
  ∀ sp ∈ spans, (pages sp.start).free = sp.free ∧ (pages sp.start).spanSize = sp.size ∧
    (pages (sp.stop - 1)).free = sp.free ∧ (pages (sp.stop - 1)).spanSize = sp.size

/-- The free spans are in the lists of their sizes, and nothing else is. -/
def Listed (s : CpuPages) (spans : List PageSpan) : Prop :=
  Rings s.freeSpans s.links fun i x =>
    ∃ sp ∈ spans, sp.free = true ∧ indexOf sp.size = i ∧ sp.start = x

variable {s : CpuPages} {spans pre post : List PageSpan} {sp : PageSpan} {pages : Nat → Page}

theorem markSpan_of_ne {start n i : Nat} {free : Bool} (head : i ≠ start) (tail : i ≠ start + n - 1) :
    markSpan pages start n free i = pages i := by
  rw [markSpan, if_neg]
  rintro (here | here)
  · exact head here
  · exact tail here

theorem markSpan_outside {start n i : Nat} {free : Bool} (size : 0 < n)
    (out : i < start ∨ start + n ≤ i) : markSpan pages start n free i = pages i :=
  markSpan_of_ne (by omega) (by omega)

theorem marked_markSpan (h : Marked pages spans) (size : 0 < sp.size)
    (sizes : ∀ x ∈ spans, 0 < x.size) (apart : ∀ x ∈ spans, sp.Apart x) :
    Marked (markSpan pages sp.start sp.size sp.free) (sp :: spans) := by
  intro x hx
  rcases List.mem_cons.mp hx with rfl | hx
  · simp [markSpan, PageSpan.stop]
  · have pos := sizes x hx
    have away := apart x hx
    unfold PageSpan.Apart PageSpan.stop at away
    rw [PageSpan.stop, markSpan_outside size (by omega), markSpan_outside size (by omega)]
    exact h x hx

theorem Marked.subset {fewer : List PageSpan} (h : Marked pages spans) (sub : fewer ⊆ spans) :
    Marked pages fewer := fun sp hsp => h sp (sub hsp)

theorem Marked.congr {pages' : Nat → Page} (h : Marked pages spans)
    (same : ∀ i, (pages' i).free = (pages i).free ∧ (pages' i).spanSize = (pages i).spanSize) :
    Marked pages' spans := by
  intro sp hsp
  rw [(same _).1, (same _).2, (same _).1, (same _).2]
  exact h sp hsp

theorem Listed.congr {more : List PageSpan} (h : Listed s spans)
    (same : ∀ sp, sp.free = true → (sp ∈ more ↔ sp ∈ spans)) : Listed s more := by
  intro i
  obtain ⟨xs, ring, mem⟩ := h i
  refine ⟨xs, ring, fun x => (mem x).trans ?_⟩
  constructor
  · rintro ⟨sp, hsp, free, rest⟩
    exact ⟨sp, (same sp free).mpr hsp, free, rest⟩
  · rintro ⟨sp, hsp, free, rest⟩
    exact ⟨sp, (same sp free).mp hsp, free, rest⟩

theorem listed_apart (sep : Separate spans) : ∀ i j x,
    (∃ sp ∈ spans, sp.free = true ∧ indexOf sp.size = i ∧ sp.start = x) →
    (∃ sp ∈ spans, sp.free = true ∧ indexOf sp.size = j ∧ sp.start = x) → i = j := by
  rintro i j x ⟨y, hy, -, rfl, start⟩ ⟨z, hz, -, rfl, start'⟩
  rw [sep.eq_of_start hy hz (start.trans start'.symm)]

theorem Listed.link (h : Listed s spans) (sep : Separate spans) (free : sp.free = true)
    (page : 0 < sp.start) (fresh : ∀ x ∈ spans, x.start ≠ sp.start) :
    Listed (s.link (indexOf sp.size) sp.start) (sp :: spans) ∧
      ∀ x ∈ spans, x.free = false →
        (s.link (indexOf sp.size) sp.start).links x.start = s.links x.start := by
  obtain ⟨rings, others⟩ := h.pushFront (indexOf sp.size) (Nat.ne_of_gt page)
    (fun j => by
      rintro ⟨x, hx, -, -, same⟩
      exact fresh x hx same) (listed_apart sep)
  constructor
  · refine Rings.congr rings fun i x => ?_
    constructor
    · rintro ⟨y, hy, yfree, size, start⟩
      rcases List.mem_cons.mp hy with rfl | hy
      · exact Or.inl ⟨size.symm, start.symm⟩
      · exact Or.inr ⟨y, hy, yfree, size, start⟩
    · rintro (⟨rfl, rfl⟩ | ⟨y, hy, rest⟩)
      · exact ⟨sp, List.mem_cons_self, free, rfl, rfl⟩
      · exact ⟨y, List.mem_cons_of_mem sp hy, rest⟩
  · intro x hx used
    refine others x.start (Nat.ne_of_gt (sep.page x hx).1) (fresh x hx) ?_
    rintro ⟨y, hy, yfree, -, start⟩
    rw [sep.eq_of_start hy hx start, used] at yfree
    cases yfree

theorem Listed.unlink (h : Listed s (pre ++ sp :: post)) (sep : Separate (pre ++ sp :: post))
    (free : sp.free = true) :
    Listed (s.unlink (indexOf sp.size) sp.start) (pre ++ post) ∧
      ∀ x ∈ pre ++ post, x.free = false →
        (s.unlink (indexOf sp.size) sp.start).links x.start = s.links x.start := by
  have inside : sp ∈ pre ++ sp :: post := List.mem_append_right _ List.mem_cons_self
  have sub : ∀ y ∈ pre ++ post, y ∈ pre ++ sp :: post := fun y hy =>
    ((List.sublist_cons_self sp post).append_left pre).subset hy
  obtain ⟨rings, others⟩ := h.erase (x := sp.start) (indexOf sp.size) ⟨sp, inside, free, rfl, rfl⟩
    (listed_apart sep)
  constructor
  · refine Rings.congr rings fun i x => ?_
    constructor
    · rintro ⟨y, hy, yfree, size, rfl⟩
      exact ⟨⟨y, sub y hy, yfree, size, rfl⟩, sep.start_ne hy⟩
    · rintro ⟨⟨y, hy, yfree, size, rfl⟩, ne⟩
      refine ⟨y, ?_, yfree, size, rfl⟩
      rcases List.mem_append.mp hy with hy | hy
      · exact List.mem_append_left post hy
      · rcases List.mem_cons.mp hy with rfl | hy
        · exact absurd rfl ne
        · exact List.mem_append_right pre hy
  · intro x hx used
    have mem := sub x hx
    refine others x.start (Nat.ne_of_gt (sep.page x mem).1) ?_
    rintro ⟨y, hy, yfree, -, start⟩
    rw [sep.eq_of_start hy mem start, used] at yfree
    cases yfree

end CpuPages

end XiRuntime
