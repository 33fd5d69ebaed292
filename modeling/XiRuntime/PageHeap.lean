import Mathlib.Algebra.BigOperators.Group.List.Basic
import Mathlib.Algebra.Order.Ring.Nat
import Mathlib.Data.List.Chain
import XiRuntime.PageSpans

namespace XiRuntime

open LinkRing

theorem Separate.cons {spans : List PageSpan} {sp : PageSpan} (h : Separate spans) (page : 0 < sp.start)
    (size : 0 < sp.size) (apart : ∀ x ∈ spans, sp.Apart x) : Separate (sp :: spans) := by
  refine ⟨?_, List.pairwise_cons.mpr ⟨apart, h.apart⟩⟩
  intro x hx
  rcases List.mem_cons.mp hx with rfl | hx
  · exact ⟨page, size⟩
  · exact h.page x hx

namespace CpuPages

def freeSize (sp : PageSpan) : Nat := if sp.free then sp.size else 0

/-- What the state says about some spans, apart from which it has no free ones. -/
structure Known (s : CpuPages) (spans : List PageSpan) : Prop where
  separate : Separate spans
  marked : Marked s.pages spans
  listed : Listed s spans
  counted : s.nrFreePages = (spans.map freeSize).sum

def blocksOf (spans : List PageSpan) (start size : Nat) : Prop :=
  (⟨start, size, false⟩ : PageSpan) ∈ spans

/-- What is done leaves these blocks alone: their pages and their links. -/
structure Spares (s s' : CpuPages) (blocks : Nat → Nat → Prop) : Prop where
  nrPages : s'.nrPages = s.nrPages
  links : ∀ start size, blocks start size → s'.links start = s.links start
  pages : ∀ start size, blocks start size → ∀ i, start ≤ i → i < start + size → s'.pages i = s.pages i

variable {s s' s'' : CpuPages} {spans pre post : List PageSpan} {sp : PageSpan}
  {blocks fewer : Nat → Nat → Prop}

theorem Spares.refl (s : CpuPages) (blocks : Nat → Nat → Prop) : Spares s s blocks :=
  ⟨rfl, fun _ _ _ => rfl, fun _ _ _ _ _ _ => rfl⟩

theorem Spares.trans (h : Spares s s' blocks) (h' : Spares s' s'' blocks) : Spares s s'' blocks := by
  refine ⟨h'.nrPages.trans h.nrPages, ?_, ?_⟩
  · intro start size block
    exact (h'.links start size block).trans (h.links start size block)
  · intro start size block i low high
    exact (h'.pages start size block i low high).trans (h.pages start size block i low high)

theorem Spares.mono (h : Spares s s' blocks) (sub : ∀ start size, fewer start size → blocks start size) :
    Spares s s' fewer :=
  ⟨h.nrPages, fun start size block => h.links start size (sub start size block),
    fun start size block => h.pages start size (sub start size block)⟩

theorem Spares.pool (h : Spares s s' blocks) {start size : Nat} (block : blocks start size)
    (pos : 0 < size) : (s'.pages start).pool = (s.pages start).pool := by
  rw [h.pages start size block start (Nat.le_refl _) (Nat.lt_add_of_pos_right pos)]

theorem Known.perm {more : List PageSpan} (h : Known s spans) (same : spans.Perm more) :
    Known s more := by
  refine ⟨⟨fun x hx => h.separate.page x (same.mem_iff.mpr hx), ?_⟩, ?_, ?_, ?_⟩
  · exact same.pairwise h.separate.apart fun apart => apart.symm
  · exact h.marked.subset same.symm.subset
  · exact h.listed.congr fun x _ => same.mem_iff.symm
  · rw [h.counted]
    exact (same.map freeSize).sum_eq

/-- `freeSpanNoMerge` on pages of no span. -/
theorem Known.freeSpanNoMerge (h : Known s spans) (sp : PageSpan) (free : sp.free = true)
    (page : 0 < sp.start) (size : 0 < sp.size) (apart : ∀ x ∈ spans, sp.Apart x) :
    ∃ s', s.freeSpanNoMerge sp.start sp.size = some s' ∧ Known s' (sp :: spans) ∧
      s'.pages = markSpan s.pages sp.start sp.size true ∧ Spares s s' (blocksOf spans) := by
  have taken : s.freeSpanNoMerge sp.start sp.size = some (CpuPages.link
      { s with
        nrFreePages := s.nrFreePages + sp.size
        pages := markSpan s.pages sp.start sp.size true } (indexOf sp.size) sp.start) :=
    if_neg (Nat.ne_of_gt size)
  have fresh : ∀ x ∈ spans, x.start ≠ sp.start := by
    intro x hx same
    have pos := (h.separate.page x hx).2
    have away := apart x hx
    unfold PageSpan.Apart PageSpan.stop at away
    omega
  have listed : Listed { s with
      nrFreePages := s.nrFreePages + sp.size
      pages := markSpan s.pages sp.start sp.size true } spans := h.listed
  obtain ⟨listed, links⟩ := listed.link h.separate free page fresh
  refine ⟨_, taken, ⟨?_, ?_, listed, ?_⟩, rfl, rfl, ?_, ?_⟩
  · exact h.separate.cons page size apart
  · have marked := marked_markSpan h.marked size (fun x hx => (h.separate.page x hx).2) apart
    rw [free] at marked
    exact marked
  · show s.nrFreePages + sp.size = _
    rw [List.map_cons, List.sum_cons, h.counted, freeSize, if_pos free, Nat.add_comm]
  · intro start k block
    exact links ⟨start, k, false⟩ block rfl
  · intro start k block i low high
    have away := apart ⟨start, k, false⟩ block
    unfold PageSpan.Apart PageSpan.stop at away
    simp only at away
    exact markSpan_outside size (by omega)

/-- A free span is unlinked and no longer counted. -/
theorem Known.unlink (h : Known s (pre ++ sp :: post)) (free : sp.free = true) :
    Known (CpuPages.unlink { s with nrFreePages := s.nrFreePages - sp.size }
      (indexOf sp.size) sp.start) (pre ++ post) ∧
      Spares s (CpuPages.unlink { s with nrFreePages := s.nrFreePages - sp.size }
        (indexOf sp.size) sp.start) (blocksOf (pre ++ post)) := by
  have sub : (pre ++ post).Sublist (pre ++ sp :: post) :=
    (List.sublist_cons_self sp post).append_left pre
  have listed : Listed { s with nrFreePages := s.nrFreePages - sp.size } (pre ++ sp :: post) :=
    h.listed
  obtain ⟨listed, links⟩ := listed.unlink h.separate free
  refine ⟨⟨h.separate.sublist sub, h.marked.subset sub.subset, listed, ?_⟩, rfl, ?_, ?_⟩
  · have counted := h.counted
    rw [List.map_append, List.map_cons, List.sum_append, List.sum_cons, freeSize, if_pos free]
      at counted
    show s.nrFreePages - sp.size = _
    rw [List.map_append, List.sum_append]
    omega
  · intro start k block
    exact links ⟨start, k, false⟩ block rfl
  · intro start k block i low high
    rfl

/-- Pages of no span are marked as a block. -/
theorem Known.mark {pages : Nat → Page} (h : Known s spans) (sp : PageSpan) (used : sp.free = false)
    (page : 0 < sp.start) (size : 0 < sp.size) (apart : ∀ x ∈ spans, sp.Apart x)
    (same : ∀ i, (pages i).free = (markSpan s.pages sp.start sp.size false i).free ∧
      (pages i).spanSize = (markSpan s.pages sp.start sp.size false i).spanSize) :
    Known { s with pages := pages } (sp :: spans) := by
  refine ⟨h.separate.cons page size apart, ?_, ?_, ?_⟩
  · have marked := marked_markSpan h.marked size (fun x hx => (h.separate.page x hx).2) apart
    rw [used] at marked
    exact marked.congr same
  · have listed : Listed { s with pages := pages } spans := h.listed
    refine listed.congr fun x free => ?_
    rw [List.mem_cons]
    constructor
    · rintro (rfl | hx)
      · rw [used] at free
        cases free
      · exact hx
    · exact Or.inr
  · show s.nrFreePages = _
    rw [List.map_cons, List.sum_cons, h.counted, freeSize, if_neg (by simp [used]), Nat.zero_add]

theorem takeSpan_pages (s : CpuPages) (start size i : Nat) :
    ((s.takeSpan start size).pages i).free = (markSpan s.pages start size false i).free ∧
      ((s.takeSpan start size).pages i).spanSize = (markSpan s.pages start size false i).spanSize := by
  by_cases here : i = start
  · subst here
    simp [CpuPages.takeSpan]
  · simp [CpuPages.takeSpan, here]

theorem takeSpan_pool (s : CpuPages) (start size : Nat) :
    ((s.takeSpan start size).pages start).pool = none := by
  simp [CpuPages.takeSpan]

theorem takeSpan_outside {start size i : Nat} (pos : 0 < size) (out : i < start ∨ start + size ≤ i) :
    (s.takeSpan start size).pages i = s.pages i := by
  have other : i ≠ start := by omega
  simp only [CpuPages.takeSpan, Function.update_of_ne other]
  exact markSpan_outside pos out

/-- No two free spans follow each other. -/
def Coalesced (spans : List PageSpan) : Prop :=
  spans.IsChain fun a b => ¬ (a.free = true ∧ b.free = true)

/-- The spans of the pages from `lo` on; the pages around are not free. -/
structure Rep (lo : Nat) (s : CpuPages) (spans : List PageSpan) : Prop where
  tiles : Tiled lo spans s.nrPages
  known : Known s spans
  coalesced : Coalesced spans
  low : 0 < lo
  before : (s.pages (lo - 1)).free = false
  behind : (s.pages s.nrPages).free = false

/-- The same around pages that are in no span. -/
structure Hole (lo : Nat) (s : CpuPages) (pre : List PageSpan) (start size : Nat) (post : List PageSpan) :
    Prop where
  front : Tiled lo pre start
  pos : 0 < size
  back : Tiled (start + size) post s.nrPages
  known : Known s (pre ++ post)
  low : 0 < lo
  before : (s.pages (lo - 1)).free = false
  behind : (s.pages s.nrPages).free = false

theorem Hole.start_pos {lo start size : Nat} (h : Hole lo s pre start size post) :
    lo ≤ start ∧ 0 < start ∧ start + size ≤ s.nrPages :=
  ⟨h.front.le, Nat.lt_of_lt_of_le h.low h.front.le, h.back.le⟩

/-- Any span of the pages in between is apart from the others. -/
theorem Hole.apart {lo start size : Nat} (h : Hole lo s pre start size post) (a n : Nat) (free : Bool)
    (low : start ≤ a) (high : a + n ≤ start + size) :
    ∀ x ∈ pre ++ post, PageSpan.Apart ⟨a, n, free⟩ x := by
  intro x hx
  unfold PageSpan.Apart PageSpan.stop
  rcases List.mem_append.mp hx with hx | hx
  · have below := (h.front.bounds x hx).2.2
    unfold PageSpan.stop at below
    exact Or.inr (Nat.le_trans below low)
  · have above := (h.back.bounds x hx).1
    exact Or.inl (Nat.le_trans high above)

/-- The free span of the pages from `start` on, if there are any. -/
def gap (start n : Nat) : List PageSpan := if n = 0 then [] else [⟨start, n, true⟩]

theorem tiled_gap (start n : Nat) : Tiled start (gap start n) (start + n) := by
  unfold gap
  split
  next none' => rw [none']; rfl
  next some' => exact ⟨rfl, Nat.pos_of_ne_zero some', rfl⟩

theorem blocksOf_free {a n : Nat} (free : sp.free = true) (block : blocksOf (pre ++ sp :: post) a n) :
    blocksOf (pre ++ post) a n := by
  rcases List.mem_append.mp block with mem | mem
  · exact List.mem_append_left post mem
  · rcases List.mem_cons.mp mem with same | mem
    · rw [← same] at free
      cases free
    · exact List.mem_append_right pre mem

theorem mem_gap_used {start n a k : Nat} : (⟨a, k, false⟩ : PageSpan) ∉ gap start n := by
  unfold gap
  split <;> simp

theorem Hole.trimFront {lo start size offset : Nat} (h : Hole lo s pre start size post)
    (some' : offset < size) :
    ∃ s', s.trimFront start size offset = some (s', start + offset, size - offset) ∧
      Hole lo s' (pre ++ gap start offset) (start + offset) (size - offset) post ∧
      Spares s s' (blocksOf (pre ++ post)) := by
  obtain ⟨low, page, high⟩ := h.start_pos
  by_cases none' : offset = 0
  · subst none'
    refine ⟨s, by simp [CpuPages.trimFront], ?_, .refl s _⟩
    simpa [gap] using h
  · have pos := Nat.pos_of_ne_zero none'
    obtain ⟨s', freed, known, pages, spares⟩ := h.known.freeSpanNoMerge ⟨start, offset, true⟩ rfl
      page pos (h.apart start offset true (Nat.le_refl _) (by omega))
    have shape : gap start offset = [⟨start, offset, true⟩] := if_neg none'
    simp only at freed pages
    have nr := spares.nrPages
    refine ⟨s', ?_, ⟨?_, by omega, ?_, ?_, h.low, ?_, ?_⟩, spares⟩
    · simp [CpuPages.trimFront, none', freed]
    · exact tiled_append.mpr ⟨start, h.front, tiled_gap start offset⟩
    · rw [nr, show start + offset + (size - offset) = start + size by omega]
      exact h.back
    · refine known.perm ?_
      rw [shape, List.append_assoc]
      exact List.perm_middle.symm
    · rw [pages, markSpan_outside pos (Or.inl (by omega))]
      exact h.before
    · rw [nr, pages, markSpan_outside pos (Or.inr (by omega))]
      exact h.behind

theorem Hole.trimBack {lo start size n : Nat} (h : Hole lo s pre start size post) (pos : 0 < n)
    (fits : n ≤ size) :
    ∃ s', s.trimBack start size n = some s' ∧
      Hole lo s' pre start n (gap (start + n) (size - n) ++ post) ∧
      Spares s s' (blocksOf (pre ++ post)) := by
  obtain ⟨low, page, high⟩ := h.start_pos
  by_cases all : size = n
  · subst all
    refine ⟨s, by simp [CpuPages.trimBack], ?_, .refl s _⟩
    simpa [gap] using h
  · have rest : 0 < size - n := by omega
    obtain ⟨s', freed, known, pages, spares⟩ := h.known.freeSpanNoMerge
      ⟨start + n, size - n, true⟩ rfl (Nat.lt_of_lt_of_le page (Nat.le_add_right _ _)) rest
      (h.apart (start + n) (size - n) true (by omega) (by omega))
    have shape : gap (start + n) (size - n) = [⟨start + n, size - n, true⟩] :=
      if_neg (Nat.ne_of_gt rest)
    simp only at freed pages
    have nr := spares.nrPages
    refine ⟨s', ?_, ⟨h.front, pos, ?_, ?_, h.low, ?_, ?_⟩, spares⟩
    · rw [CpuPages.trimBack, if_pos (by omega)]
      exact freed
    · refine tiled_append.mpr ⟨start + n + (size - n), tiled_gap _ _, ?_⟩
      rw [nr, show start + n + (size - n) = start + size by omega]
      exact h.back
    · refine known.perm ?_
      rw [shape]
      exact List.perm_middle.symm
    · rw [pages, markSpan_outside rest (Or.inl (by omega))]
      exact h.before
    · rw [nr, pages, markSpan_outside rest (Or.inr (by omega))]
      exact h.behind

/-- What is left of the span behind the two trims becomes a block. -/
theorem Hole.takeSpan {lo start size : Nat} (h : Hole lo s pre start size post)
    (coalesced : Coalesced (pre ++ ⟨start, size, false⟩ :: post)) :
    Rep lo (s.takeSpan start size) (pre ++ ⟨start, size, false⟩ :: post) ∧
      Spares s (s.takeSpan start size) (blocksOf (pre ++ post)) := by
  obtain ⟨low, page, high⟩ := h.start_pos
  have apart := h.apart start size false (Nat.le_refl _) (Nat.le_refl _)
  have pos := h.pos
  have same := takeSpan_pages s start size
  refine ⟨⟨?_, ?_, coalesced, h.low, ?_, ?_⟩, rfl, fun _ _ _ => rfl, ?_⟩
  · exact tiled_append.mpr ⟨start, h.front, rfl, pos, h.back⟩
  · refine (h.known.mark ⟨start, size, false⟩ rfl page pos apart same).perm ?_
    exact List.perm_middle.symm
  · rw [(same _).1, markSpan_outside pos (Or.inl (by omega))]
    exact h.before
  · have out : start + size ≤ (s.takeSpan start size).nrPages := high
    rw [(same _).1, markSpan_outside pos (Or.inr out)]
    exact h.behind
  · intro a n block i above below
    have away := apart ⟨a, n, false⟩ block
    unfold PageSpan.Apart PageSpan.stop at away
    simp only at away
    exact takeSpan_outside pos (by omega)

/-- The page in front of the hole tells about the span that ends there. -/
theorem Hole.mergeBefore {lo start size : Nat} (h : Hole lo s pre start size post)
    (coalesced : Coalesced pre) :
    ∃ s' pre' start' size', s.mergeBefore start size = some (s', start', size') ∧
      Hole lo s' pre' start' size' post ∧ Spares s s' (blocksOf (pre ++ post)) ∧ Coalesced pre' ∧
      (∀ b ∈ pre'.getLast?, b.free = false) ∧
      ∀ a n, (⟨a, n, false⟩ : PageSpan) ∈ pre' ↔ ⟨a, n, false⟩ ∈ pre := by
  have stay : (s.pages (start - 1)).free = false → s.mergeBefore start size = some (s, start, size) :=
    fun used => if_neg (by simp [used])
  rcases List.eq_nil_or_concat pre with rfl | ⟨pre', b, rfl⟩
  · have first : start = lo := h.front.symm
    have used : (s.pages (start - 1)).free = false := first ▸ h.before
    exact ⟨s, [], start, size, stay used, h, .refl s _, coalesced, by simp, fun _ _ => Iff.rfl⟩
  · rw [List.concat_eq_append] at h coalesced ⊢
    obtain ⟨mid, front, rfl, bsize, stop⟩ := tiled_append.mp h.front
    replace stop : b.stop = start := stop
    have mem : b ∈ pre' ++ [b] ++ post := by simp
    obtain ⟨-, -, tailFree, tailSize⟩ := h.known.marked b mem
    rw [stop] at tailFree tailSize
    cases free : b.free with
    | false =>
      refine ⟨s, pre' ++ [b], start, size, stay (tailFree.trans free), h, .refl s _, coalesced, ?_,
        fun _ _ => Iff.rfl⟩
      simp [free]
    | true =>
      have chain := List.isChain_append.mp coalesced
      have assoc : pre' ++ [b] ++ post = pre' ++ b :: post := by simp
      have known := h.known
      rw [assoc] at known
      unfold PageSpan.stop at stop
      obtain ⟨unlinked, spares⟩ := known.unlink free
      refine ⟨_, pre', start - b.size, size + b.size, ?_, ⟨?_, ?_, ?_, unlinked, h.low, h.before,
        h.behind⟩, spares.mono ?_, chain.1, ?_, ?_⟩
      · rw [CpuPages.mergeBefore]
        simp only [tailFree, tailSize, free, if_true]
        rw [if_neg (Nat.ne_of_gt bsize)]
        have head : start - 1 - (b.size - 1) = b.start := by omega
        rw [head]
      · rw [show start - b.size = b.start by omega]
        exact front
      · have pos := h.pos
        omega
      · rw [show start - b.size + (size + b.size) = start + size by omega]
        exact h.back
      · intro a n block
        exact blocksOf_free free (assoc ▸ block)
      · intro x hx
        have apart := chain.2.2 x hx b (by simp)
        cases xfree : x.free with
        | false => rfl
        | true => exact absurd ⟨xfree, free⟩ apart
      · intro a n
        rw [List.mem_append, List.mem_singleton]
        refine ⟨Or.inl, ?_⟩
        rintro (mem | rfl)
        · exact mem
        · cases free

theorem Hole.mergeAfter {lo start size : Nat} (h : Hole lo s pre start size post)
    (coalesced : Coalesced post) :
    ∃ s' post' size', s.mergeAfter start size = some (s', size') ∧
      Hole lo s' pre start size' post' ∧ Spares s s' (blocksOf (pre ++ post)) ∧ Coalesced post' ∧
      (∀ b ∈ post'.head?, b.free = false) ∧
      ∀ a n, (⟨a, n, false⟩ : PageSpan) ∈ post' ↔ ⟨a, n, false⟩ ∈ post := by
  have stay : (s.pages (start + size)).free = false → s.mergeAfter start size = some (s, size) :=
    fun used => if_neg (by simp [used])
  cases post with
  | nil =>
    have last : start + size = s.nrPages := h.back
    have used : (s.pages (start + size)).free = false := last ▸ h.behind
    exact ⟨s, [], size, stay used, h, .refl s _, coalesced, by simp, fun _ _ => Iff.rfl⟩
  | cons b post =>
    obtain ⟨first, bsize, back⟩ := h.back
    have mem : b ∈ pre ++ b :: post := List.mem_append_right _ List.mem_cons_self
    obtain ⟨headFree, headSize, -, -⟩ := h.known.marked b mem
    rw [first] at headFree headSize
    cases free : b.free with
    | false =>
      refine ⟨s, b :: post, size, stay (headFree.trans free), h, .refl s _, coalesced, ?_,
        fun _ _ => Iff.rfl⟩
      simp [free]
    | true =>
      have chain := List.isChain_cons.mp coalesced
      unfold PageSpan.stop at back
      obtain ⟨unlinked, spares⟩ := h.known.unlink free
      refine ⟨_, post, size + b.size, ?_, ⟨h.front, ?_, ?_, unlinked, h.low, h.before, h.behind⟩,
        spares.mono fun _ _ => blocksOf_free free, chain.2, ?_, ?_⟩
      · rw [CpuPages.mergeAfter]
        simp only [headFree, headSize, free, if_true]
        rw [if_neg (Nat.ne_of_gt bsize), first]
      · have pos := h.pos
        omega
      · rw [first, Nat.add_assoc] at back
        exact back
      · intro x hx
        have apart := chain.1 x hx
        cases xfree : x.free with
        | false => rfl
        | true => exact absurd ⟨free, xfree⟩ apart
      · intro a n
        rw [List.mem_cons]
        refine ⟨Or.inr, ?_⟩
        rintro (rfl | mem)
        · cases free
        · exact mem

/-- `freeSpan` on pages of no span; the blocks stay. -/
theorem Hole.freeSpan {lo start size : Nat} (h : Hole lo s pre start size post)
    (front : Coalesced pre) (back : Coalesced post) :
    ∃ s' spans, s.freeSpan start size = some s' ∧ Rep lo s' spans ∧
      Spares s s' (blocksOf (pre ++ post)) ∧
      ∀ a n, (⟨a, n, false⟩ : PageSpan) ∈ spans ↔ ⟨a, n, false⟩ ∈ pre ++ post := by
  obtain ⟨s₁, pre', start', size', merged, h, spares₁, front, last, keptFront⟩ := h.mergeBefore front
  obtain ⟨s₂, post', size'', merged', h, spares₂, back, first, keptBack⟩ := h.mergeAfter back
  obtain ⟨low, page, high⟩ := h.start_pos
  have pos := h.pos
  obtain ⟨s₃, freed, known, pages, spares₃⟩ := h.known.freeSpanNoMerge ⟨start', size'', true⟩ rfl
    page pos (h.apart start' size'' true (Nat.le_refl _) (Nat.le_refl _))
  simp only at freed pages
  have nr := spares₃.nrPages
  refine ⟨s₃, pre' ++ ⟨start', size'', true⟩ :: post', ?_, ⟨?_, known.perm List.perm_middle.symm, ?_,
    h.low, ?_, ?_⟩, ?_, ?_⟩
  · simp [CpuPages.freeSpan, merged, merged', freed]
  · refine tiled_append.mpr ⟨start', h.front, rfl, pos, ?_⟩
    rw [nr]
    exact h.back
  · refine List.isChain_append.mpr ⟨front, List.isChain_cons.mpr ⟨?_, back⟩, ?_⟩
    · rintro y hy ⟨-, free⟩
      rw [first y hy] at free
      cases free
    · rintro x hx y - ⟨free, -⟩
      rw [last x hx] at free
      cases free
  · rw [pages, markSpan_outside pos (Or.inl (by omega))]
    exact h.before
  · rw [nr, pages, markSpan_outside pos (Or.inr high)]
    exact h.behind
  · refine spares₁.trans ((spares₂.mono ?_).trans (spares₃.mono ?_))
    · intro a n block
      rw [blocksOf, List.mem_append] at block ⊢
      exact block.imp_left (keptFront a n).mpr
    · intro a n block
      rw [blocksOf, List.mem_append] at block ⊢
      exact block.imp (keptFront a n).mpr (keptBack a n).mpr
  · intro a n
    rw [List.mem_append, List.mem_cons, keptFront, keptBack, List.mem_append]
    simp

end CpuPages

end XiRuntime
