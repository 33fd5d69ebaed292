import XiRuntime.PageSearch

namespace XiRuntime

open LinkRing

namespace CpuPages

variable {s : CpuPages} {spans pre post : List PageSpan} {sp : PageSpan} {lo : Nat}

theorem Coalesced.gap_behind {a n : Nat} (h : Coalesced pre)
    (last : ∀ b ∈ pre.getLast?, b.free = false) : Coalesced (pre ++ gap a n) := by
  unfold gap
  split
  next => simpa using h
  next =>
    refine List.isChain_append.mpr ⟨h, List.isChain_singleton _, ?_⟩
    rintro x hx y - ⟨free, -⟩
    rw [last x hx] at free
    cases free

theorem Coalesced.gap_before {a n : Nat} (h : Coalesced post)
    (first : ∀ b ∈ post.head?, b.free = false) : Coalesced (gap a n ++ post) := by
  unfold gap
  split
  next => simpa using h
  next =>
    refine List.isChain_cons.mpr ⟨?_, h⟩
    rintro y hy ⟨-, free⟩
    rw [first y hy] at free
    cases free

theorem Coalesced.block (front : Coalesced pre) (back : Coalesced post) (used : sp.free = false) :
    Coalesced (pre ++ sp :: post) := by
  refine List.isChain_append.mpr ⟨front, List.isChain_cons.mpr ⟨?_, back⟩, ?_⟩
  · rintro y - ⟨free, -⟩
    rw [used] at free
    cases free
  · rintro x - y hy ⟨-, free⟩
    cases hy
    rw [used] at free
    cases free

/-- What is around a free span is not free. -/
theorem Coalesced.around (h : Coalesced (pre ++ sp :: post)) (free : sp.free = true) :
    (Coalesced pre ∧ ∀ b ∈ pre.getLast?, b.free = false) ∧
      (Coalesced post ∧ ∀ b ∈ post.head?, b.free = false) := by
  obtain ⟨front, behind, between⟩ := List.isChain_append.mp h
  obtain ⟨first, back⟩ := List.isChain_cons.mp behind
  refine ⟨⟨front, fun b hb => ?_⟩, back, fun b hb => ?_⟩
  · have apart := between b hb sp rfl
    cases bfree : b.free with
    | false => rfl
    | true => exact absurd ⟨bfree, free⟩ apart
  · have apart := first b hb
    cases bfree : b.free with
    | false => rfl
    | true => exact absurd ⟨free, bfree⟩ apart

/-- A free span that is unlinked leaves a hole. -/
theorem Rep.unlink (h : Rep lo s (pre ++ sp :: post)) (free : sp.free = true) :
    Hole lo (CpuPages.unlink { s with nrFreePages := s.nrFreePages - sp.size }
      (indexOf sp.size) sp.start) pre sp.start sp.size post ∧
      Spares s (CpuPages.unlink { s with nrFreePages := s.nrFreePages - sp.size }
        (indexOf sp.size) sp.start) (blocksOf (pre ++ post)) := by
  obtain ⟨mid, front, rfl, size, back⟩ := tiled_append.mp h.tiles
  obtain ⟨unlinked, spares⟩ := h.known.unlink free
  exact ⟨⟨front, size, back, unlinked, h.low, h.before, h.behind⟩, spares⟩

/-- So does a block, which is in no list. -/
theorem Rep.hole (h : Rep lo s (pre ++ sp :: post)) (used : sp.free = false) :
    Hole lo s pre sp.start sp.size post := by
  obtain ⟨mid, front, rfl, size, back⟩ := tiled_append.mp h.tiles
  have sub : (pre ++ post).Sublist (pre ++ sp :: post) :=
    (List.sublist_cons_self sp post).append_left pre
  refine ⟨front, size, back, ⟨h.known.separate.sublist sub, h.known.marked.subset sub.subset, ?_, ?_⟩,
    h.low, h.before, h.behind⟩
  · refine Listed.congr h.known.listed fun x xfree => ?_
    rw [List.mem_append, List.mem_append, List.mem_cons]
    constructor
    · rintro (hx | hx)
      · exact Or.inl hx
      · exact Or.inr (Or.inr hx)
    · rintro (hx | rfl | hx)
      · exact Or.inl hx
      · rw [used] at xfree
        cases xfree
      · exact Or.inr hx
  · have counted := h.known.counted
    rw [List.map_append, List.map_cons, List.sum_append, List.sum_cons, freeSize,
      if_neg (by simp [used]), Nat.zero_add] at counted
    rw [counted, List.map_append, List.sum_append]

/-- Room is found for a request if there is any, and the block is cut out of it. -/
theorem Rep.allocateLargeAndTrim {n : Nat} (h : Rep lo s spans) (small : s.nrPages ≤ 2 ^ 30)
    (pos : 0 < n) (trimmer : Nat → Nat → Trim) (wanted : Nat)
    (fits : ∀ a k, n ≤ k → k ≤ s.nrPages → (trimmer a s.nrPages).nrPages = wanted ∧ 0 < wanted ∧
      (trimmer a s.nrPages).offset + wanted ≤ k) :
    ∃ result s' spans', s.allocateLargeAndTrim n trimmer = some (result, s') ∧ Rep lo s' spans' ∧
      Spares s s' (blocksOf spans) ∧
      match result with
      | none => s' = s ∧ spans' = spans ∧ ∀ sp ∈ spans, sp.free = true → sp.size < n
      | some ptr => ∃ sp ∈ spans, sp.free = true ∧ n ≤ sp.size ∧
          ptr = (sp.start + (trimmer sp.start s.nrPages).offset) * pageSize ∧
          (s'.pages (sp.start + (trimmer sp.start s.nrPages).offset)).pool = none ∧
          ∀ a k, (⟨a, k, false⟩ : PageSpan) ∈ spans' ↔ (⟨a, k, false⟩ : PageSpan) ∈ spans ∨
            (a = sp.start + (trimmer sp.start s.nrPages).offset ∧ k = wanted) := by
  have search := h.findAndUnlinkSpan small pos
  rcases found : s.findAndUnlinkSpan n with ⟨⟨⟩⟩ | _ | ⟨x, u⟩
  · rw [found] at search
    exact ⟨none, s, spans, by simp [CpuPages.allocateLargeAndTrim, found], h, .refl s _, rfl, rfl,
      search⟩
  · rw [found] at search
    exact ⟨none, s, spans, by simp [CpuPages.allocateLargeAndTrim, found], h, .refl s _, rfl, rfl,
      search⟩
  · rw [found] at search
    obtain ⟨sp, hsp, free, large, rfl, rfl⟩ := search
    obtain ⟨pre, post, rfl⟩ := List.append_of_mem hsp
    obtain ⟨-, -, stop⟩ := h.tiles.bounds sp hsp
    have within : sp.size ≤ s.nrPages := Nat.le_trans (Nat.le_add_left _ _) stop
    obtain ⟨enough, some', room⟩ := fits sp.start sp.size large within
    have size : (s.pages sp.start).spanSize = sp.size := (h.known.marked sp hsp).2.1
    obtain ⟨⟨front, last⟩, back, first⟩ := Coalesced.around h.coalesced free
    have inside : (trimmer sp.start s.nrPages).offset < sp.size := by omega
    obtain ⟨hole, spares⟩ := h.unlink free
    obtain ⟨s₁, cut₁, hole₁, spares₁⟩ := hole.trimFront inside
    obtain ⟨s₂, cut₂, hole₂, spares₂⟩ := hole₁.trimBack some' (by omega)
    obtain ⟨block, spares₃⟩ := hole₂.takeSpan ((front.gap_behind last).block (back.gap_before first) rfl)
    refine ⟨some ((sp.start + (trimmer sp.start s.nrPages).offset) * pageSize), _, _, ?_, block, ?_,
      sp, hsp, free, large, rfl, takeSpan_pool _ _ _, ?_⟩
    · have cut : CpuPages.trimFront
          { s.unlink (indexOf sp.size) sp.start with
            pages := s.pages
            nrPages := s.nrPages
            nrFreePages := (s.unlink (indexOf sp.size) sp.start).nrFreePages - sp.size }
          sp.start sp.size (trimmer sp.start s.nrPages).offset = _ := cut₁
      have pages : (s.unlink (indexOf sp.size) sp.start).pages = s.pages := rfl
      have count : (s.unlink (indexOf sp.size) sp.start).nrPages = s.nrPages := rfl
      rw [CpuPages.allocateLargeAndTrim, found]
      simp only [pages, count, size, enough, cut, cut₂, Option.bind_eq_bind, Option.bind_some]
    · have kept := spares.trans (spares₁.trans ((spares₂.mono ?_).trans (spares₃.mono ?_)))
      · exact kept.mono fun _ _ => blocksOf_free free
      · intro a k here
        rw [blocksOf, List.mem_append] at here ⊢
        exact here.imp_left (List.mem_append_left _)
      · intro a k here
        rw [blocksOf, List.mem_append] at here ⊢
        exact here.imp (List.mem_append_left _) (List.mem_append_right _)
    · intro a k
      simp only [List.mem_append, List.mem_cons, mem_gap_used, or_false, false_or, PageSpan.mk.injEq,
        and_true]
      have other : (⟨a, k, false⟩ : PageSpan) ≠ sp := by
        rintro rfl
        cases free
      simp only [other, false_or]
      tauto

theorem alignUp_bounds {v align : Nat} (pos : 0 < align) :
    v ≤ alignUp v align ∧ alignUp v align < v + align ∧ align ∣ alignUp v align := by
  have split := Nat.div_add_mod' (v + align - 1) align
  have rest := Nat.mod_lt (v + align - 1) pos
  refine ⟨?_, ?_, Nat.dvd_mul_left _ _⟩
  · unfold alignUp
    omega
  · unfold alignUp
    omega

/-- The pages that a block of that size keeps. -/
theorem alignUp_pages {size n : Nat} (pos : 0 < size) (fits : size ≤ n * pageSize) :
    0 < alignUp size pageSize / pageSize ∧ alignUp size pageSize / pageSize ≤ n ∧
      size ≤ alignUp size pageSize / pageSize * pageSize ∧
      alignUp size pageSize / pageSize * pageSize < size + pageSize := by
  have pages : 0 < pageSize := by decide
  obtain ⟨above, below, -⟩ := alignUp_bounds (v := size) pages
  rw [alignUp, Nat.mul_div_cancel _ pages]
  refine ⟨Nat.div_pos (by omega) pages, ?_, above, below⟩
  have le : (size + pageSize - 1) / pageSize < n + 1 := by
    rw [Nat.div_lt_iff_lt_mul pages, Nat.add_mul]
    omega
  omega

/-- A block is taken back. -/
theorem Rep.freeLarge (h : Rep lo s spans) {start size : Nat}
    (block : (⟨start, size, false⟩ : PageSpan) ∈ spans) :
    ∃ s' spans', s.freeLarge (start * pageSize) = some s' ∧ Rep lo s' spans' ∧
      Spares s s' (blocksOf spans') ∧ ∀ a k, (⟨a, k, false⟩ : PageSpan) ∈ spans' ↔
        (⟨a, k, false⟩ : PageSpan) ∈ spans ∧ a ≠ start := by
  have marked := (h.known.marked _ block).2.1
  obtain ⟨pre, post, rfl⟩ := List.append_of_mem block
  obtain ⟨front, behind, -⟩ := List.isChain_append.mp h.coalesced
  obtain ⟨s', spans', freed, rep, spares, kept⟩ :=
    (h.hole rfl).freeSpan front (List.isChain_cons.mp behind).2
  refine ⟨s', spans', ?_, rep, spares.mono fun a k => (kept a k).mp, fun a k => ?_⟩
  · rw [CpuPages.freeLarge, Nat.mul_div_cancel _ (by decide), marked]
    exact freed
  · rw [kept]
    constructor
    · intro hx
      have sub : (⟨a, k, false⟩ : PageSpan) ∈ pre ++ ⟨start, size, false⟩ :: post :=
        ((List.sublist_cons_self _ post).append_left pre).subset hx
      exact ⟨sub, h.known.separate.start_ne hx⟩
    · rintro ⟨hx, ne⟩
      rcases List.mem_append.mp hx with hx | hx
      · exact List.mem_append_left post hx
      · rcases List.mem_cons.mp hx with same | hx
        · cases same
          exact absurd rfl ne
        · exact List.mem_append_right pre hx

theorem markShrunk_pages {pages : Nat → Page} {start : Nat} (used : (pages start).free = false)
    (n i : Nat) :
    (markShrunk pages start n i).free = (markSpan pages start n false i).free ∧
      (markShrunk pages start n i).spanSize = (markSpan pages start n false i).spanSize ∧
      (markShrunk pages start n i).pool = (pages i).pool := by
  unfold markShrunk markSpan
  by_cases tail : i = start + n - 1
  · subst tail
    by_cases head : start + n - 1 = start
    · simp [head]
    · simp [head]
  · by_cases head : i = start
    · subst head
      simp [Function.update_of_ne tail, used]
    · simp [head, tail]

theorem markShrunk_outside {pages : Nat → Page} {start n i : Nat} (pos : 0 < n)
    (out : i < start ∨ start + n ≤ i) : markShrunk pages start n i = pages i := by
  have head : i ≠ start := by omega
  have tail : i ≠ start + n - 1 := by omega
  rw [markShrunk, Function.update_of_ne tail, Function.update_of_ne head]

/-- A block gives its last pages back. -/
theorem Rep.shrink (h : Rep lo s spans) {start size newSize : Nat}
    (block : (⟨start, size, false⟩ : PageSpan) ∈ spans) (pool : (s.pages start).pool = none)
    (pos : 0 < alignUp newSize pageSize / pageSize)
    (fits : alignUp newSize pageSize / pageSize ≤ size) :
    ∃ s' spans', s.shrink (start * pageSize) newSize = some s' ∧ Rep lo s' spans' ∧
      Spares s s' (fun a k => blocksOf spans a k ∧ a ≠ start) ∧ (s'.pages start).pool = none ∧
      ∀ a k, (⟨a, k, false⟩ : PageSpan) ∈ spans' ↔
        if a = start then k = alignUp newSize pageSize / pageSize
        else (⟨a, k, false⟩ : PageSpan) ∈ spans := by
  obtain ⟨headFree, marked, -, -⟩ := h.known.marked _ block
  simp only at headFree marked
  generalize target : alignUp newSize pageSize / pageSize = n at pos fits ⊢
  have unfolded : s.shrink (start * pageSize) newSize = if n = size then some s
      else freeSpan { s with pages := markShrunk s.pages start n } (start + n) (size - n) := by
    rw [CpuPages.shrink, Nat.mul_div_cancel _ (by decide), pool]
    simp only [Option.isSome_none, Bool.false_eq_true, if_false, marked, target]
    rw [if_neg (by omega)]
  have unique : ∀ a k, a = start → (⟨a, k, false⟩ : PageSpan) ∈ spans → k = size := by
    intro a k here hk
    have same := h.known.separate.eq_of_start hk block here
    cases same
    rfl
  rw [unfolded]
  by_cases all : n = size
  · subst all
    refine ⟨s, spans, if_pos rfl, h, .refl s _, pool, fun a k => ?_⟩
    split
    next here =>
      subst here
      exact ⟨unique a k rfl, fun same => same ▸ block⟩
    next => exact Iff.rfl
  · rw [if_neg all]
    obtain ⟨pre, post, rfl⟩ := List.append_of_mem block
    have hole := h.hole rfl
    obtain ⟨low, page, high⟩ := hole.start_pos
    simp only at page high low
    obtain ⟨front, behind, between⟩ := List.isChain_append.mp h.coalesced
    obtain ⟨-, back⟩ := List.isChain_cons.mp behind
    have same := markShrunk_pages headFree n
    have known := hole.known.mark ⟨start, n, false⟩ rfl page pos
      (hole.apart start n false (Nat.le_refl _) (by simp only; omega))
      fun i => ⟨(same i).1, (same i).2.1⟩
    have rest : Hole lo { s with pages := markShrunk s.pages start n } (pre ++ [⟨start, n, false⟩])
        (start + n) (size - n) post := by
      refine ⟨tiled_append.mpr ⟨start, hole.front, rfl, pos, rfl⟩, by omega, ?_, ?_, h.low, ?_, ?_⟩
      · rw [show start + n + (size - n) = start + size by omega]
        exact hole.back
      · rw [List.append_assoc]
        exact known.perm List.perm_middle.symm
      · show (markShrunk s.pages start n (lo - 1)).free = false
        have before := h.low
        rw [(same _).1, markSpan_outside pos (Or.inl (by omega))]
        exact h.before
      · show (markShrunk s.pages start n s.nrPages).free = false
        rw [(same _).1, markSpan_outside pos (Or.inr (by omega))]
        exact h.behind
    have chain : Coalesced (pre ++ [⟨start, n, false⟩]) :=
      Coalesced.block front List.isChain_nil rfl
    obtain ⟨s', spans', freed, rep, spares, kept⟩ := rest.freeSpan chain back
    have around : ∀ a k, blocksOf (pre ++ ⟨start, size, false⟩ :: post) a k → a ≠ start →
        blocksOf (pre ++ post) a k := by
      intro a k mem ne
      rcases List.mem_append.mp mem with mem | mem
      · exact List.mem_append_left post mem
      · rcases List.mem_cons.mp mem with same | mem
        · cases same
          exact absurd rfl ne
        · exact List.mem_append_right pre mem
    refine ⟨s', spans', freed, rep, ⟨spares.nrPages, ?_, ?_⟩, ?_, fun a k => ?_⟩
    · rintro a k ⟨mem, ne⟩
      refine spares.links a k ?_
      have mem := around a k mem ne
      rw [blocksOf, List.mem_append] at mem ⊢
      exact mem.imp_left (List.mem_append_left _)
    · rintro a k ⟨mem, ne⟩ i above below
      have mem := around a k mem ne
      have apart := hole.apart start size false (Nat.le_refl _) (Nat.le_refl _) _ mem
      unfold PageSpan.Apart PageSpan.stop at apart
      simp only at apart
      have kept := spares.pages a k (by
        rw [blocksOf, List.mem_append] at mem ⊢
        exact mem.imp_left (List.mem_append_left _)) i above below
      rw [kept]
      exact markShrunk_outside pos (by omega)
    · have kept := spares.pages start n (by
        rw [blocksOf, List.mem_append]
        exact Or.inl (List.mem_append_right pre List.mem_cons_self)) start (Nat.le_refl _) (by omega)
      rw [kept]
      exact (same start).2.2.trans pool
    have other : ∀ x ∈ pre ++ post, x.start ≠ start := fun x hx => h.known.separate.start_ne hx
    rw [kept, List.append_assoc, List.mem_append, List.mem_append, List.mem_singleton]
    split
    next here =>
      subst here
      constructor
      · rintro (hx | same | hx)
        · exact absurd rfl (other _ (List.mem_append_left post hx))
        · cases same
          rfl
        · exact absurd rfl (other _ (List.mem_append_right pre hx))
      · rintro rfl
        exact Or.inr (Or.inl rfl)
    next ne =>
      rw [List.mem_append, List.mem_cons]
      simp only [PageSpan.mk.injEq, ne, false_and]

end CpuPages

end XiRuntime
