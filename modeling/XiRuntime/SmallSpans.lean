import XiRuntime.SmallObjects

namespace XiRuntime

open LinkRing CpuPages SmallPool

namespace CpuMemory

variable {s s' cpu : CpuPages} {m : CpuMemory} {spans spans' : List PageSpan} {out : List Nat}
  {p start n : Nat}

/-- Work on the pages that changes one block at most, and gives it to no pool. -/
structure Reblocked (s s' : CpuPages) (spans spans' : List PageSpan) (start : Nat) : Prop where
  rep : Rep (reserved bootPages) s' spans'
  spares : Spares s s' fun a k => blocksOf spans a k ∧ a ≠ start
  blocks : ∀ a k, a ≠ start → (blocksOf spans' a k ↔ blocksOf spans a k)
  pool : ∀ k, blocksOf spans' start k → (s'.pages start).pool = none

theorem Reblocked.page (h : Reblocked s s' spans spans' start) (sep : Separate spans) {a k : Nat}
    (block : blocksOf spans a k) (other : a ≠ start) : s'.pages a = s.pages a :=
  h.spares.pages a k ⟨block, other⟩ a (Nat.le_refl _) (Nat.lt_add_of_pos_right (sep.page _ block).2)

theorem Reblocked.owned (h : Reblocked s s' spans spans' start) (sep : Separate spans) (p x : Nat) :
    Owned s'.pages spans' p x ↔ Owned s.pages spans p x ∧ x ≠ start := by
  constructor
  · rintro ⟨block, pool⟩
    have other : x ≠ start := by
      rintro rfl
      rw [h.pool _ block] at pool
      cases pool
    have old := (h.blocks x _ other).mp block
    rw [h.page sep old other] at pool
    exact ⟨⟨old, pool⟩, other⟩
  · rintro ⟨⟨block, pool⟩, other⟩
    rw [← h.page sep block other] at pool
    exact ⟨(h.blocks x _ other).mpr block, pool⟩

theorem Reblocked.large (h : Reblocked s s' spans spans' start) (sep : Separate spans) {a : Nat}
    (other : a ≠ start) (k : Nat) : Large s'.pages spans' a k ↔ Large s.pages spans a k := by
  unfold Large
  rw [h.blocks a k other]
  refine and_congr_right fun block => ?_
  rw [h.page sep block other]

theorem Reblocked.freelists (h : Reblocked m.cpu cpu spans spans' start) (sep : Separate spans) {x : Nat}
    (own : Owned m.cpu.pages spans p x) (other : x ≠ start) :
    (CpuMemory.mk cpu m.pools).freelists x = m.freelists x := by
  show (cpu.pages x).freelist = (m.cpu.pages x).freelist
  rw [h.page sep own.1 other]

/-- What the blocks that stay carry over to the pools. -/
theorem Reblocked.sane (h : Reblocked m.cpu cpu spans spans' start) (sep : Separate spans)
    (nr : m.cpu.nrPages = bootPages)
    (pooled : ∀ p start size, blocksOf spans start size → (m.cpu.pages start).pool = some p →
      Pooled m.cpu.pages p start size)
    (placed : Slab.Placed (fun p y a => IsObject m.cpu.pages spans p y a ∧ y ≠ start) out m.frees
      m.freelists)
    (allocs : ∀ p start, Owned m.cpu.pages spans p start →
      m.smallAllocs start + (m.freelists start).length = (sizeClass p).perSpan)
    (counts : m.freeCounts = List.length ∘ m.frees)
    (rings : Rings m.spanLists m.cpu.links
      fun p y => (Owned m.cpu.pages spans p y ∧ m.freelists y ≠ []) ∧ y ≠ start) :
    Sane ⟨cpu, m.pools⟩ spans' out := by
  have lists : ∀ p x, Owned m.cpu.pages spans p x → x ≠ start →
      (CpuMemory.mk cpu m.pools).freelists x = m.freelists x :=
    fun _ _ own other => h.freelists sep own other
  refine ⟨h.rep, h.spares.nrPages.trans nr, ?_, ?_, ?_, counts, ?_⟩
  · intro p a k block pool
    have other : a ≠ start := by
      rintro rfl
      rw [h.pool k block] at pool
      cases pool
    have old := (h.blocks a k other).mp block
    rw [show (CpuMemory.mk cpu m.pools).cpu.pages a = m.cpu.pages a from h.page sep old other] at pool
    obtain ⟨index, whole, inside⟩ := pooled p a k old pool
    refine ⟨index, whole, fun i hi => ?_⟩
    show (cpu.pages (a + i)).pool = some p ∧ (cpu.pages (a + i)).offsetInSpan = i
    rw [h.spares.pages a k ⟨old, other⟩ (a + i) (Nat.le_add_right _ _) (Nat.add_lt_add_left hi a)]
    exact inside i hi
  · refine placed.congr (fun p x a => ?_) fun p x a obj => lists p x obj.1.1 obj.2
    unfold IsObject
    rw [show Owned (CpuMemory.mk cpu m.pools).cpu.pages spans' p x ↔ _ from h.owned sep p x]
    exact and_right_comm
  · intro p x own
    obtain ⟨old, other⟩ := (h.owned sep p x).mp own
    have same := h.page sep old.1 other
    have all := allocs p x old
    show (cpu.pages x).nrSmallAlloc + (cpu.pages x).freelist.length = _
    rw [same]
    exact all
  · refine (Rings.frame rings ?_).congr fun p x => ?_
    · rintro p x ⟨⟨own, -⟩, other⟩
      exact h.spares.links x _ ⟨own.1, other⟩
    · rw [show Owned (CpuMemory.mk cpu m.pools).cpu.pages spans' p x ↔ _ from h.owned sep p x]
      constructor
      · rintro ⟨⟨own, other⟩, some'⟩
        rw [lists p x own other] at some'
        exact ⟨⟨own, some'⟩, other⟩
      · rintro ⟨⟨own, some'⟩, other⟩
        rw [← lists p x own other] at some'
        exact ⟨⟨own, other⟩, some'⟩

/-- Blocks that no pool has come and go. -/
theorem Sane.reblock (h : Sane m spans out) (work : Reblocked m.cpu cpu spans spans' start)
    (free : ∀ p, ¬ Owned m.cpu.pages spans p start) : Sane ⟨cpu, m.pools⟩ spans' out := by
  have away : ∀ p x, Owned m.cpu.pages spans p x → x ≠ start := by
    rintro p x own rfl
    exact free p own
  refine work.sane h.rep.known.separate h.nrPages h.pooled ?_ h.allocs h.counts ?_
  · refine h.placed.congr (fun p x a => ?_) fun _ _ _ _ => rfl
    exact and_iff_left_of_imp fun obj => away p x obj.1
  · refine h.rings.congr fun p x => ?_
    exact and_iff_left_of_imp fun mine => away p x mine.1

theorem Sane.not_owned_large (large : Large m.cpu.pages spans start n) (p : Nat) :
    ¬ Owned m.cpu.pages spans p start := by
  rintro ⟨-, pool⟩
  rw [large.2] at pool
  cases pool

/-- No span has all of its objects in its freelist. -/
def Busy (m : CpuMemory) (spans : List PageSpan) : Prop :=
  ∀ p start, Owned m.cpu.pages spans p start → (m.freelists start).length < (sizeClass p).perSpan

/-- What calls of the pools leave to the others. -/
structure Carried (m m' : CpuMemory) (spans spans' : List PageSpan) (out : List Nat) : Prop where
  objects : ∀ p x a, a ∈ out → IsObject m.cpu.pages spans p x a → IsObject m'.cpu.pages spans' p x a
  large : ∀ start n, Large m'.cpu.pages spans' start n ↔ Large m.cpu.pages spans start n

theorem Carried.of_kept {m' : CpuMemory} (kept : SpansKept m.cpu m'.cpu spans) (out : List Nat) :
    Carried m m' spans spans out := by
  constructor
  · rintro p x a - ⟨own, mem⟩
    exact ⟨(Owned.congr (kept.pools x).1).mpr own, mem⟩
  · intro start n
    unfold Large
    rw [(kept.pools start).1]

theorem Carried.setFree (m : CpuMemory) (p : Nat) (free : List Nat) (n : Nat) (spans : List PageSpan)
    (out : List Nat) : Carried m (m.setFree p free n) spans spans out := by
  refine .of_kept ?_ out
  exact SpansKept.refl m.cpu spans

theorem Carried.trans {m' m'' : CpuMemory} {spans'' : List PageSpan} (h : Carried m m' spans spans' out)
    (h' : Carried m' m'' spans' spans'' out) : Carried m m'' spans spans'' out := by
  constructor
  · intro p x a mem obj
    exact h'.objects p x a mem (h.objects p x a mem obj)
  · intro start n
    exact (h'.large start n).trans (h.large start n)

theorem Rep.freed (h : Rep (reserved bootPages) s spans) (block : blocksOf spans start n) :
    ∃ s' spans', s.freeLarge (start * pageSize) = some s' ∧ Reblocked s s' spans spans' start ∧
      ∀ k, ¬ blocksOf spans' start k := by
  obtain ⟨s', spans', freed, rep, spares, blocks⟩ := h.freeLarge block
  have gone : ∀ k, ¬ blocksOf spans' start k := fun k here => ((blocks start k).mp here).2 rfl
  refine ⟨s', spans', freed, ⟨rep, spares.mono fun a k here => (blocks a k).mpr here, ?_, ?_⟩, gone⟩
  · intro a k other
    exact (blocks a k).trans (and_iff_left other)
  · intro k here
    exact absurd here (gone k)

/-- The first part of giving up a span. -/
theorem Sane.unlist (h : Sane m spans out) (own : Owned m.cpu.pages spans p start)
    (some' : m.freelists start ≠ []) (done : (Nat → Link Nat) × PageList)
    (erased : (m.spanLists p).erase m.cpu.links start = done) :
    Rep (reserved bootPages) (m.setSpanList p done).cpu spans ∧
      Rings (m.setSpanList p done).spanLists (m.setSpanList p done).cpu.links
        fun q y => (Owned m.cpu.pages spans q y ∧ m.freelists y ≠ []) ∧ y ≠ start := by
  obtain ⟨rings, others⟩ := h.rings.erase p ⟨own, some'⟩ (Sane.rings_apart m spans)
  rw [erased] at rings others
  have kept := h.kept_setSpanList p done
    fun y node none' => others y node fun mine => none' p mine.1
  refine ⟨h.rep.congr kept.nrPages kept.count kept.lists kept.marks kept.links, ?_⟩
  rw [setSpanList_spanLists]
  exact rings

/-- A span that all objects are back in is given up. -/
theorem Sane.releaseSpan (h : Sane m spans out) (own : Owned m.cpu.pages spans p start)
    (idle : m.smallAllocs start = 0) :
    ∃ m' spans', m.releaseSpan p start = some m' ∧ Sane m' spans' out ∧ m'.frees = m.frees ∧
      Carried m m' spans spans' out ∧ ∀ q y, Owned m'.cpu.pages spans' q y →
        Owned m.cpu.pages spans q y ∧ y ≠ start ∧ m'.freelists y = m.freelists y := by
  have all := h.allocs p start own
  rw [idle, Nat.zero_add] at all
  have full : ∀ q a, IsObject m.cpu.pages spans q start a → a ∈ m.freelists start := by
    intro q a obj
    rw [obj.1.eq own] at obj
    refine h.placed.full (objects p start) ?_ ?_ a obj
    · intro b
      exact ⟨And.right, fun mem => ⟨own, mem⟩⟩
    · rw [length_objects]
      exact all
  have some' : m.freelists start ≠ [] := by
    have pos := (h.sound own).objects.1
    rw [← all] at pos
    exact List.ne_nil_of_length_pos pos
  have sep := h.rep.known.separate
  generalize erased : (m.spanLists p).erase m.cpu.links start = done
  obtain ⟨rep, rings⟩ := h.unlist own some' done erased
  obtain ⟨cpu, spans', freed, work, gone⟩ := Rep.freed rep own.1
  rw [CpuPages.freeLarge, Nat.mul_div_cancel _ (by decide)] at freed
  refine ⟨⟨cpu, (m.setSpanList p done).pools⟩, spans', ?_,
    work.sane sep h.nrPages h.pooled ?_ h.allocs ?_ ?_, setSpanList_frees _ _ _, ⟨?_, ?_⟩, ?_⟩
  · have taken : (m.pools p).spanList.erase m.cpu.links start = done := erased
    rw [CpuMemory.releaseSpan, taken]
    simp only [freed, Option.bind_eq_bind, Option.bind_some]
  · rw [setSpanList_frees]
    exact h.placed.remove full
  · rw [setSpanList_frees, setSpanList_freeCounts]
    exact h.counts
  · exact rings
  · rintro q y a mem ⟨own', there⟩
    refine ⟨(work.owned sep q y).mpr ⟨own', ?_⟩, there⟩
    rintro rfl
    exact (h.placed.elsewhere ⟨own', there⟩ (full q a ⟨own', there⟩)).1 mem
  · intro a k
    by_cases here : a = start
    · subst here
      constructor
      · rintro ⟨block, -⟩
        exact absurd block (gone k)
      · rintro ⟨-, pool⟩
        rw [own.2] at pool
        cases pool
    · exact work.large sep here k
  · intro q y own'
    obtain ⟨old, other⟩ := (work.owned sep q y).mp own'
    refine ⟨old, other, ?_⟩
    show (cpu.pages y).freelist = (m.cpu.pages y).freelist
    rw [work.page sep old.1 other]
    rfl

theorem adopt_same (pages : Nat → Page) (p start i : Nat) :
    (adopt pages p start i).free = (pages i).free ∧
      (adopt pages p start i).spanSize = (pages i).spanSize ∧
      (adopt pages p start i).freelist = (pages i).freelist ∧
      (adopt pages p start i).nrSmallAlloc = (pages i).nrSmallAlloc := by
  unfold adopt
  split
  next => exact ⟨rfl, rfl, rfl, rfl⟩
  next => exact ⟨rfl, rfl, rfl, rfl⟩

theorem adopt_outside {pages : Nat → Page} {i : Nat}
    (out : i < start ∨ start + (sizeClass p).spanSize ≤ i) : adopt pages p start i = pages i :=
  if_neg (by omega)

theorem adopt_inside (pages : Nat → Page) {i : Nat} (above : start ≤ i)
    (below : i < start + (sizeClass p).spanSize) :
    (adopt pages p start i).pool = some p ∧
      (adopt pages p start i).offsetInSpan = (i - start) % 2 ^ 8 := by
  rw [adopt, if_pos ⟨above, below⟩]
  exact ⟨rfl, rfl⟩

theorem kept_cutSpan (m : CpuMemory) (p start : Nat) (spans : List PageSpan) :
    SpansKept (m.setPages (adopt m.cpu.pages p start)).cpu (m.cutSpan p start).cpu spans :=
  (kept_setObjects _ _ _ _).trans (kept_setObjects _ _ _ _)

theorem cutSpan_freelists (m : CpuMemory) (p start : Nat) :
    (m.cutSpan p start).freelists = Function.update m.freelists start [] := by
  have same : (m.setPages (adopt m.cpu.pages p start)).freelists = m.freelists := by
    funext i
    exact (adopt_same m.cpu.pages p start i).2.2.1
  rw [CpuMemory.cutSpan, toPool_freelists, setObjects_freelists, same, Function.update_idem]

theorem cutSpan_smallAllocs (m : CpuMemory) (p start : Nat) : (m.cutSpan p start).smallAllocs =
    Function.update m.smallAllocs start ((sizeClass p).perSpan % 2 ^ 16) := by
  have same : (m.setPages (adopt m.cpu.pages p start)).smallAllocs = m.smallAllocs := by
    funext i
    exact (adopt_same m.cpu.pages p start i).2.2.2
  rw [CpuMemory.cutSpan, toPool_smallAllocs, setObjects_smallAllocs, same, Function.update_idem,
    Function.update_self, length_objects, Nat.zero_add]

theorem cutSpan_frees (m : CpuMemory) (p start : Nat) : (m.cutSpan p start).frees =
    Function.update m.frees p ((objects p start).reverse ++ m.frees p) := toPool_frees _ _ _ _

theorem cutSpan_freeCounts (m : CpuMemory) (p start : Nat) : (m.cutSpan p start).freeCounts =
    Function.update m.freeCounts p (m.freeCounts p + (objects p start).length) :=
  toPool_freeCounts _ _ _ _

theorem cutSpan_spanLists (m : CpuMemory) (p start : Nat) :
    (m.cutSpan p start).spanLists = m.spanLists :=
  toPool_spanLists _ _ _ _

/-- A block apart from another one keeps its pages. -/
theorem cutSpan_away (sep : Separate spans)
    (large : Large m.cpu.pages spans start (sizeClass p).spanSize)
    {a k i : Nat} (block : blocksOf spans a k) (other : a ≠ start) (hi : i < k) :
    ((m.cutSpan p start).cpu.pages (a + i)).pool = (m.cpu.pages (a + i)).pool ∧
      ((m.cutSpan p start).cpu.pages (a + i)).offsetInSpan = (m.cpu.pages (a + i)).offsetInSpan := by
  have apart := sep.mem_apart block large.1 (by
    intro same
    cases same
    exact other rfl)
  unfold PageSpan.Apart PageSpan.stop at apart
  simp only at apart
  have kept := (kept_cutSpan m p start spans).pools (a + i)
  have same : adopt m.cpu.pages p start (a + i) = m.cpu.pages (a + i) := adopt_outside (by omega)
  rw [kept.1, kept.2]
  show (adopt m.cpu.pages p start (a + i)).pool = _ ∧
    (adopt m.cpu.pages p start (a + i)).offsetInSpan = _
  rw [same]
  exact ⟨rfl, rfl⟩

/-- The pools have the new span, and no other one. -/
theorem cutSpan_pool (sep : Separate spans)
    (large : Large m.cpu.pages spans start (sizeClass p).spanSize)
    {a k : Nat} (block : blocksOf spans a k) :
    ((m.cutSpan p start).cpu.pages a).pool = if a = start then some p else (m.cpu.pages a).pool := by
  split
  next here =>
    subst here
    have pos := (sep.page _ large.1).2
    rw [((kept_cutSpan m p a spans).pools a).1]
    exact (adopt_inside m.cpu.pages (Nat.le_refl a) (Nat.lt_add_of_pos_right pos)).1
  next other =>
    exact (cutSpan_away sep large (i := 0) block other (sep.page _ block).2).1

theorem cutSpan_owned (sep : Separate spans)
    (large : Large m.cpu.pages spans start (sizeClass p).spanSize)
    (q x : Nat) : Owned (m.cutSpan p start).cpu.pages spans q x ↔
      Owned m.cpu.pages spans q x ∨ (q = p ∧ x = start) := by
  constructor
  · rintro ⟨block, pool⟩
    rw [cutSpan_pool sep large block] at pool
    split at pool
    next here => exact Or.inr ⟨(Option.some.inj pool).symm, here⟩
    next => exact Or.inl ⟨block, pool⟩
  · rintro (⟨block, pool⟩ | ⟨rfl, rfl⟩)
    · have other : x ≠ start := by
        rintro rfl
        rw [large.2] at pool
        cases pool
      refine ⟨block, ?_⟩
      rw [cutSpan_pool sep large block, if_neg other]
      exact pool
    · refine ⟨large.1, ?_⟩
      rw [cutSpan_pool sep large large.1, if_pos rfl]

theorem cutSpan_large (sep : Separate spans)
    (large : Large m.cpu.pages spans start (sizeClass p).spanSize)
    (a k : Nat) : Large (m.cutSpan p start).cpu.pages spans a k ↔
      Large m.cpu.pages spans a k ∧ a ≠ start := by
  unfold Large
  rw [and_assoc]
  refine and_congr_right fun block => ?_
  rw [cutSpan_pool sep large block]
  split
  next here => simp [here]
  next other => simp [other]

/-- What lies in a block that no pool has is no object. -/
theorem Sane.objects_fresh (h : Sane m spans out) (sound : (sizeClass p).Sound)
    (large : Large m.cpu.pages spans start (sizeClass p).spanSize) {a : Nat} (mem : a ∈ objects p start)
    (q x : Nat) : ¬ IsObject m.cpu.pages spans q x a := by
  rintro ⟨own, there⟩
  have here := object_page sound mem
  have same := object_page (h.sound own) there
  have apart := h.rep.known.separate.mem_apart own.1 large.1 (by
    intro equal
    obtain rfl : x = start := congrArg PageSpan.start equal
    exact Sane.not_owned_large large q own)
  unfold PageSpan.Apart PageSpan.stop at apart
  simp only at apart
  omega

/-- A block that no pool has is cut into objects. -/
theorem Sane.cutSpan (h : Sane m spans out)
    (large : Large m.cpu.pages spans start (sizeClass p).spanSize)
    (index : p < nrSmallPools) : Sane (m.cutSpan p start) spans out := by
  have sep := h.rep.known.separate
  have sound := sizeClass_sound index
  have kept := kept_cutSpan m p start spans
  have owned := cutSpan_owned sep large
  have fresh : ∀ q, ¬ Owned m.cpu.pages spans q start := Sane.not_owned_large large
  refine ⟨?_, ?_, ?_, ?_, ?_, ?_, ?_⟩
  · refine h.rep.congr kept.nrPages kept.count kept.lists (fun i => ?_) kept.links
    have marks := kept.marks i
    have same := adopt_same m.cpu.pages p start i
    exact ⟨marks.1.trans same.1, marks.2.trans same.2.1⟩
  · exact kept.nrPages.trans h.nrPages
  · intro q a k block pool
    by_cases here : a = start
    · subst here
      have same := sep.eq_of_start block large.1 rfl
      cases same
      rw [cutSpan_pool sep large block, if_pos rfl] at pool
      cases pool
      refine ⟨index, rfl, fun i hi => ?_⟩
      have inside := adopt_inside m.cpu.pages (Nat.le_add_right a i) (Nat.add_lt_add_left hi a)
      have width := sound.span.2
      rw [Nat.add_sub_cancel_left, Nat.mod_eq_of_lt (Nat.lt_trans hi width)] at inside
      exact ⟨((kept.pools _).1).trans inside.1, ((kept.pools _).2).trans inside.2⟩
    · rw [cutSpan_pool sep large block, if_neg here] at pool
      obtain ⟨index, whole, inside⟩ := h.pooled q a k block pool
      refine ⟨index, whole, fun i hi => ?_⟩
      obtain ⟨pools, offsets⟩ := cutSpan_away sep large block here hi
      rw [pools, offsets]
      exact inside i hi
  · rw [cutSpan_frees, cutSpan_freelists]
    refine (h.placed.add (objects_nodup sound start) (fun q a obj => fresh q obj.1)
      fun a mem => h.objects_fresh sound large mem).congr (fun q x a => ?_) fun _ _ _ _ => rfl
    unfold IsObject
    rw [owned, or_and_right, and_assoc]
    refine or_congr Iff.rfl ?_
    constructor
    · rintro ⟨rfl, rfl, mem⟩
      exact ⟨rfl, rfl, mem⟩
    · rintro ⟨rfl, rfl, mem⟩
      exact ⟨rfl, rfl, mem⟩
  · intro q x own
    rw [cutSpan_smallAllocs, cutSpan_freelists]
    rcases (owned q x).mp own with old | ⟨rfl, rfl⟩
    · have other : x ≠ start := by
        rintro rfl
        exact fresh q old
      rw [Function.update_of_ne other, Function.update_of_ne other]
      exact h.allocs q x old
    · rw [Function.update_self, Function.update_self, Nat.mod_eq_of_lt sound.objects.2]
      rfl
  · rw [cutSpan_freeCounts, cutSpan_frees, Function.comp_update, h.counts, List.length_append,
      List.length_reverse, Function.comp_apply, Nat.add_comm]
  · rw [cutSpan_spanLists, show (m.cutSpan p start).cpu.links = m.cpu.links from rfl, cutSpan_freelists]
    refine h.rings.congr fun q x => ?_
    rw [owned]
    by_cases here : x = start
    · subst here
      simp [fresh]
    · simp [here]

end CpuMemory

end XiRuntime
