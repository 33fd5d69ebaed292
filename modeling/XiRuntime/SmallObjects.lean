import XiRuntime.PageRuns
import XiRuntime.Slab
import XiRuntime.SmallPool

namespace XiRuntime

open LinkRing CpuPages SmallPool

/-- What is written to other fields, and to the links of blocks. -/
theorem CpuPages.Rep.congr {lo : Nat} {s s' : CpuPages} {spans : List PageSpan} (h : Rep lo s spans)
    (nr : s'.nrPages = s.nrPages) (count : s'.nrFreePages = s.nrFreePages)
    (lists : s'.freeSpans = s.freeSpans)
    (pages : ∀ i, (s'.pages i).free = (s.pages i).free ∧ (s'.pages i).spanSize = (s.pages i).spanSize)
    (links : ∀ sp ∈ spans, sp.free = true → s'.links sp.start = s.links sp.start) : Rep lo s' spans := by
  refine ⟨?_, ⟨h.known.separate, h.known.marked.congr pages, ?_, ?_⟩, h.coalesced, h.low, ?_, ?_⟩
  · rw [nr]
    exact h.tiles
  · unfold Listed
    rw [lists]
    refine Rings.frame h.known.listed ?_
    rintro i x ⟨sp, hsp, free, -, rfl⟩
    exact links sp hsp free
  · rw [count]
    exact h.known.counted
  · rw [(pages _).1]
    exact h.before
  · rw [nr, (pages _).1]
    exact h.behind

/-- What holds of the classes of a cpu; the offsets of pages fit into 8 bits, and the numbers of
objects into 16. -/
structure SizeClass.Sound (c : SizeClass) : Prop where
  object : 0 < c.objectSize
  span : 0 < c.spanSize ∧ c.spanSize < 2 ^ 8
  objects : 0 < c.perSpan ∧ c.perSpan < 2 ^ 16
  goal : 0 < c.goal
  cache : c.maxFree ≤ c.goal + c.perSpan

theorem SmallPool.sizeClass_sound {p : Nat} (h : p < nrSmallPools) : (sizeClass p).Sound := by
  have all : ∀ p < nrSmallPools, 0 < (sizeClass p).objectSize ∧
      (0 < (sizeClass p).spanSize ∧ (sizeClass p).spanSize < 2 ^ 8) ∧
      (0 < (sizeClass p).perSpan ∧ (sizeClass p).perSpan < 2 ^ 16) ∧ 0 < (sizeClass p).goal ∧
      (sizeClass p).maxFree ≤ (sizeClass p).goal + (sizeClass p).perSpan := by
    decide +kernel
  obtain ⟨object, span, objects, goal, cache⟩ := all p h
  exact ⟨object, span, objects, goal, cache⟩

namespace CpuMemory

def frees (m : CpuMemory) : Nat → List Nat := SmallPool.free ∘ m.pools

def freeCounts (m : CpuMemory) : Nat → Nat := SmallPool.freeCount ∘ m.pools

def spanLists (m : CpuMemory) : Nat → PageList := SmallPool.spanList ∘ m.pools

def freelists (m : CpuMemory) : Nat → List Nat := Page.freelist ∘ m.cpu.pages

def smallAllocs (m : CpuMemory) : Nat → Nat := Page.nrSmallAlloc ∘ m.cpu.pages

section Fields

variable (m : CpuMemory) (p span n : Nat) (free : List Nat) (done : (Nat → Link Nat) × PageList)

@[simp] theorem setFree_cpu : (m.setFree p free n).cpu = m.cpu := rfl

@[simp] theorem setFree_frees : (m.setFree p free n).frees = Function.update m.frees p free :=
  Function.comp_update _ _ _ _

@[simp] theorem setFree_freeCounts :
    (m.setFree p free n).freeCounts = Function.update m.freeCounts p n :=
  Function.comp_update _ _ _ _

@[simp] theorem setFree_spanLists : (m.setFree p free n).spanLists = m.spanLists := by
  refine (Function.comp_update _ _ _ _).trans ?_
  exact Function.update_eq_self p m.spanLists

@[simp] theorem setFree_freelists : (m.setFree p free n).freelists = m.freelists := rfl

@[simp] theorem setObjects_frees : (m.setObjects span free n).frees = m.frees := rfl

@[simp] theorem setObjects_freeCounts : (m.setObjects span free n).freeCounts = m.freeCounts := rfl

@[simp] theorem setObjects_spanLists : (m.setObjects span free n).spanLists = m.spanLists := rfl

@[simp] theorem setObjects_links : (m.setObjects span free n).cpu.links = m.cpu.links := rfl

@[simp] theorem setObjects_freelists :
    (m.setObjects span free n).freelists = Function.update m.freelists span free :=
  Function.comp_update _ _ _ _

@[simp] theorem setObjects_smallAllocs :
    (m.setObjects span free n).smallAllocs = Function.update m.smallAllocs span n :=
  Function.comp_update _ _ _ _

@[simp] theorem setSpanList_links : (m.setSpanList p done).cpu.links = done.1 := rfl

@[simp] theorem setSpanList_freelists : (m.setSpanList p done).freelists = m.freelists := rfl

@[simp] theorem setSpanList_smallAllocs : (m.setSpanList p done).smallAllocs = m.smallAllocs := rfl

@[simp] theorem setSpanList_frees : (m.setSpanList p done).frees = m.frees := by
  refine (Function.comp_update _ _ _ _).trans ?_
  exact Function.update_eq_self p m.frees

@[simp] theorem setSpanList_freeCounts : (m.setSpanList p done).freeCounts = m.freeCounts := by
  refine (Function.comp_update _ _ _ _).trans ?_
  exact Function.update_eq_self p m.freeCounts

@[simp] theorem setSpanList_spanLists :
    (m.setSpanList p done).spanLists = Function.update m.spanLists p done.2 :=
  Function.comp_update _ _ _ _

@[simp] theorem toPool_frees : (m.toPool p span free).frees =
    Function.update m.frees p (free.reverse ++ m.frees p) := setFree_frees _ _ _ _

@[simp] theorem toPool_freeCounts : (m.toPool p span free).freeCounts =
    Function.update m.freeCounts p (m.freeCounts p + free.length) := setFree_freeCounts _ _ _ _

@[simp] theorem toPool_spanLists : (m.toPool p span free).spanLists = m.spanLists :=
  setFree_spanLists _ _ _ _

@[simp] theorem toPool_links : (m.toPool p span free).cpu.links = m.cpu.links := rfl

@[simp] theorem toPool_freelists :
    (m.toPool p span free).freelists = Function.update m.freelists span [] :=
  setObjects_freelists _ _ _ _

@[simp] theorem toPool_smallAllocs : (m.toPool p span free).smallAllocs =
    Function.update m.smallAllocs span ((m.smallAllocs span + free.length) % 2 ^ 16) :=
  setObjects_smallAllocs _ _ _ _

end Fields

variable {pages : Nat → Page} {m m' : CpuMemory} {spans : List PageSpan} {out out' : List Nat}
  {p p' start x a : Nat}

/-- A span that a pool has. -/
def Owned (pages : Nat → Page) (spans : List PageSpan) (p start : Nat) : Prop :=
  blocksOf spans start (sizeClass p).spanSize ∧ (pages start).pool = some p

/-- A block that no pool has. -/
def Large (pages : Nat → Page) (spans : List PageSpan) (start n : Nat) : Prop :=
  blocksOf spans start n ∧ (pages start).pool = none

def IsObject (pages : Nat → Page) (spans : List PageSpan) (p start a : Nat) : Prop :=
  Owned pages spans p start ∧ a ∈ objects p start

/-- What the pages of a pool's span say. -/
structure Pooled (pages : Nat → Page) (p start size : Nat) : Prop where
  index : p < nrSmallPools
  whole : size = (sizeClass p).spanSize
  inside : ∀ i < size, (pages (start + i)).pool = some p ∧ (pages (start + i)).offsetInSpan = i

/-- The spans of pools; the list of each has those with objects in their freelists. -/
structure Sane (m : CpuMemory) (spans : List PageSpan) (out : List Nat) : Prop where
  rep : Rep (reserved bootPages) m.cpu spans
  nrPages : m.cpu.nrPages = bootPages
  pooled : ∀ p start size, blocksOf spans start size → (m.cpu.pages start).pool = some p →
    Pooled m.cpu.pages p start size
  placed : Slab.Placed (IsObject m.cpu.pages spans) out m.frees m.freelists
  allocs : ∀ p start, Owned m.cpu.pages spans p start →
    m.smallAllocs start + (m.freelists start).length = (sizeClass p).perSpan
  counts : m.freeCounts = List.length ∘ m.frees
  rings : Rings m.spanLists m.cpu.links
    fun p start => Owned m.cpu.pages spans p start ∧ m.freelists start ≠ []

theorem Sane.pooled_of (h : Sane m spans out) (own : Owned m.cpu.pages spans p start) :
    Pooled m.cpu.pages p start (sizeClass p).spanSize := h.pooled p start _ own.1 own.2

theorem Sane.sound (h : Sane m spans out) (own : Owned m.cpu.pages spans p start) :
    (sizeClass p).Sound := sizeClass_sound (h.pooled_of own).index

theorem Owned.eq (own : Owned pages spans p start) (own' : Owned pages spans p' start) : p = p' :=
  Option.some.inj (own.2.symm.trans own'.2)

theorem mem_objects : a ∈ objects p start ↔ ∃ k < (sizeClass p).perSpan, a = object p start k := by
  rw [objects, List.mem_map]
  constructor
  · rintro ⟨k, hk, rfl⟩
    exact ⟨k, List.mem_range.mp hk, rfl⟩
  · rintro ⟨k, hk, rfl⟩
    exact ⟨k, List.mem_range.mpr hk, rfl⟩

theorem length_objects (p start : Nat) : (objects p start).length = (sizeClass p).perSpan := by
  rw [objects, List.length_map, List.length_range]

theorem object_bounds (mem : a ∈ objects p start) :
    start * pageSize ≤ a ∧
      a + (sizeClass p).objectSize ≤ (start + (sizeClass p).spanSize) * pageSize := by
  obtain ⟨k, hk, rfl⟩ := mem_objects.mp mem
  have whole : (sizeClass p).perSpan * (sizeClass p).objectSize ≤ (sizeClass p).spanBytes :=
    Nat.div_mul_le_self _ _
  have below : (k + 1) * (sizeClass p).objectSize ≤ (sizeClass p).perSpan * (sizeClass p).objectSize :=
    Nat.mul_le_mul_right _ hk
  unfold SizeClass.spanBytes at whole
  unfold object
  rw [Nat.add_mul] at below ⊢
  omega

theorem object_page (sound : (sizeClass p).Sound) (mem : a ∈ objects p start) :
    start ≤ a / pageSize ∧ a / pageSize < start + (sizeClass p).spanSize := by
  obtain ⟨low, high⟩ := object_bounds mem
  have size := sound.object
  refine ⟨(Nat.le_div_iff_mul_le (by decide)).mpr low, (Nat.div_lt_iff_lt_mul (by decide)).mpr ?_⟩
  omega

/-- Two objects of a span do not overlap. -/
theorem objects_apart {b : Nat} (ha : a ∈ objects p start) (hb : b ∈ objects p start) (ne : a ≠ b) :
    a + (sizeClass p).objectSize ≤ b ∨ b + (sizeClass p).objectSize ≤ a := by
  obtain ⟨i, -, rfl⟩ := mem_objects.mp ha
  obtain ⟨j, -, rfl⟩ := mem_objects.mp hb
  unfold object
  rcases Nat.lt_trichotomy i j with lt | rfl | lt
  · have le : (i + 1) * (sizeClass p).objectSize ≤ j * (sizeClass p).objectSize :=
      Nat.mul_le_mul_right _ lt
    rw [Nat.add_mul] at le
    omega
  · exact absurd rfl ne
  · have le : (j + 1) * (sizeClass p).objectSize ≤ i * (sizeClass p).objectSize :=
      Nat.mul_le_mul_right _ lt
    rw [Nat.add_mul] at le
    omega

theorem objects_nodup (sound : (sizeClass p).Sound) (start : Nat) : (objects p start).Nodup := by
  refine List.Nodup.map ?_ List.nodup_range
  intro k k' same
  have equal : k * (sizeClass p).objectSize = k' * (sizeClass p).objectSize := by
    unfold object at same
    omega
  exact Nat.eq_of_mul_eq_mul_right sound.object equal

/-- The page of an object leads to its span. -/
theorem Sane.page_of (h : Sane m spans out) (obj : IsObject m.cpu.pages spans p start a) :
    (m.cpu.pages (a / pageSize)).pool = some p ∧
      a / pageSize - (m.cpu.pages (a / pageSize)).offsetInSpan = start := by
  obtain ⟨own, mem⟩ := obj
  obtain ⟨above, below⟩ := object_page (h.sound own) mem
  obtain ⟨pool, offset⟩ := (h.pooled_of own).inside (a / pageSize - start) (by omega)
  rw [show start + (a / pageSize - start) = a / pageSize by omega] at pool offset
  exact ⟨pool, by omega⟩

theorem Sane.some_object (h : Sane m spans out) (own : Owned m.cpu.pages spans p start) :
    IsObject m.cpu.pages spans p start (object p start 0) :=
  ⟨own, mem_objects.mpr ⟨0, (h.sound own).objects.1, rfl⟩⟩

theorem Sane.perm (h : Sane m spans out) (same : out.Perm out') : Sane m spans out' :=
  ⟨h.rep, h.nrPages, h.pooled, h.placed.perm same, h.allocs, h.counts, h.rings⟩

/-- What the work on a pool's spans leaves alone. -/
structure SpansKept (s s' : CpuPages) (spans : List PageSpan) : Prop where
  nrPages : s'.nrPages = s.nrPages
  count : s'.nrFreePages = s.nrFreePages
  lists : s'.freeSpans = s.freeSpans
  marks : ∀ i, (s'.pages i).free = (s.pages i).free ∧ (s'.pages i).spanSize = (s.pages i).spanSize
  pools : ∀ i, (s'.pages i).pool = (s.pages i).pool ∧
    (s'.pages i).offsetInSpan = (s.pages i).offsetInSpan
  links : ∀ sp ∈ spans, sp.free = true → s'.links sp.start = s.links sp.start

theorem SpansKept.refl (s : CpuPages) (spans : List PageSpan) : SpansKept s s spans :=
  ⟨rfl, rfl, rfl, fun _ => ⟨rfl, rfl⟩, fun _ => ⟨rfl, rfl⟩, fun _ _ _ => rfl⟩

theorem SpansKept.trans {s s' s'' : CpuPages} (h : SpansKept s s' spans) (h' : SpansKept s' s'' spans) :
    SpansKept s s'' spans := by
  refine ⟨h'.nrPages.trans h.nrPages, h'.count.trans h.count, h'.lists.trans h.lists, ?_, ?_, ?_⟩
  · intro i
    exact ⟨(h'.marks i).1.trans (h.marks i).1, (h'.marks i).2.trans (h.marks i).2⟩
  · intro i
    exact ⟨(h'.pools i).1.trans (h.pools i).1, (h'.pools i).2.trans (h.pools i).2⟩
  · intro sp hsp free
    exact (h'.links sp hsp free).trans (h.links sp hsp free)

theorem kept_setObjects (m : CpuMemory) (span : Nat) (freelist : List Nat) (n : Nat) :
    SpansKept m.cpu (m.setObjects span freelist n).cpu spans := by
  refine ⟨rfl, rfl, rfl, ?_, ?_, fun _ _ _ => rfl⟩
  · intro i
    by_cases here : i = span
    · subst here
      simp [setObjects, setPages]
    · simp [setObjects, setPages, here]
  · intro i
    by_cases here : i = span
    · subst here
      simp [setObjects, setPages]
    · simp [setObjects, setPages, here]

theorem Owned.congr {pages' : Nat → Page} (same : (pages' start).pool = (pages start).pool) :
    Owned pages' spans p start ↔ Owned pages spans p start := by
  unfold Owned
  rw [same]

theorem Sane.not_owned (h : Sane m spans out) {sp : PageSpan} (hsp : sp ∈ spans) (free : sp.free = true)
    (p : Nat) : ¬ Owned m.cpu.pages spans p sp.start := by
  rintro ⟨block, -⟩
  have same := h.rep.known.separate.eq_of_start hsp block rfl
  rw [same] at free
  cases free

/-- Writing the links of spans that pools have. -/
theorem Sane.kept_setSpanList (h : Sane m spans out) (p : Nat) (done : (Nat → Link Nat) × PageList)
    (others : ∀ y, y ≠ 0 → (∀ p, ¬ Owned m.cpu.pages spans p y) → done.1 y = m.cpu.links y) :
    SpansKept m.cpu (m.setSpanList p done).cpu spans := by
  refine ⟨rfl, rfl, rfl, fun _ => ⟨rfl, rfl⟩, fun _ => ⟨rfl, rfl⟩, ?_⟩
  intro sp hsp free
  have page := (h.rep.known.separate.page sp hsp).1
  exact others sp.start (Nat.ne_of_gt page) (h.not_owned hsp free)

/-- The pools have the spans that they had. -/
theorem Sane.rebuild (h : Sane m spans out) (kept : SpansKept m.cpu m'.cpu spans)
    (placed : Slab.Placed (IsObject m.cpu.pages spans) out' m'.frees m'.freelists)
    (allocs : ∀ p x, Owned m.cpu.pages spans p x →
      m'.smallAllocs x + (m'.freelists x).length = (sizeClass p).perSpan)
    (counts : m'.freeCounts = List.length ∘ m'.frees)
    (rings : Rings m'.spanLists m'.cpu.links
      fun p x => Owned m.cpu.pages spans p x ∧ m'.freelists x ≠ []) : Sane m' spans out' := by
  have owned : ∀ p x, Owned m'.cpu.pages spans p x ↔ Owned m.cpu.pages spans p x :=
    fun p x => Owned.congr (kept.pools x).1
  refine ⟨h.rep.congr kept.nrPages kept.count kept.lists kept.marks kept.links,
    kept.nrPages.trans h.nrPages, ?_, ?_, ?_, counts, ?_⟩
  · intro p start size block pool
    rw [(kept.pools _).1] at pool
    obtain ⟨index, whole, inside⟩ := h.pooled p start size block pool
    refine ⟨index, whole, ?_⟩
    intro i hi
    rw [(kept.pools _).1, (kept.pools _).2]
    exact inside i hi
  · exact placed.congr (fun p x a => and_congr_left fun _ => owned p x) fun _ _ _ _ => rfl
  · intro p x own
    exact allocs p x ((owned p x).mp own)
  · exact rings.congr fun p x => and_congr_left fun _ => owned p x

/-- Objects come and go between a pool's free list and the outside. -/
theorem Sane.setFree (h : Sane m spans out) {free : List Nat} {n : Nat}
    (placed : Slab.Placed (IsObject m.cpu.pages spans) out' (Function.update m.frees p free)
      m.freelists)
    (count : n = free.length) : Sane (m.setFree p free n) spans out' := by
  refine h.rebuild (.refl _ _) ?_ h.allocs ?_ ?_
  · rw [setFree_frees]
    exact placed
  · rw [setFree_frees, setFree_freeCounts, h.counts, count]
    exact (Function.comp_update _ _ _ _).symm
  · rw [setFree_spanLists]
    exact h.rings

theorem Sane.rings_apart (m : CpuMemory) (spans : List PageSpan) : ∀ p q x,
    Owned m.cpu.pages spans p x ∧ m.freelists x ≠ [] →
    Owned m.cpu.pages spans q x ∧ m.freelists x ≠ [] → p = q :=
  fun _ _ _ own own' => own.1.eq own'.1

/-- The freelist of the first span goes to the pool. -/
theorem Sane.takeFreelist (h : Sane m spans out) (filled : (m.spanLists p).isEmpty = false)
    (first : (m.spanLists p).front = x) :
    Sane ((m.setSpanList p ((m.spanLists p).popFront m.cpu.links)).toPool p x (m.freelists x))
        spans out ∧
      SpansKept m.cpu ((m.setSpanList p ((m.spanLists p).popFront m.cpu.links)).toPool p x
        (m.freelists x)).cpu spans ∧
      Owned m.cpu.pages spans p x ∧ m.freelists x ≠ [] := by
  obtain ⟨⟨own, some'⟩, rings, others⟩ := h.rings.popFront p filled (Sane.rings_apart m spans)
  rw [first] at own some' rings
  have objects := (h.sound own).objects.2
  generalize (m.spanLists p).popFront m.cpu.links = done at rings others ⊢
  have kept : SpansKept m.cpu ((m.setSpanList p done).toPool p x (m.freelists x)).cpu spans := by
    refine (h.kept_setSpanList p done fun y page none' => ?_).trans (kept_setObjects _ _ _ _)
    exact others y page fun mine => none' p mine.1
  refine ⟨h.rebuild kept ?_ ?_ ?_ ?_, kept, own, some'⟩
  · have taken := h.placed.take (h.some_object own)
    simpa using taken
  · intro q y own'
    rw [toPool_smallAllocs, toPool_freelists, setSpanList_smallAllocs, setSpanList_freelists]
    by_cases here : y = x
    · subst here
      have all := h.allocs q y own'
      rw [own.eq own'] at objects
      rw [Function.update_self, Function.update_self, all, Nat.mod_eq_of_lt objects]
      rfl
    · rw [Function.update_of_ne here, Function.update_of_ne here]
      exact h.allocs q y own'
  · rw [toPool_freeCounts, toPool_frees, Function.comp_update, setSpanList_freeCounts, setSpanList_frees,
      h.counts, List.length_append, List.length_reverse, Function.comp_apply, Nat.add_comm]
  · rw [toPool_spanLists, toPool_links, toPool_freelists, setSpanList_spanLists, setSpanList_links,
      setSpanList_freelists]
    refine rings.congr fun q y => ?_
    by_cases here : y = x
    · subst here
      simp
    · simp [here]

/-- A span that an object is missing of has counted it. -/
theorem Sane.smallAllocs_pos (h : Sane m spans out) (obj : IsObject m.cpu.pages spans p x a)
    (missing : a ∉ m.freelists x) : 0 < m.smallAllocs x := by
  by_contra zero
  have all := h.allocs p x obj.1
  refine missing (h.placed.full (objects p x) ?_ ?_ a obj)
  · intro b
    exact ⟨And.right, fun mem => ⟨obj.1, mem⟩⟩
  · rw [length_objects]
    omega

/-- The list of the pool's spans has this one when an object goes back to it. -/
theorem Sane.enlist (h : Sane m spans out) (own : Owned m.cpu.pages spans p x) (a : Nat) :
    ∃ m₁ : CpuMemory, m.toSpan p x a = m₁.setObjects x (a :: m.freelists x)
        ((m.smallAllocs x + (2 ^ 16 - 1)) % 2 ^ 16) ∧
      SpansKept m.cpu m₁.cpu spans ∧ m₁.frees = m.frees ∧ m₁.freeCounts = m.freeCounts ∧
      m₁.freelists = m.freelists ∧ m₁.smallAllocs = m.smallAllocs ∧
      Rings m₁.spanLists m₁.cpu.links fun q y =>
        Owned m.cpu.pages spans q y ∧ (y = x ∨ m.freelists y ≠ []) := by
  by_cases empty : (m.cpu.pages x).freelist = []
  · have page : 0 < x := (h.rep.known.separate.page _ own.1).1
    obtain ⟨rings, others⟩ := h.rings.pushFront p (Nat.ne_of_gt page)
      (fun _ mine => mine.2 empty) (Sane.rings_apart m spans)
    refine ⟨m.setSpanList p ((m.spanLists p).pushFront m.cpu.links x), ?_, ?_, setSpanList_frees _ _ _,
      setSpanList_freeCounts _ _ _, rfl, rfl, ?_⟩
    · unfold CpuMemory.toSpan
      rw [if_pos empty]
      rfl
    · refine h.kept_setSpanList p _ fun y node none' => ?_
      refine others y node ?_ fun mine => none' p mine.1
      rintro rfl
      exact none' p own
    · rw [setSpanList_spanLists, setSpanList_links]
      refine Rings.congr rings fun q y => ?_
      constructor
      · rintro ⟨own', rfl | filled⟩
        · exact Or.inl ⟨own'.eq own, rfl⟩
        · exact Or.inr ⟨own', filled⟩
      · rintro (⟨rfl, rfl⟩ | ⟨own', filled⟩)
        · exact ⟨own, Or.inl rfl⟩
        · exact ⟨own', Or.inr filled⟩
  · refine ⟨m, ?_, .refl _ _, rfl, rfl, rfl, rfl, ?_⟩
    · unfold CpuMemory.toSpan
      rw [if_neg empty]
      rfl
    · refine h.rings.congr fun q y => and_congr_right fun _ => ?_
      constructor
      · rintro (rfl | filled)
        · exact empty
        · exact filled
      · exact Or.inr

/-- An object goes back to its span. -/
theorem Sane.toSpan (h : Sane m spans (a :: out)) (obj : IsObject m.cpu.pages spans p x a) :
    Sane (m.toSpan p x a) spans out ∧ SpansKept m.cpu (m.toSpan p x a).cpu spans ∧
      (m.toSpan p x a).frees = m.frees ∧
      (m.toSpan p x a).freelists = Function.update m.freelists x (a :: m.freelists x) := by
  have own := obj.1
  have missing : a ∉ m.freelists x := fun mem =>
    (h.placed.elsewhere obj mem).1 List.mem_cons_self
  have some' := h.smallAllocs_pos obj missing
  have all := h.allocs p x own
  have bound := (h.sound own).objects.2
  obtain ⟨m₁, same, kept, frees, counts, freelists, allocs, rings⟩ := h.enlist own a
  have kept := kept.trans (kept_setObjects m₁ x (a :: m.freelists x)
    ((m.smallAllocs x + (2 ^ 16 - 1)) % 2 ^ 16))
  rw [same]
  refine ⟨h.rebuild kept ?_ ?_ ?_ ?_, kept, ?_, ?_⟩
  · rw [setObjects_frees, setObjects_freelists, frees, freelists]
    exact h.placed.store obj
  · intro q y own'
    rw [setObjects_smallAllocs, setObjects_freelists, allocs, freelists]
    by_cases here : y = x
    · subst here
      rw [Function.update_self, Function.update_self, List.length_cons, ← own.eq own']
      omega
    · rw [Function.update_of_ne here, Function.update_of_ne here]
      exact h.allocs q y own'
  · rw [setObjects_freeCounts, setObjects_frees, counts, frees]
    exact h.counts
  · rw [setObjects_spanLists, setObjects_links, setObjects_freelists, freelists]
    refine rings.congr fun q y => and_congr_right fun _ => ?_
    by_cases here : y = x
    · subst here
      simp
    · simp [here]
  · rw [setObjects_frees, frees]
  · rw [setObjects_freelists, freelists]

end CpuMemory

end XiRuntime
