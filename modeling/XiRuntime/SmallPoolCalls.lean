import XiRuntime.SmallSpans

namespace XiRuntime

open LinkRing CpuPages SmallPool

namespace CpuMemory

variable {s : CpuPages} {m m' : CpuMemory} {spans spans' : List PageSpan} {out : List Nat} {p a n : Nat}

/-- What a request for pages gets: nothing if no free span has as many as it asks for, or else a
block of its own. -/
def Granted (s s' : CpuPages) (spans spans' : List PageSpan) (asked align n : Nat) : Option Nat → Prop
  | none => s' = s ∧ spans' = spans ∧ ∀ sp ∈ spans, sp.free = true → sp.size < asked
  | some ptr => ∃ start, ptr = start * pageSize ∧ align ∣ start ∧ Reblocked s s' spans spans' start ∧
      Large s'.pages spans' start n ∧ ∀ k, ¬ blocksOf spans start k

theorem Rep.granted (h : Rep (reserved bootPages) s spans) (nr : s.nrPages = bootPages)
    {asked align : Nat} (pos : 0 < asked) (trimmer : Nat → Nat → Trim) {wanted : Nat}
    (fits : ∀ a k, asked ≤ k → k ≤ s.nrPages → (trimmer a s.nrPages).nrPages = wanted ∧ 0 < wanted ∧
      (trimmer a s.nrPages).offset + wanted ≤ k)
    (aligned : ∀ a, align ∣ a + (trimmer a s.nrPages).offset) :
    ∃ result s' spans', s.allocateLargeAndTrim asked trimmer = some (result, s') ∧
      Granted s s' spans spans' asked align wanted result := by
  have small : s.nrPages ≤ 2 ^ 30 := by
    rw [nr]
    decide
  obtain ⟨result, s', spans', taken, rep, spares, spec⟩ :=
    h.allocateLargeAndTrim small pos trimmer wanted fits
  refine ⟨result, s', spans', taken, ?_⟩
  cases result with
  | none => exact spec
  | some ptr =>
    obtain ⟨sp, hsp, free, large, rfl, pool, blocks⟩ := spec
    obtain ⟨-, -, stop⟩ := h.tiles.bounds sp hsp
    obtain ⟨-, some', room⟩ := fits sp.start sp.size large (Nat.le_trans (Nat.le_add_left _ _) stop)
    have fresh : ∀ k, ¬ blocksOf spans (sp.start + (trimmer sp.start s.nrPages).offset) k := by
      intro k block
      have apart := h.known.separate.mem_apart hsp block (by
        intro same
        rw [same] at free
        cases free)
      have size := (h.known.separate.page _ block).2
      unfold PageSpan.Apart PageSpan.stop at apart
      simp only at apart size
      omega
    refine ⟨_, rfl, aligned sp.start,
      ⟨rep, spares.mono fun _ _ => And.left, ?_, fun _ _ => pool⟩, ⟨?_, pool⟩, fresh⟩
    · intro a k other
      refine (blocks a k).trans (or_iff_left ?_)
      rintro ⟨same, -⟩
      exact other same
    · exact (blocks _ _).mpr (Or.inr ⟨rfl, rfl⟩)

theorem Rep.allocateLarge (h : Rep (reserved bootPages) s spans) (nr : s.nrPages = bootPages)
    (pos : 0 < n) : ∃ result s' spans', s.allocateLarge n = some (result, s') ∧
      Granted s s' spans spans' n 1 n result := by
  refine Rep.granted h nr pos (fun _ pages => ⟨0, min pages n⟩) ?_ fun _ => Nat.one_dvd _
  intro a k le within
  refine ⟨Nat.min_eq_right (Nat.le_trans le within), pos, ?_⟩
  simp only
  omega

theorem Rep.allocateLargeAligned (h : Rep (reserved bootPages) s spans) (nr : s.nrPages = bootPages)
    {align : Nat} (pos : 0 < n) (some' : 0 < align) :
    ∃ result s' spans', s.allocateLargeAligned align n = some (result, s') ∧
      Granted s s' spans spans' (n + align - 1) align n result := by
  refine Rep.granted h nr (by omega) (fun idx _ => ⟨alignUp idx align - idx, n⟩) ?_ ?_
  · intro a k le _
    obtain ⟨-, above, -⟩ := alignUp_bounds (v := a) some'
    refine ⟨rfl, pos, ?_⟩
    simp only
    omega
  · intro a
    obtain ⟨below, -, dvd⟩ := alignUp_bounds (v := a) some'
    simp only
    rw [Nat.add_sub_cancel' below]
    exact dvd

/-- What a pool that gets more objects keeps. -/
structure Filled (p : Nat) (m m' : CpuMemory) (spans spans' : List PageSpan) (out : List Nat) :
    Prop where
  sane : Sane m' spans' out
  busy : Busy m' spans'
  carried : Carried m m' spans spans' out
  others : ∀ q, q ≠ p → m'.frees q = m.frees q
  more : (m.frees p).length ≤ (m'.frees p).length
  cached : (m.frees p).length < (sizeClass p).goal + (sizeClass p).perSpan →
    (m'.frees p).length < (sizeClass p).goal + (sizeClass p).perSpan

theorem Filled.refl (h : Sane m spans out) (busy : Busy m spans) : Filled p m m spans spans out :=
  ⟨h, busy, .of_kept (.refl _ _) out, fun _ _ => rfl, Nat.le_refl _, id⟩

theorem Filled.trans {m'' : CpuMemory} {spans'' : List PageSpan} (h : Filled p m m' spans spans' out)
    (h' : Filled p m' m'' spans' spans'' out) : Filled p m m'' spans spans'' out := by
  refine ⟨h'.sane, h'.busy, h.carried.trans h'.carried, ?_, Nat.le_trans h.more h'.more, ?_⟩
  · intro q other
    exact (h'.others q other).trans (h.others q other)
  · exact fun small => h'.cached (h.cached small)

theorem Sane.freeCount (h : Sane m spans out) (p : Nat) : (m.pools p).freeCount = (m.frees p).length :=
  congrFun h.counts p

/-- A round of the first loop of `add_more_objects`. -/
theorem Sane.takeRound (h : Sane m spans out) (busy : Busy m spans)
    (filled : (m.spanLists p).isEmpty = false) (few : (m.frees p).length < (sizeClass p).goal) :
    let span := (m.spanLists p).front
    let m' := (m.setSpanList p ((m.spanLists p).popFront m.cpu.links)).toPool p span (m.freelists span)
    Filled p m m' spans spans out ∧ (m.frees p).length < (m'.frees p).length := by
  intro span m'
  obtain ⟨sane, kept, own, some'⟩ := h.takeFreelist filled (x := span) rfl
  have frees : m'.frees = Function.update m.frees p ((m.freelists span).reverse ++ m.frees p) := by
    rw [toPool_frees, setSpanList_frees]
  have here : (m'.frees p).length = (m.freelists span).length + (m.frees p).length := by
    rw [frees, Function.update_self, List.length_append, List.length_reverse]
  have pos := List.length_pos_of_ne_nil some'
  have all := h.allocs p span own
  refine ⟨⟨sane, ?_, .of_kept kept out, ?_, by omega, fun _ => by omega⟩, by omega⟩
  · intro q y own'
    have old := (Owned.congr (kept.pools y).1).mp own'
    show (m'.freelists y).length < _
    rw [show m'.freelists = Function.update m.freelists span [] from by
      rw [toPool_freelists, setSpanList_freelists]]
    by_cases same : y = span
    · rw [same, Function.update_self]
      exact (h.sound old).objects.1
    · rw [Function.update_of_ne same]
      exact busy q y old
  · intro q other
    rw [frees, Function.update_of_ne other]

theorem Sane.takeFreelists (h : Sane m spans out) (busy : Busy m spans) (p rounds : Nat)
    (enough : (sizeClass p).goal ≤ (m.frees p).length + rounds) :
    Filled p m (takeFreelists p rounds m) spans spans out ∧
      (((takeFreelists p rounds m).spanLists p).isEmpty = true ∨
        (sizeClass p).goal ≤ ((takeFreelists p rounds m).frees p).length) := by
  induction rounds generalizing m with
  | zero => exact ⟨.refl h busy, Or.inr enough⟩
  | succ rounds ih =>
    unfold CpuMemory.takeFreelists
    simp only
    rw [h.freeCount p]
    split
    next again =>
      obtain ⟨filled, few⟩ := again
      obtain ⟨round, more⟩ := h.takeRound busy filled few
      obtain ⟨rest, stopped⟩ := ih round.sane round.busy (by omega)
      exact ⟨round.trans rest, stopped⟩
    next stop =>
      refine ⟨.refl h busy, ?_⟩
      rw [not_and_or, Bool.not_eq_false, Nat.not_lt] at stop
      exact stop

/-- A round of the second loop of `add_more_objects`. -/
theorem Sane.addRound (h : Sane m spans out) (busy : Busy m spans) (index : p < nrSmallPools)
    (few : (m.frees p).length < (sizeClass p).goal) {cpu : CpuPages} {ptr : Nat}
    (granted : Granted m.cpu cpu spans spans' (sizeClass p).spanSize 1 (sizeClass p).spanSize
      (some ptr)) :
    Filled p m ((CpuMemory.mk cpu m.pools).cutSpan p (ptr / pageSize)) spans spans' out ∧
      (m.frees p).length < (((CpuMemory.mk cpu m.pools).cutSpan p (ptr / pageSize)).frees p).length := by
  obtain ⟨start, rfl, -, work, large, fresh⟩ := granted
  rw [Nat.mul_div_cancel start (by decide)]
  have sep := h.rep.known.separate
  have free : ∀ q, ¬ Owned m.cpu.pages spans q start := fun q own => fresh _ own.1
  have sane := h.reblock work free
  have sep' := sane.rep.known.separate
  have owned := cutSpan_owned (m := ⟨cpu, m.pools⟩) sep' large
  have frees := cutSpan_frees ⟨cpu, m.pools⟩ p start
  have pos := (sizeClass_sound index).objects.1
  have here : (((CpuMemory.mk cpu m.pools).cutSpan p start).frees p).length =
      (sizeClass p).perSpan + (m.frees p).length := by
    rw [frees, Function.update_self, List.length_append, List.length_reverse, length_objects]
    rfl
  refine ⟨⟨sane.cutSpan large index, ?_, ⟨?_, ?_⟩, ?_, by omega, fun _ => by omega⟩, by omega⟩
  · intro q y own
    rw [cutSpan_freelists]
    rcases (owned q y).mp own with own | ⟨rfl, rfl⟩
    · obtain ⟨old, other⟩ := (work.owned sep q y).mp own
      rw [Function.update_of_ne other, work.freelists sep old other]
      exact busy q y old
    · rw [Function.update_self]
      exact pos
  · rintro q y b - ⟨own, mem⟩
    have other : y ≠ start := by
      rintro rfl
      exact free q own
    exact ⟨(owned q y).mpr (Or.inl ((work.owned sep q y).mpr ⟨own, other⟩)), mem⟩
  · intro b k
    rw [cutSpan_large (m := ⟨cpu, m.pools⟩) sep' large]
    by_cases same : b = start
    · subst same
      constructor
      · rintro ⟨-, other⟩
        exact absurd rfl other
      · rintro ⟨block, -⟩
        exact absurd block (fresh k)
    · rw [and_iff_left same]
      exact work.large sep same k
  · intro q other
    rw [frees, Function.update_of_ne other]
    rfl

theorem Sane.addSpans (h : Sane m spans out) (busy : Busy m spans) (index : p < nrSmallPools)
    (rounds : Nat) (enough : (sizeClass p).goal ≤ (m.frees p).length + rounds) :
    ∃ m' spans', addSpans p rounds m = some m' ∧ Filled p m m' spans spans' out ∧
      m'.spanLists = m.spanLists ∧ ((sizeClass p).goal ≤ (m'.frees p).length ∨
        ∀ sp ∈ spans', sp.free = true → sp.size < (sizeClass p).spanSize) := by
  induction rounds generalizing m spans with
  | zero => exact ⟨m, spans, rfl, .refl h busy, rfl, Or.inl enough⟩
  | succ rounds ih =>
    unfold CpuMemory.addSpans
    rw [h.freeCount p]
    split
    next few =>
      obtain ⟨result, cpu, spans', taken, granted⟩ :=
        Rep.allocateLarge h.rep h.nrPages (sizeClass_sound index).span.1
      simp only [taken, Option.bind_eq_bind, Option.bind_some]
      cases result with
      | none =>
        obtain ⟨rfl, rfl, full⟩ := granted
        exact ⟨m, spans', rfl, .refl h busy, rfl, Or.inr full⟩
      | some ptr =>
        obtain ⟨round, more⟩ := h.addRound busy index few granted
        obtain ⟨m', spans'', added, rest, lists, stopped⟩ := ih round.sane round.busy (by omega)
        refine ⟨m', spans'', added, round.trans rest, ?_, stopped⟩
        rw [lists, cutSpan_spanLists]
        rfl
    next stop =>
      exact ⟨m, spans, rfl, .refl h busy, rfl, Or.inl (Nat.not_lt.mp stop)⟩

/-- The pools between two calls. -/
structure Tidy (m : CpuMemory) (spans : List PageSpan) (out : List Nat) : Prop where
  sane : Sane m spans out
  busy : Busy m spans
  cached : ∀ p < nrSmallPools, (m.frees p).length < (sizeClass p).goal + (sizeClass p).perSpan

theorem Tidy.perm {out' : List Nat} (h : Tidy m spans out) (same : out.Perm out') : Tidy m spans out' :=
  ⟨h.sane.perm same, h.busy, h.cached⟩

/-- Blocks that no pool has come and go. -/
theorem Tidy.reblock {cpu : CpuPages} {start : Nat} (h : Tidy m spans out)
    (work : Reblocked m.cpu cpu spans spans' start) (free : ∀ p, ¬ Owned m.cpu.pages spans p start) :
    Tidy ⟨cpu, m.pools⟩ spans' out ∧ ∀ p x a, IsObject m.cpu.pages spans p x a →
      IsObject cpu.pages spans' p x a := by
  have sep := h.sane.rep.known.separate
  refine ⟨⟨h.sane.reblock work free, ?_, h.cached⟩, ?_⟩
  · intro q y own
    obtain ⟨old, other⟩ := (work.owned sep q y).mp own
    rw [work.freelists sep old other]
    exact h.busy q y old
  · rintro q y a ⟨own, mem⟩
    refine ⟨(work.owned sep q y).mpr ⟨own, ?_⟩, mem⟩
    rintro rfl
    exact free q own

theorem Filled.tidy (h : Filled p m m' spans spans' out)
    (cached : ∀ p < nrSmallPools, (m.frees p).length < (sizeClass p).goal + (sizeClass p).perSpan) :
    Tidy m' spans' out := by
  refine ⟨h.sane, h.busy, fun q index => ?_⟩
  by_cases here : q = p
  · subst here
    exact h.cached (cached q index)
  · rw [h.others q here]
    exact cached q index

/-- All objects of a pool are out, and there is no room for another span. -/
def Exhausted (m : CpuMemory) (spans : List PageSpan) (out : List Nat) (p : Nat) : Prop :=
  (∀ start a, IsObject m.cpu.pages spans p start a → a ∈ out) ∧
    ∀ sp ∈ spans, sp.free = true → sp.size < (sizeClass p).spanSize

theorem Sane.all_out (h : Sane m spans out) (none' : m.frees p = [])
    (lists : (m.spanLists p).isEmpty = true) {start : Nat} (obj : IsObject m.cpu.pages spans p start a) :
    a ∈ out := by
  have empty : m.freelists start = [] := by
    by_contra some'
    exact (h.rings.isEmpty p).mp lists start ⟨obj.1, some'⟩
  have once := h.placed.once obj
  rw [none', empty] at once
  exact List.count_pos_iff.mp (Nat.lt_of_lt_of_eq Nat.one_pos once.symm)

theorem Tidy.addMoreObjects (h : Tidy m spans out) (index : p < nrSmallPools) :
    ∃ m' spans', m.addMoreObjects p = some m' ∧ Tidy m' spans' out ∧ Carried m m' spans spans' out ∧
      (m'.frees p = [] → Exhausted m' spans' out p) := by
  have goal := (sizeClass_sound index).goal
  obtain ⟨taken, stopped⟩ := h.sane.takeFreelists h.busy p (sizeClass p).goal (Nat.le_add_left _ _)
  obtain ⟨m', spans', added, rest, lists, full⟩ :=
    taken.sane.addSpans taken.busy index (sizeClass p).goal (Nat.le_add_left _ _)
  have filled := taken.trans rest
  refine ⟨m', spans', added, filled.tidy h.cached, filled.carried, fun none' => ?_⟩
  have zero : (m'.frees p).length = 0 := List.length_eq_zero_iff.mpr none'
  have more := rest.more
  refine ⟨?_, full.resolve_left (by omega)⟩
  intro start a obj
  refine rest.sane.all_out none' ?_ obj
  rw [lists]
  exact stopped.resolve_right (by omega)

theorem Tidy.popFree (h : Tidy m spans out) (index : p < nrSmallPools) {obj : Nat} {rest : List Nat}
    (first : m.frees p = obj :: rest) : m.popFree p = (some obj, m.setFree p rest rest.length) ∧
      Tidy (m.setFree p rest rest.length) spans (obj :: out) := by
  have popped := h.sane.placed.pop first
  have count : (m.pools p).freeCount - 1 = rest.length := by
    rw [h.sane.freeCount p, first, List.length_cons, Nat.add_sub_cancel]
  have some' : (m.pools p).free = obj :: rest := first
  refine ⟨?_, h.sane.setFree popped rfl, h.busy, fun q index' => ?_⟩
  · rw [CpuMemory.popFree, some', ← count]
  · have cached := h.cached q index'
    rw [setFree_frees]
    by_cases here : q = p
    · subst here
      rw [first, List.length_cons] at cached
      rw [Function.update_self]
      omega
    · rw [Function.update_of_ne here]
      exact cached

/-- An object of the class, unless the pool is exhausted. -/
theorem Tidy.allocateFrom (h : Tidy m spans out) (index : p < nrSmallPools) :
    ∃ result m' spans', m.allocateFrom p = some (result, m') ∧ Carried m m' spans spans' out ∧
      match result with
      | none => Tidy m' spans' out ∧ Exhausted m' spans' out p
      | some obj => Tidy m' spans' (obj :: out) ∧ ∃ start, IsObject m'.cpu.pages spans' p start obj := by
  obtain ⟨m₁, spans₁, ready, tidy, carried, exhausted⟩ : ∃ m₁ spans₁,
      (if (m.pools p).free = [] then m.addMoreObjects p else some m) = some m₁ ∧ Tidy m₁ spans₁ out ∧
        Carried m m₁ spans spans₁ out ∧ (m₁.frees p = [] → Exhausted m₁ spans₁ out p) := by
    split
    next => exact h.addMoreObjects index
    next some' => exact ⟨m, spans, rfl, h, .of_kept (.refl _ _) out, fun none' => absurd none' some'⟩
  unfold CpuMemory.allocateFrom
  rw [ready, Option.map_some]
  cases first : m₁.frees p with
  | nil =>
    have none' : (m₁.pools p).free = [] := first
    have taken : m₁.popFree p = (none, m₁) := by rw [CpuMemory.popFree, none']
    rw [taken]
    exact ⟨none, m₁, spans₁, rfl, carried, tidy, exhausted first⟩
  | cons obj rest =>
    obtain ⟨taken, popped⟩ := tidy.popFree index first
    obtain ⟨start, mine⟩ := tidy.sane.placed.free p obj (first ▸ List.mem_cons_self)
    rw [taken]
    exact ⟨some obj, _, spans₁, rfl, carried.trans (.setFree _ _ _ _ _ _), popped, start, mine⟩

/-- A round of `trim_free_list`. -/
theorem Sane.trimRound (h : Sane m spans out) (busy : Busy m spans) {obj : Nat} {rest : List Nat}
    (first : m.frees p = obj :: rest) :
    ∃ m' spans', m.trimRound p obj rest = some m' ∧ Sane m' spans' out ∧ Busy m' spans' ∧
      Carried m m' spans spans' out ∧ m'.frees = Function.update m.frees p rest := by
  obtain ⟨start, mine⟩ := h.placed.free p obj (first ▸ List.mem_cons_self)
  have count : (m.pools p).freeCount - 1 = rest.length := by
    rw [h.freeCount p, first, List.length_cons, Nat.add_sub_cancel]
  have popped := h.setFree (n := (m.pools p).freeCount - 1) (h.placed.pop first) count
  have span := (h.page_of mine).2
  obtain ⟨stored, kept, frees, freelists⟩ := popped.toSpan mine
  rw [setFree_frees] at frees
  rw [setFree_freelists] at freelists
  unfold CpuMemory.trimRound
  simp only [setFree_cpu, span]
  generalize (m.setFree p rest ((m.pools p).freeCount - 1)).toSpan p start obj = m₁
    at stored kept frees freelists ⊢
  have own : Owned m₁.cpu.pages spans p start := (Owned.congr (kept.pools start).1).mpr mine.1
  have carried :=
    (Carried.setFree m p rest ((m.pools p).freeCount - 1) spans out).trans (.of_kept kept out)
  have others : ∀ q y, Owned m₁.cpu.pages spans q y → y ≠ start →
      (m₁.freelists y).length < (sizeClass q).perSpan := by
    intro q y own' other
    rw [freelists, Function.update_of_ne other]
    exact busy q y ((Owned.congr (kept.pools y).1).mp own')
  split
  next idle =>
    obtain ⟨m', spans', released, sane, same, carried', owned⟩ := stored.releaseSpan own idle
    refine ⟨m', spans', released, sane, ?_, carried.trans carried', same.trans frees⟩
    intro q y own'
    obtain ⟨old, other, lists⟩ := owned q y own'
    rw [lists]
    exact others q y old other
  next used =>
    refine ⟨m₁, spans, rfl, stored, ?_, carried, frees⟩
    intro q y own'
    by_cases here : y = start
    · subst here
      have all := stored.allocs q y own'
      have some' : m₁.smallAllocs y ≠ 0 := used
      omega
    · exact others q y own' here

/-- The free list is cut down to the goal. -/
theorem Sane.trimFreeList (h : Sane m spans out) (busy : Busy m spans) (rounds : Nat)
    (enough : (m.frees p).length ≤ (sizeClass p).goal + rounds) :
    ∃ m' spans', trimFreeList p rounds m = some m' ∧ Sane m' spans' out ∧ Busy m' spans' ∧
      Carried m m' spans spans' out ∧ (∀ q, q ≠ p → m'.frees q = m.frees q) ∧
      (m'.frees p).length ≤ (sizeClass p).goal := by
  induction rounds generalizing m spans with
  | zero => exact ⟨m, spans, rfl, h, busy, .of_kept (.refl _ _) out, fun _ _ => rfl, enough⟩
  | succ rounds ih =>
    unfold CpuMemory.trimFreeList
    cases first : m.frees p with
    | nil =>
      have none' : (m.pools p).free = [] := first
      rw [none']
      refine ⟨m, spans, rfl, h, busy, .of_kept (.refl _ _) out, fun _ _ => rfl, ?_⟩
      rw [first]
      exact Nat.zero_le _
    | cons obj rest =>
      have some' : (m.pools p).free = obj :: rest := first
      rw [some', h.freeCount p]
      simp only
      split
      next more =>
        obtain ⟨m₁, spans₁, taken, sane, busy, carried, frees⟩ := h.trimRound busy first
        rw [taken, Option.bind_eq_bind, Option.bind_some]
        rw [first, List.length_cons] at enough
        obtain ⟨m', spans', trimmed, sane, busy, carried', others, small⟩ := ih sane busy (by
          rw [frees, Function.update_self]
          omega)
        refine ⟨m', spans', trimmed, sane, busy, carried.trans carried', fun q other => ?_, small⟩
        rw [others q other, frees, Function.update_of_ne other]
      next stop =>
        exact ⟨m, spans, rfl, h, busy, .of_kept (.refl _ _) out, fun _ _ => rfl, Nat.not_lt.mp stop⟩

/-- An object comes back to its pool. -/
theorem Tidy.deallocate (h : Tidy m spans (a :: out)) {start : Nat}
    (obj : IsObject m.cpu.pages spans p start a) :
    ∃ m' spans', m.deallocate p a = some m' ∧ Tidy m' spans' out ∧ Carried m m' spans spans' out := by
  have index := (h.sane.pooled_of obj.1).index
  have sound := sizeClass_sound index
  have count := h.sane.freeCount p
  have pushed := h.sane.setFree (n := (m.pools p).freeCount + 1) (h.sane.placed.push obj) (by
    rw [count, List.length_cons])
  have carried := Carried.setFree m p (a :: m.frees p) ((m.pools p).freeCount + 1) spans out
  have frees := setFree_frees m p ((m.pools p).freeCount + 1) (a :: m.frees p)
  have busy : Busy (m.setFree p (a :: m.frees p) ((m.pools p).freeCount + 1)) spans := h.busy
  unfold CpuMemory.deallocate
  simp only
  rw [show (m.pools p).free = m.frees p from rfl]
  generalize m.setFree p (a :: m.frees p) ((m.pools p).freeCount + 1) = m₁
    at pushed carried frees busy ⊢
  have here : (m₁.frees p).length = (m.frees p).length + 1 := by
    rw [frees, Function.update_self, List.length_cons]
  have others : ∀ q, q ≠ p → m₁.frees q = m.frees q := by
    intro q other
    rw [frees, Function.update_of_ne other]
  split
  next =>
    obtain ⟨m', spans', trimmed, sane, busy, carried', others', small⟩ :=
      pushed.trimFreeList (p := p) busy ((m.pools p).freeCount + 1) (by omega)
    refine ⟨m', spans', trimmed, ⟨sane, busy, fun q index' => ?_⟩, carried.trans carried'⟩
    by_cases same : q = p
    · subst same
      have pos := sound.objects.1
      omega
    · rw [others' q same, others q same]
      exact h.cached q index'
  next few =>
    refine ⟨m₁, spans, rfl, ⟨pushed, busy, fun q index' => ?_⟩, carried⟩
    by_cases same : q = p
    · subst same
      have cache := sound.cache
      omega
    · rw [others q same]
      exact h.cached q index'

end CpuMemory

end XiRuntime
