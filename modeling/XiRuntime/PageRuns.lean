import XiRuntime.PageCalls
import XiRuntime.Runs

namespace XiRuntime

open LinkRing CpuPages

/-- Pages that no block has are in one free span. -/
theorem CpuPages.Coalesced.room {spans : List PageSpan} {lo hi a n : Nat} (h : Coalesced spans)
    (tiles : Tiled lo spans hi) (pos : 0 < n) (low : lo ≤ a) (high : a + n ≤ hi)
    (away : ∀ sp ∈ spans, sp.free = false → sp.stop ≤ a ∨ a + n ≤ sp.start) :
    ∃ sp ∈ spans, sp.free = true ∧ n ≤ sp.size := by
  induction spans generalizing lo with
  | nil =>
    have ends : lo = hi := tiles
    omega
  | cons sp spans ih =>
    obtain ⟨rfl, size, rest⟩ := tiles
    obtain ⟨next, behind⟩ := List.isChain_cons.mp h
    by_cases above : sp.stop ≤ a
    · obtain ⟨x, hx, free, large⟩ := ih behind rest above fun y hy => away y (List.mem_cons_of_mem sp hy)
      exact ⟨x, List.mem_cons_of_mem sp hx, free, large⟩
    · have free : sp.free = true := by
        cases used : sp.free with
        | true => rfl
        | false =>
          have apart := away sp List.mem_cons_self used
          omega
      refine ⟨sp, List.mem_cons_self, free, ?_⟩
      by_contra short
      have crosses : sp.stop < a + n := by
        unfold PageSpan.stop
        omega
      -- the span behind begins among the pages, so it is neither free nor a block
      cases spans with
      | nil =>
        have ends : sp.stop = hi := rest
        omega
      | cons y spans =>
        obtain ⟨start, ysize, -⟩ := rest
        cases used : y.free with
        | true => exact next y rfl ⟨free, used⟩
        | false =>
          have apart := away y (List.mem_cons_of_mem sp List.mem_cons_self) used
          have inside : y.start < y.stop := Nat.lt_add_of_pos_right ysize
          omega

theorem CpuPages.known_empty {s : CpuPages} (links : ∀ i, s.freeSpans i = PageList.empty)
    (count : s.nrFreePages = 0) : Known s [] := by
  refine ⟨⟨by simp, List.Pairwise.nil⟩, by simp [Marked], fun i => ⟨[], ?_, by simp⟩, by simp [count]⟩
  rw [links]
  exact ring_nil rfl rfl

theorem CpuPages.initializePages_rep :
    ∃ s, initializePages = some s ∧
      Rep (reserved bootPages) s [⟨reserved bootPages, bootPages - reserved bootPages, true⟩] ∧
      s.nrPages = bootPages := by
  have pos : 0 < reserved bootPages := by decide
  have room : reserved bootPages < bootPages := by decide
  have size : 0 < bootPages - reserved bootPages := by omega
  have known : Known ⟨fun _ => Page.zero, fun _ => ⟨0, 0⟩, bootPages, 0, fun _ => PageList.empty⟩ [] :=
    known_empty (fun _ => rfl) rfl
  obtain ⟨s, freed, known, pages, spares⟩ := known.freeSpanNoMerge
    ⟨reserved bootPages, bootPages - reserved bootPages, true⟩ rfl pos size (by simp)
  have nr := spares.nrPages
  simp only at freed pages nr
  refine ⟨s, freed, ⟨⟨rfl, size, ?_⟩, known, List.isChain_singleton _, pos, ?_, ?_⟩, nr⟩
  · show reserved bootPages + (bootPages - reserved bootPages) = s.nrPages
    omega
  · rw [pages, markSpan_outside size (Or.inl (by omega))]
    rfl
  · rw [pages, nr, markSpan_outside size (Or.inr (by omega))]
    rfl

/-- The pages of a cpu and the blocks that are in use: their first pages and sizes. -/
structure PageRun where
  cpu : CpuPages
  live : List (Nat × Nat)

inductive PageCall where
  | allocateLarge (nPages : Nat)
  | allocateLargeAligned (alignPages nPages : Nat)
  | freeLarge (block : Nat × Nat)
  | shrink (block : Nat × Nat) (newSize : Nat)
deriving DecidableEq, Repr

namespace PageRun

/-- The blocks after an allocation, which fails with `nullptr`. -/
def hold (live : List (Nat × Nat)) (nPages : Nat) : Option Nat → List (Nat × Nat)
  | none => live
  | some ptr => (ptr / pageSize, nPages) :: live

def step (r : PageRun) : PageCall → Option PageRun
  | .allocateLarge nPages => do
    let (ptr, cpu) ← r.cpu.allocateLarge nPages
    some ⟨cpu, hold r.live nPages ptr⟩
  | .allocateLargeAligned alignPages nPages => do
    let (ptr, cpu) ← r.cpu.allocateLargeAligned alignPages nPages
    some ⟨cpu, hold r.live nPages ptr⟩
  | .freeLarge block => do
    let cpu ← r.cpu.freeLarge (block.1 * pageSize)
    some ⟨cpu, r.live.erase block⟩
  | .shrink block newSize => do
    let cpu ← r.cpu.shrink (block.1 * pageSize) newSize
    some ⟨cpu, (block.1, alignUp newSize pageSize / pageSize) :: r.live.erase block⟩

/-- The requests whose sizes fit into `unsigned`, and the blocks that are in use. -/
def Admits (r : PageRun) : PageCall → Prop
  | .allocateLarge nPages => 0 < nPages ∧ nPages ≤ 2 ^ 31
  | .allocateLargeAligned alignPages nPages =>
    0 < nPages ∧ (∃ k, alignPages = 2 ^ k) ∧ nPages + alignPages - 1 ≤ 2 ^ 31
  | .freeLarge block => block ∈ r.live
  | .shrink block newSize => block ∈ r.live ∧ 0 < newSize ∧ newSize ≤ block.2 * pageSize

/-- The spans agree with the blocks. -/
structure Holds (r : PageRun) (spans : List PageSpan) : Prop where
  rep : Rep (reserved bootPages) r.cpu spans
  nrPages : r.cpu.nrPages = bootPages
  nodup : r.live.Nodup
  live : ∀ start size, (start, size) ∈ r.live ↔ (⟨start, size, false⟩ : PageSpan) ∈ spans
  pools : ∀ start size, (start, size) ∈ r.live → (r.cpu.pages start).pool = none

/-- There are pages in a row that no block has. -/
def Room (r : PageRun) (n : Nat) : Prop :=
  ∃ a, reserved bootPages ≤ a ∧ a + n ≤ bootPages ∧
    ∀ block ∈ r.live, block.1 + block.2 ≤ a ∨ a + n ≤ block.1

variable {r : PageRun} {spans : List PageSpan}

theorem Holds.small (h : r.Holds spans) : r.cpu.nrPages ≤ 2 ^ 30 := by
  rw [h.nrPages]
  decide

theorem Holds.eq_of_start (h : r.Holds spans) {start size other : Nat} (block : (start, size) ∈ r.live)
    (same : (start, other) ∈ r.live) : other = size := by
  have eq := h.rep.known.separate.eq_of_start ((h.live _ _).mp same) ((h.live _ _).mp block) rfl
  cases eq
  rfl

theorem Holds.size_pos (h : r.Holds spans) {start size : Nat} (block : (start, size) ∈ r.live) :
    0 < size := (h.rep.known.separate.page _ ((h.live _ _).mp block)).2

/-- What an allocation does to the run. -/
theorem Holds.allocated (h : r.Holds spans) (nPages : Nat) {asked : Nat} (pos : 0 < asked)
    (trimmer : Nat → Nat → Trim)
    (fits : ∀ a k, asked ≤ k → k ≤ r.cpu.nrPages →
      (trimmer a r.cpu.nrPages).nrPages = nPages ∧ 0 < nPages ∧
        (trimmer a r.cpu.nrPages).offset + nPages ≤ k) :
    ∃ result cpu spans', r.cpu.allocateLargeAndTrim asked trimmer = some (result, cpu) ∧
      PageRun.Holds ⟨cpu, hold r.live nPages result⟩ spans' ∧
      match result with
      | none => ∀ sp ∈ spans, sp.free = true → sp.size < asked
      | some ptr => ∃ sp ∈ spans, sp.free = true ∧ asked ≤ sp.size ∧
          ptr = (sp.start + (trimmer sp.start r.cpu.nrPages).offset) * pageSize := by
  obtain ⟨result, cpu, spans', allocated, rep, spares, spec⟩ :=
    h.rep.allocateLargeAndTrim h.small pos trimmer nPages fits
  refine ⟨result, cpu, spans', allocated, ?_, ?_⟩
  · cases result with
    | none =>
      obtain ⟨rfl, rfl, -⟩ := spec
      exact h
    | some ptr =>
      obtain ⟨sp, hsp, free, large, rfl, pool, mem⟩ := spec
      obtain ⟨-, -, stop⟩ := h.rep.tiles.bounds sp hsp
      obtain ⟨-, some', inside⟩ := fits sp.start sp.size large (Nat.le_trans (Nat.le_add_left _ _) stop)
      have first : (sp.start + (trimmer sp.start r.cpu.nrPages).offset) * pageSize / pageSize =
          sp.start + (trimmer sp.start r.cpu.nrPages).offset := Nat.mul_div_cancel _ (by decide)
      refine ⟨rep, spares.nrPages.trans h.nrPages, ?_, ?_, ?_⟩
      · refine List.nodup_cons.mpr ⟨fun old => ?_, h.nodup⟩
        rw [first, h.live] at old
        -- a block that was there before is apart from the free span
        have apart := h.rep.known.separate.mem_apart hsp old (by
          intro same
          rw [same] at free
          cases free)
        unfold PageSpan.Apart PageSpan.stop at apart
        simp only at apart
        omega
      · intro start size
        rw [mem, hold, List.mem_cons, h.live, first, Prod.mk.injEq]
        exact or_comm
      · intro start size block
        rcases List.mem_cons.mp block with same | block
        · cases same
          rw [first]
          exact pool
        · rw [spares.pool ((h.live _ _).mp block) (h.size_pos block)]
          exact h.pools start size block
  · cases result with
    | none => exact spec.2.2
    | some ptr =>
      obtain ⟨sp, hsp, free, large, same, -⟩ := spec
      exact ⟨sp, hsp, free, large, same⟩

theorem Holds.room_iff (h : r.Holds spans) {n : Nat} (pos : 0 < n) :
    r.Room n ↔ ∃ sp ∈ spans, sp.free = true ∧ n ≤ sp.size := by
  have tiles := h.rep.tiles
  rw [h.nrPages] at tiles
  constructor
  · rintro ⟨a, low, high, away⟩
    refine h.rep.coalesced.room tiles pos low high fun sp hsp used => ?_
    refine away (sp.start, sp.size) ((h.live _ _).mpr ?_)
    rw [← used]
    exact hsp
  · rintro ⟨sp, hsp, free, large⟩
    obtain ⟨low, -, high⟩ := tiles.bounds sp hsp
    unfold PageSpan.stop at high
    refine ⟨sp.start, low, by omega, ?_⟩
    rintro ⟨start, size⟩ block
    have ne : sp ≠ ⟨start, size, false⟩ := by
      rintro rfl
      cases free
    have apart := h.rep.known.separate.mem_apart hsp ((h.live _ _).mp block) ne
    unfold PageSpan.Apart PageSpan.stop at apart
    simp only at apart ⊢
    omega

theorem Holds.allocateLarge (h : r.Holds spans) {nPages : Nat} (pos : 0 < nPages) :
    ∃ r' spans', r.step (.allocateLarge nPages) = some r' ∧ r'.Holds spans' ∧
      ((r.Room nPages ∧ ∃ start, r'.live = (start, nPages) :: r.live) ∨
        (¬ r.Room nPages ∧ r'.live = r.live)) := by
  obtain ⟨result, cpu, spans', allocated, holds, spec⟩ := h.allocated nPages pos
    (fun _ n => ⟨0, min n nPages⟩) (fun a k le within => by
      refine ⟨Nat.min_eq_right (Nat.le_trans le within), pos, ?_⟩
      simp only
      omega)
  have taken : r.step (.allocateLarge nPages) = some ⟨cpu, hold r.live nPages result⟩ := by
    simp only [step, CpuPages.allocateLarge, allocated, Option.bind_eq_bind, Option.bind_some]
  refine ⟨_, spans', taken, ?_⟩
  rw [h.room_iff pos]
  cases result with
  | none =>
    refine ⟨holds, Or.inr ⟨?_, rfl⟩⟩
    rintro ⟨sp, hsp, free, large⟩
    exact Nat.not_lt.mpr large (spec sp hsp free)
  | some ptr =>
    obtain ⟨sp, hsp, free, large, -⟩ := spec
    exact ⟨holds, Or.inl ⟨⟨sp, hsp, free, large⟩, _, rfl⟩⟩

theorem Holds.allocateLargeAligned (h : r.Holds spans) {alignPages nPages : Nat} (pos : 0 < nPages)
    (align : 0 < alignPages) :
    ∃ r' spans', r.step (.allocateLargeAligned alignPages nPages) = some r' ∧ r'.Holds spans' ∧
      ((r.Room (nPages + alignPages - 1) ∧
          ∃ start, alignPages ∣ start ∧ r'.live = (start, nPages) :: r.live) ∨
        (¬ r.Room (nPages + alignPages - 1) ∧ r'.live = r.live)) := by
  have asked : 0 < nPages + alignPages - 1 := by omega
  obtain ⟨result, cpu, spans', allocated, holds, spec⟩ := h.allocated nPages asked
    (fun idx _ => ⟨alignUp idx alignPages - idx, nPages⟩) (fun a k le _ => by
      obtain ⟨-, above, -⟩ := alignUp_bounds (v := a) align
      refine ⟨rfl, pos, ?_⟩
      simp only
      omega)
  have taken : r.step (.allocateLargeAligned alignPages nPages) =
      some ⟨cpu, hold r.live nPages result⟩ := by
    simp only [step, CpuPages.allocateLargeAligned, allocated, Option.bind_eq_bind, Option.bind_some]
  refine ⟨_, spans', taken, holds, ?_⟩
  rw [h.room_iff asked]
  cases result with
  | none =>
    refine Or.inr ⟨?_, rfl⟩
    rintro ⟨sp, hsp, free, large⟩
    exact Nat.not_lt.mpr large (spec sp hsp free)
  | some ptr =>
    obtain ⟨sp, hsp, free, large, same⟩ := spec
    obtain ⟨below, -, dvd⟩ := alignUp_bounds (v := sp.start) align
    have start : ptr / pageSize = alignUp sp.start alignPages := by
      rw [same, Nat.mul_div_cancel _ (by decide)]
      simp only
      omega
    exact Or.inl ⟨⟨sp, hsp, free, large⟩, _, start ▸ dvd, rfl⟩

theorem Holds.freeLarge (h : r.Holds spans) {block : Nat × Nat} (used : block ∈ r.live) :
    ∃ r' spans', r.step (.freeLarge block) = some r' ∧ r'.Holds spans' ∧
      r'.live = r.live.erase block := by
  obtain ⟨start, size⟩ := block
  obtain ⟨cpu, spans', freed, rep, spares, kept⟩ := h.rep.freeLarge ((h.live _ _).mp used)
  have live : ∀ a k, (a, k) ∈ r.live.erase (start, size) ↔ (⟨a, k, false⟩ : PageSpan) ∈ spans' := by
    intro a k
    rw [kept, h.nodup.mem_erase_iff, h.live, and_comm]
    refine and_congr_right fun mem => ?_
    rw [ne_eq, Prod.mk.injEq, not_and]
    refine ⟨fun ne same => ?_, fun ne same => absurd same ne⟩
    subst same
    exact ne rfl (h.eq_of_start used ((h.live _ _).mpr mem))
  refine ⟨⟨cpu, r.live.erase (start, size)⟩, spans', ?_,
    ⟨rep, spares.nrPages.trans h.nrPages, h.nodup.erase _, live, ?_⟩, rfl⟩
  · simp only [step, freed, Option.bind_eq_bind, Option.bind_some]
  · intro a k mem
    have old := List.mem_of_mem_erase mem
    rw [spares.pool ((live a k).mp mem) (h.size_pos old)]
    exact h.pools a k old

theorem Holds.shrink (h : r.Holds spans) {block : Nat × Nat} {newSize : Nat} (used : block ∈ r.live)
    (pos : 0 < newSize) (fits : newSize ≤ block.2 * pageSize) :
    ∃ r' spans', r.step (.shrink block newSize) = some r' ∧ r'.Holds spans' ∧
      r'.live = (block.1, alignUp newSize pageSize / pageSize) :: r.live.erase block := by
  obtain ⟨start, size⟩ := block
  simp only at fits
  obtain ⟨some', enough, -⟩ := alignUp_pages pos fits
  obtain ⟨cpu, spans', shrunk, rep, spares, pool, kept⟩ :=
    h.rep.shrink ((h.live _ _).mp used) (h.pools _ _ used) some' enough
  have mem : ∀ a k, (a, k) ∈ r.live.erase (start, size) ↔ a ≠ start ∧ (a, k) ∈ r.live := by
    intro a k
    rw [h.nodup.mem_erase_iff, ne_eq, Prod.mk.injEq, not_and]
    refine and_congr_left fun mem => ⟨fun ne same => ?_, fun ne same => absurd same ne⟩
    subst same
    exact ne rfl (h.eq_of_start used mem)
  refine ⟨⟨cpu, _⟩, spans', ?_, ⟨rep, spares.nrPages.trans h.nrPages, ?_, ?_, ?_⟩, rfl⟩
  · simp only [step, shrunk, Option.bind_eq_bind, Option.bind_some]
  · refine List.nodup_cons.mpr ⟨fun inside => ?_, h.nodup.erase _⟩
    exact ((mem _ _).mp inside).1 rfl
  · intro a k
    rw [kept, List.mem_cons, mem, Prod.mk.injEq]
    split
    next here => simp [here]
    next other => simp [other, h.live]
  · intro a k inside
    rcases List.mem_cons.mp inside with same | inside
    · cases same
      exact pool
    · obtain ⟨ne, old⟩ := (mem a k).mp inside
      rw [spares.pool ⟨(h.live a k).mp old, ne⟩ (h.size_pos old)]
      exact h.pools a k old

theorem Holds.step (h : r.Holds spans) {c : PageCall} (admits : r.Admits c) :
    ∃ r' spans', r.step c = some r' ∧ r'.Holds spans' := by
  cases c with
  | allocateLarge nPages =>
    obtain ⟨r', spans', taken, holds, -⟩ := h.allocateLarge admits.1
    exact ⟨r', spans', taken, holds⟩
  | allocateLargeAligned alignPages nPages =>
    obtain ⟨pos, ⟨k, rfl⟩, -⟩ := admits
    obtain ⟨r', spans', taken, holds, -⟩ := h.allocateLargeAligned pos (Nat.two_pow_pos k)
    exact ⟨r', spans', taken, holds⟩
  | freeLarge block =>
    obtain ⟨r', spans', taken, holds, -⟩ := h.freeLarge admits
    exact ⟨r', spans', taken, holds⟩
  | shrink block newSize =>
    obtain ⟨used, pos, fits⟩ := admits
    obtain ⟨r', spans', taken, holds, -⟩ := h.shrink used pos fits
    exact ⟨r', spans', taken, holds⟩

/-- The first request makes the cpu's pages. -/
def boot : Option PageRun := initializePages.map fun cpu => ⟨cpu, []⟩

def run (calls : List PageCall) : Option PageRun := boot.bind fun r => calls.foldlM step r

/-- Each call of a run is one of those that may be made when it is. -/
def Admitted (calls : List PageCall) : Prop :=
  ∀ n c r, calls[n]? = some c → run (calls.take n) = some r → r.Admits c

theorem boot_holds : ∃ r spans, boot = some r ∧ r.Holds spans := by
  obtain ⟨s, initialized, rep, nr⟩ := initializePages_rep
  refine ⟨⟨s, []⟩, _, by rw [boot, initialized]; rfl, rep, nr, List.nodup_nil, fun start size => ?_, by simp⟩
  simp

theorem run_holds {calls : List PageCall} (admitted : Admitted calls) (n : Nat) :
    ∃ r, run (calls.take n) = some r ∧ ∃ spans, r.Holds spans := by
  obtain ⟨first, spans, booted, holds⟩ := boot_holds
  have runs : ∀ calls, run calls = calls.foldlM PageRun.step first := by
    intro calls
    rw [run, booted, Option.bind_some]
  rw [runs]
  refine Runs.partial_total (P := fun r : PageRun => ∃ spans, r.Holds spans) ⟨spans, holds⟩ ?_ n
  rintro n c r hc reached ⟨spans, here⟩
  obtain ⟨r', spans', taken, next⟩ := here.step (admitted n c r hc (by rw [runs, reached]))
  exact ⟨r', taken, spans', next⟩

/-- The sizes of spans that follow one another. -/
theorem tiled_sum {lo hi : Nat} {spans : List PageSpan} (h : Tiled lo spans hi) :
    lo + (spans.map PageSpan.size).sum = hi := by
  induction spans generalizing lo with
  | nil => exact h
  | cons sp spans ih =>
    obtain ⟨rfl, -, rest⟩ := h
    have tail := ih rest
    unfold PageSpan.stop at tail
    rw [List.map_cons, List.sum_cons]
    omega

theorem free_or_used (spans : List PageSpan) :
    (spans.map freeSize).sum + ((spans.filter fun sp => !sp.free).map PageSpan.size).sum =
      (spans.map PageSpan.size).sum := by
  induction spans with
  | nil => rfl
  | cons sp spans ih =>
    cases free : sp.free with
    | true => simp [freeSize, free, ← ih, Nat.add_assoc]
    | false =>
      simp [freeSize, free, ← ih]
      omega

/-- Every page is counted as free or belongs to a block. -/
theorem Holds.accounts (h : r.Holds spans) :
    r.cpu.nrFreePages + (r.live.map Prod.snd).sum = bootPages - reserved bootPages := by
  have all := tiled_sum h.rep.tiles
  rw [h.nrPages] at all
  have used : List.Perm ((spans.filter fun sp => !sp.free).map fun sp => (sp.start, sp.size))
      r.live := by
    refine (List.perm_ext_iff_of_nodup ?_ h.nodup).mpr ?_
    · refine List.Nodup.map_on ?_ (h.rep.known.separate.nodup.filter _)
      intro a ha b hb same
      exact h.rep.known.separate.eq_of_start (List.mem_of_mem_filter ha) (List.mem_of_mem_filter hb)
        (Prod.mk.inj same).1
    · rintro ⟨start, size⟩
      rw [h.live, List.mem_map]
      constructor
      · rintro ⟨⟨start, size, free⟩, hsp, same⟩
        obtain ⟨mem, out⟩ := List.mem_filter.mp hsp
        cases same
        cases free with
        | true => cases out
        | false => exact mem
      · intro mem
        exact ⟨_, List.mem_filter.mpr ⟨mem, rfl⟩, rfl⟩
  have sizes := (used.map Prod.snd).sum_eq
  rw [List.map_map] at sizes
  have split := free_or_used spans
  rw [h.rep.known.counted, ← sizes]
  have same : (Prod.snd ∘ fun sp : PageSpan => (sp.start, sp.size)) = PageSpan.size := rfl
  rw [same]
  omega

theorem Holds.blocks (h : r.Holds spans) :
    (r.live.Pairwise fun a b => a.1 + a.2 ≤ b.1 ∨ b.1 + b.2 ≤ a.1) ∧
      ∀ block ∈ r.live, reserved bootPages ≤ block.1 ∧ 0 < block.2 ∧
        block.1 + block.2 ≤ bootPages := by
  constructor
  · refine h.nodup.imp_of_mem ?_
    rintro ⟨a, k⟩ ⟨b, m⟩ ha hb ne
    refine h.rep.known.separate.mem_apart ((h.live _ _).mp ha) ((h.live _ _).mp hb) ?_
    intro same
    cases same
    exact ne rfl
  · rintro ⟨start, size⟩ block
    have bounds := h.rep.tiles.bounds _ ((h.live _ _).mp block)
    rw [h.nrPages] at bounds
    exact bounds

/-- No assertion fails in a run, the blocks in use do not overlap, and no page is lost. -/
theorem page_calls_keep_blocks (calls : List PageCall) (admitted : Admitted calls) (n : Nat) :
    ∃ r, run (calls.take n) = some r ∧
      (r.live.Pairwise fun a b => a.1 + a.2 ≤ b.1 ∨ b.1 + b.2 ≤ a.1) ∧
      (∀ block ∈ r.live, reserved bootPages ≤ block.1 ∧ 0 < block.2 ∧
        block.1 + block.2 ≤ bootPages) ∧
      r.cpu.nrFreePages + (r.live.map Prod.snd).sum = bootPages - reserved bootPages := by
  obtain ⟨r, reached, spans, holds⟩ := run_holds admitted n
  exact ⟨r, reached, holds.blocks.1, holds.blocks.2, holds.accounts⟩

/-- Two blocks of which one is freed. -/
theorem page_calls_keep_aligned_block :
    Admitted [.allocateLarge 3, .allocateLargeAligned 16 5, .freeLarge (65, 3)] ∧
      ∃ r, run [.allocateLarge 3, .allocateLargeAligned 16 5, .freeLarge (65, 3)] = some r ∧
        r.live = [(80, 5)] ∧
        r.cpu.nrFreePages + (r.live.map Prod.snd).sum = bootPages - reserved bootPages := by
  have two : (run [.allocateLarge 3, .allocateLargeAligned 16 5]).map PageRun.live =
      some [(80, 5), (65, 3)] := by decide
  have three : (run [.allocateLarge 3, .allocateLargeAligned 16 5, .freeLarge (65, 3)]).map
      PageRun.live = some [(80, 5)] := by decide
  have admitted : Admitted [.allocateLarge 3, .allocateLargeAligned 16 5, .freeLarge (65, 3)] := by
    intro n c r hc reached
    match n, hc with
    | 0, hc =>
      cases hc
      exact ⟨by decide, by decide⟩
    | 1, hc =>
      cases hc
      exact ⟨by decide, ⟨4, rfl⟩, by decide⟩
    | 2, hc =>
      cases hc
      rw [show List.take 2 [PageCall.allocateLarge 3, .allocateLargeAligned 16 5, .freeLarge (65, 3)] =
        [.allocateLarge 3, .allocateLargeAligned 16 5] from rfl] at reached
      rw [reached] at two
      show (65, 3) ∈ r.live
      rw [Option.some.inj two]
      decide
  obtain ⟨r, reached, -, -, accounts⟩ := page_calls_keep_blocks _ admitted 3
  rw [show List.take 3 [PageCall.allocateLarge 3, .allocateLargeAligned 16 5, .freeLarge (65, 3)] =
    [.allocateLarge 3, .allocateLargeAligned 16 5, .freeLarge (65, 3)] from rfl] at reached
  rw [reached] at three
  exact ⟨admitted, r, reached, Option.some.inj three, accounts⟩

/-- A request fails just when no pages in a row are left for it. -/
theorem page_requests_met_iff_room (calls : List PageCall) (admitted : Admitted calls) (n : Nat)
    (r : PageRun) (reached : run (calls.take n) = some r) :
    (∀ nPages, r.Admits (.allocateLarge nPages) →
      ∃ r', r.step (.allocateLarge nPages) = some r' ∧
        ((r.Room nPages ∧ ∃ start, r'.live = (start, nPages) :: r.live) ∨
          (¬ r.Room nPages ∧ r'.live = r.live))) ∧
    ∀ alignPages nPages, r.Admits (.allocateLargeAligned alignPages nPages) →
      ∃ r', r.step (.allocateLargeAligned alignPages nPages) = some r' ∧
        ((r.Room (nPages + alignPages - 1) ∧
            ∃ start, alignPages ∣ start ∧ r'.live = (start, nPages) :: r.live) ∨
          (¬ r.Room (nPages + alignPages - 1) ∧ r'.live = r.live)) := by
  obtain ⟨r₀, reached₀, spans, holds⟩ := run_holds admitted n
  rw [reached] at reached₀
  cases reached₀
  constructor
  · rintro nPages ⟨pos, -⟩
    obtain ⟨r', -, taken, -, spec⟩ := holds.allocateLarge pos
    exact ⟨r', taken, spec⟩
  · rintro alignPages nPages ⟨pos, ⟨k, rfl⟩, -⟩
    obtain ⟨r', -, taken, -, spec⟩ := holds.allocateLargeAligned pos (Nat.two_pow_pos k)
    exact ⟨r', taken, spec⟩

theorem page_requests_met_after_first :
    ∃ r, run [.allocateLarge 3] = some r ∧ r.live = [(65, 3)] ∧
      ∃ r', r.step (.allocateLarge 8124) = some r' ∧
        ((r.Room 8124 ∧ ∃ start, r'.live = (start, 8124) :: r.live) ∨
          (¬ r.Room 8124 ∧ r'.live = r.live)) := by
  have admitted : Admitted [.allocateLarge 3] := by
    intro n c r hc _
    match n, hc with
    | 0, hc =>
      cases hc
      exact ⟨by decide, by decide⟩
  obtain ⟨r, reached, -⟩ := run_holds admitted 1
  have live : (run [.allocateLarge 3]).map PageRun.live = some [(65, 3)] := by decide
  rw [show List.take 1 [PageCall.allocateLarge 3] = [.allocateLarge 3] from rfl] at reached
  rw [reached] at live
  exact ⟨r, reached, Option.some.inj live,
    (page_requests_met_iff_room _ admitted 1 r reached).1 8124 ⟨by decide, by decide⟩⟩

end PageRun

end XiRuntime
