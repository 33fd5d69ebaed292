import XiRuntime.MemoryRuns

namespace XiRuntime

open LinkRing CpuPages SmallPool CpuMemory

namespace CpuMemory

/-- The spans that pools have, with their pools. -/
def cutSpans (pages : Nat → Page) (spans : List PageSpan) : List (Nat × Nat) :=
  spans.filterMap fun sp => if sp.free then none else (pages sp.start).pool.map fun p => (p, sp.start)

/-- The blocks that no pool has. -/
def ownSpans (pages : Nat → Page) (spans : List PageSpan) : List PageSpan :=
  spans.filter fun sp => !sp.free && (pages sp.start).pool.isNone

def cutSize (cut : List (Nat × Nat)) : Nat := (cut.map fun x => (sizeClass x.1).spanSize).sum

variable {pages : Nat → Page} {spans : List PageSpan} {p start n : Nat}

theorem mem_cutSpans : (p, start) ∈ cutSpans pages spans ↔
    ∃ n, blocksOf spans start n ∧ (pages start).pool = some p := by
  unfold cutSpans
  rw [List.mem_filterMap]
  constructor
  · rintro ⟨⟨a, n, free⟩, hsp, same⟩
    cases free with
    | true => simp at same
    | false =>
      simp only [Bool.false_eq_true, if_false, Option.map_eq_some_iff, Prod.mk.injEq] at same
      obtain ⟨q, pool, rfl, rfl⟩ := same
      exact ⟨n, hsp, pool⟩
  · rintro ⟨n, block, pool⟩
    exact ⟨_, block, by simp [pool]⟩

theorem mem_ownSpans {sp : PageSpan} : sp ∈ ownSpans pages spans ↔
    sp.free = false ∧ Large pages spans sp.start sp.size := by
  obtain ⟨start, n, free⟩ := sp
  unfold ownSpans Large blocksOf
  rw [List.mem_filter]
  cases free with
  | true => simp
  | false => simp

/-- Each span is free, or one that a pool has, or one that none has. -/
theorem spans_split (whole : ∀ p start n, blocksOf spans start n → (pages start).pool = some p →
    n = (sizeClass p).spanSize) : (spans.map freeSize).sum + cutSize (cutSpans pages spans) +
      ((ownSpans pages spans).map PageSpan.size).sum = (spans.map PageSpan.size).sum := by
  induction spans with
  | nil => rfl
  | cons sp spans ih =>
    have rest := ih fun p start n block => whole p start n (List.mem_cons_of_mem sp block)
    obtain ⟨start, n, free⟩ := sp
    unfold cutSize cutSpans ownSpans at rest ⊢
    cases free with
    | true =>
      simp [freeSize, ← rest]
      omega
    | false =>
      cases pool : (pages start).pool with
      | none =>
        simp [freeSize, pool, ← rest]
        omega
      | some p =>
        have size := whole p start n List.mem_cons_self pool
        simp [freeSize, pool, ← rest, size]
        omega

theorem cutSpans_sublist (pages : Nat → Page) (spans : List PageSpan) :
    ((cutSpans pages spans).map Prod.snd).Sublist (spans.map PageSpan.start) := by
  induction spans with
  | nil => exact List.Sublist.refl _
  | cons sp spans ih =>
    unfold cutSpans at ih ⊢
    rw [List.filterMap_cons, List.map_cons]
    split
    next => exact ih.cons _
    next x found =>
      have same : x.2 = sp.start := by
        split at found
        next => cases found
        next =>
          obtain ⟨q, -, rfl⟩ := Option.map_eq_some_iff.mp found
          rfl
      rw [List.map_cons, same]
      exact ih.cons_cons _

theorem starts_nodup (sep : Separate spans) : (spans.map PageSpan.start).Nodup := by
  refine List.Nodup.map_on ?_ sep.nodup
  intro a ha b hb same
  exact sep.eq_of_start ha hb same

end CpuMemory

namespace MemoryRun

variable {r : MemoryRun} {spans : List PageSpan} {small large : List Block} {b : Block} {n : Nat}

/-- What has the pages of a run: the spans that were cut into objects, with their pools, and the
blocks with pages of their own, with the numbers of these. -/
structure Accounts (r : MemoryRun) (cut : List (Nat × Nat)) (own : List (Block × Nat)) : Prop where
  pages : r.memory.cpu.nrFreePages + cutSize cut + (own.map Prod.snd).sum =
    bootPages - reserved bootPages
  distinct : (cut.map Prod.snd).Nodup ∧ (own.map fun x => x.1.addr).Nodup
  place : ∀ b ∈ r.live, (∃ n, (b, n) ∈ own) ∨ ∃ x ∈ cut, b.addr ∈ objects x.1 x.2
  own : ∀ x ∈ own, x.1 ∈ r.live ∧ x.1.Fits x.2
  cut : ∀ x ∈ cut, x.1 < nrSmallPools ∧ ∃ a ∈ objects x.1 x.2,
    (∃ b ∈ r.live, b.addr = a) ∨ a ∈ (r.memory.pools x.1).free
  cached : ∀ p < nrSmallPools,
    (r.memory.pools p).free.length < (sizeClass p).goal + (sizeClass p).perSpan

/-- The blocks with pages of their own, and the numbers of these. -/
def ownBlocks (m : CpuMemory) (large : List Block) : List (Block × Nat) :=
  large.map fun b => (b, (m.cpu.pages (b.addr / pageSize)).spanSize)

theorem Holds.spanSize (h : r.Holds spans small large) {start : Nat}
    (block : Large r.memory.cpu.pages spans start n) (addr : b.addr = start * pageSize) :
    (r.memory.cpu.pages (b.addr / pageSize)).spanSize = n := by
  rw [addr, Nat.mul_div_cancel _ (by decide)]
  exact (h.tidy.sane.rep.known.marked _ block.1).2.1

theorem Holds.own_perm (h : r.Holds spans small large) :
    ((ownBlocks r.memory large).map fun x => (x.1.addr, x.2)).Perm
      ((ownSpans r.memory.cpu.pages spans).map fun sp => (sp.start * pageSize, sp.size)) := by
  have sep := h.tidy.sane.rep.known.separate
  refine (List.perm_ext_iff_of_nodup ?_ ?_).mpr ?_
  · refine List.Nodup.of_map Prod.fst ?_
    rw [List.map_map, ownBlocks, List.map_map]
    exact h.distinct
  · refine List.Nodup.map_on ?_ (sep.nodup.filter _)
    intro a ha b hb same
    have starts := Nat.eq_of_mul_eq_mul_right (show 0 < pageSize by decide) (Prod.mk.inj same).1
    exact sep.eq_of_start (List.mem_of_mem_filter ha) (List.mem_of_mem_filter hb) starts
  · rintro ⟨addr, n⟩
    rw [List.mem_map, List.mem_map]
    constructor
    · rintro ⟨x, hx, same⟩
      obtain ⟨b, hb, rfl⟩ := List.mem_map.mp hx
      obtain ⟨start, k, block, here, -⟩ := h.larges b hb
      simp only [h.spanSize block here, Prod.mk.injEq] at same
      obtain ⟨rfl, rfl⟩ := same
      exact ⟨⟨start, k, false⟩, mem_ownSpans.mpr ⟨rfl, block⟩, by simp [here]⟩
    · rintro ⟨sp, hsp, same⟩
      obtain ⟨-, block⟩ := mem_ownSpans.mp hsp
      obtain ⟨b, hb, here⟩ := h.owner _ _ block
      refine ⟨_, List.mem_map_of_mem hb, ?_⟩
      rw [← same, h.spanSize block here, here]

/-- No page is lost, and no span stays without a reason. -/
theorem Holds.accounts (h : r.Holds spans small large) :
    Accounts r (cutSpans r.memory.cpu.pages spans) (ownBlocks r.memory large) := by
  have sane := h.tidy.sane
  have sep := sane.rep.known.separate
  have owned : ∀ x ∈ cutSpans r.memory.cpu.pages spans, Owned r.memory.cpu.pages spans x.1 x.2 := by
    rintro ⟨p, start⟩ hx
    obtain ⟨n, block, pool⟩ := mem_cutSpans.mp hx
    have whole := (sane.pooled p start n block pool).whole
    exact ⟨whole ▸ block, pool⟩
  refine ⟨?_, ⟨?_, ?_⟩, ?_, ?_, ?_, h.tidy.cached⟩
  · have all := PageRun.tiled_sum sane.rep.tiles
    rw [sane.nrPages] at all
    have split := spans_split fun p start n block pool => (sane.pooled p start n block pool).whole
    have sizes := (h.own_perm.map Prod.snd).sum_eq
    rw [List.map_map, List.map_map] at sizes
    rw [sane.rep.known.counted]
    have left : (ownBlocks r.memory large).map Prod.snd =
        (ownBlocks r.memory large).map (Prod.snd ∘ fun x => (x.1.addr, x.2)) := rfl
    have right : (ownSpans r.memory.cpu.pages spans).map
        (Prod.snd ∘ fun sp => (sp.start * pageSize, sp.size)) =
        (ownSpans r.memory.cpu.pages spans).map PageSpan.size := rfl
    rw [left, sizes, right]
    omega
  · exact (starts_nodup sep).sublist (cutSpans_sublist _ _)
  · rw [ownBlocks, List.map_map]
    exact h.distinct
  · intro b hb
    rcases List.mem_append.mp (h.live.mem_iff.mp hb) with hb | hb
    · obtain ⟨p, start, obj, -⟩ := h.smalls b hb
      exact Or.inr ⟨(p, start), mem_cutSpans.mpr ⟨_, obj.1⟩, obj.2⟩
    · exact Or.inl ⟨_, List.mem_map_of_mem hb⟩
  · intro x hx
    obtain ⟨b, hb, rfl⟩ := List.mem_map.mp hx
    obtain ⟨start, n, block, addr, fits, -⟩ := h.larges b hb
    refine ⟨h.live.mem_iff.mpr (List.mem_append_right small hb), ?_⟩
    rw [h.spanSize block addr]
    exact fits
  · rintro ⟨p, start⟩ hx
    have own : Owned r.memory.cpu.pages spans p start := owned _ hx
    refine ⟨(sane.pooled_of own).index, ?_⟩
    -- an object that is not in the freelist of its span is in one of the other places
    obtain ⟨a, mem, missing⟩ : ∃ a ∈ objects p start, a ∉ r.memory.freelists start := by
      by_contra all
      push Not at all
      have sub := List.subperm_of_subset (objects_nodup (sane.sound own) start) all
      have few := h.tidy.busy p start own
      have len := sub.length_le
      rw [length_objects] at len
      omega
    refine ⟨a, mem, ?_⟩
    have once := sane.placed.once (a := a) ⟨own, mem⟩
    rw [List.count_eq_zero.mpr missing] at once
    by_cases ready : a ∈ r.memory.frees p
    · exact Or.inr ready
    · rw [List.count_eq_zero.mpr ready] at once
      have out : a ∈ small.map Block.addr := List.count_pos_iff.mp (by omega)
      obtain ⟨b, hb, same⟩ := List.mem_map.mp out
      exact Or.inl ⟨b, h.live.mem_iff.mpr (List.mem_append_left large hb), same⟩

end MemoryRun

end XiRuntime
