import XiRuntime.MemoryBlocks

namespace XiRuntime

open LinkRing CpuPages SmallPool CpuMemory

/-- The pages of a size are as few as have room for it. -/
theorem CpuMemory.sizeInPages_spec {size : Nat} (pos : 0 < size) (high : size ≤ 2 ^ 43) :
    0 < sizeInPages size ∧ size ≤ sizeInPages size * pageSize ∧
      sizeInPages size * pageSize < size + pageSize := by
  have same : sizeInPages size = (size + pageSize - 1) / pageSize := by
    rw [sizeInPages, Nat.shiftRight_eq_div_pow]
    refine Nat.mod_eq_of_lt ((Nat.div_lt_iff_lt_mul (by decide)).mpr ?_)
    show size + 4096 - 1 < 2 ^ 32 * 4096
    omega
  rw [same]
  show 0 < (size + 4096 - 1) / 4096 ∧ size ≤ (size + 4096 - 1) / 4096 * 4096 ∧
    (size + 4096 - 1) / 4096 * 4096 < size + 4096
  exact ⟨by omega, by omega, by omega⟩

theorem CpuMemory.alignPages_spec (k : Nat) :
    0 < max (2 ^ k) pageSize >>> pageBits ∧ 2 ^ k ∣ (max (2 ^ k) pageSize >>> pageBits) * pageSize := by
  rw [Nat.shiftRight_eq_div_pow]
  show 0 < max (2 ^ k) pageSize / pageSize ∧ 2 ^ k ∣ max (2 ^ k) pageSize / pageSize * pageSize
  rcases Nat.le_total k pageBits with below | above
  · have le : 2 ^ k ≤ pageSize := Nat.pow_le_pow_right (by decide) below
    rw [Nat.max_eq_right le, Nat.div_self (by decide), Nat.one_mul]
    exact ⟨Nat.one_pos, Nat.pow_dvd_pow 2 below⟩
  · have le : pageSize ≤ 2 ^ k := Nat.pow_le_pow_right (by decide) above
    have dvd : pageSize ∣ 2 ^ k := Nat.pow_dvd_pow 2 above
    rw [Nat.max_eq_left le, Nat.div_mul_cancel dvd]
    exact ⟨Nat.div_pos le (by decide), Nat.dvd_refl _⟩

/-- The class of a power of two keeps to it. -/
theorem CpuMemory.objects_aligned {i k start a : Nat} (page : 2 ^ i ≤ pageSize) (low : 2 ^ i ≤ 2 ^ k)
    (two : 2 ≤ k) (mem : a ∈ objects (usizeoIdx (2 ^ k)) start) : 2 ^ i ∣ a := by
  obtain ⟨j, -, rfl⟩ := mem_objects.mp mem
  obtain ⟨k, rfl⟩ := Nat.exists_eq_add_of_le' two
  have bits : i ≤ pageBits := (Nat.pow_le_pow_iff_right (by decide)).mp page
  have le : i ≤ k + 2 := (Nat.pow_le_pow_iff_right (by decide)).mp low
  have own : (sizeClass (usizeoIdx (2 ^ (k + 2)))).objectSize = 2 ^ (k + 2) := idxToSize_two_pow k
  rw [object, own]
  exact Nat.dvd_add (Nat.dvd_mul_left_of_dvd (Nat.pow_dvd_pow 2 bits) _)
    (Nat.dvd_mul_left_of_dvd (Nat.pow_dvd_pow 2 le) _)

/-- Where a block lies. -/
def Block.Within (b : Block) (start n : Nat) : Prop :=
  start * pageSize ≤ b.addr ∧ b.addr + b.room ≤ (start + n) * pageSize

theorem Block.Apart.symm {a b : Block} (h : a.Apart b) : b.Apart a := Or.symm h

theorem Block.Apart.addr_ne {a b : Block} (h : a.Apart b) : a.addr ≠ b.addr := by
  have left : sizeofFreeObject ≤ a.room := Nat.le_max_right _ _
  have right : sizeofFreeObject ≤ b.room := Nat.le_max_right _ _
  have pos : 0 < sizeofFreeObject := by decide
  unfold Block.Apart at h
  omega

/-- Blocks in different spans do not overlap. -/
theorem Block.Within.apart {spans : List PageSpan} (sep : Separate spans) {a b : Block} {x k y j : Nat}
    (ha : a.Within x k) (hb : b.Within y j) (hx : blocksOf spans x k) (hy : blocksOf spans y j)
    (ne : x ≠ y) : a.Apart b := by
  have apart := sep.mem_apart hx hy fun same => ne (congrArg PageSpan.start same)
  rcases apart with below | above
  · have le : (x + k) * pageSize ≤ y * pageSize := Nat.mul_le_mul_right _ below
    exact Or.inl (Nat.le_trans ha.2 (Nat.le_trans le hb.1))
  · have le : (y + j) * pageSize ≤ x * pageSize := Nat.mul_le_mul_right _ above
    exact Or.inr (Nat.le_trans hb.2 (Nat.le_trans le ha.1))

namespace MemoryRun

variable {r : MemoryRun} {m' : CpuMemory} {spans spans' : List PageSpan} {small large : List Block}
  {b : Block} {n : Nat}

theorem within_span {m : CpuMemory} {p start : Nat} (obj : IsObject m.cpu.pages spans p start b.addr)
    (room : b.room ≤ (sizeClass p).objectSize) : b.Within start (sizeClass p).spanSize := by
  obtain ⟨low, high⟩ := object_bounds obj.2
  exact ⟨low, Nat.le_trans (Nat.add_le_add_left room _) high⟩

theorem within_pages {start : Nat} (addr : b.addr = start * pageSize) (fits : b.Fits n) :
    b.Within start n := by
  refine ⟨Nat.le_of_eq addr.symm, ?_⟩
  rw [addr, Nat.add_mul]
  exact Nat.add_le_add_left fits.1 _

/-- The blocks in use do not overlap. -/
theorem Holds.apart (h : r.Holds spans small large) : r.live.Pairwise Block.Apart := by
  have sep := h.tidy.sane.rep.known.separate
  refine h.live.symm.pairwise (List.pairwise_append.mpr ⟨?_, ?_, ?_⟩) fun apart => apart.symm
  · have distinct := List.pairwise_map.mp h.tidy.sane.placed.nodup_out
    refine distinct.imp_of_mem ?_
    intro a b ha hb ne
    obtain ⟨p, x, obj, room, -⟩ := h.smalls a ha
    obtain ⟨q, y, obj', room', -⟩ := h.smalls b hb
    by_cases same : x = y
    · subst same
      obtain rfl := obj.1.eq obj'.1
      have apart := objects_apart obj.2 obj'.2 ne
      unfold Block.Apart
      omega
    · exact (within_span obj room).apart sep (within_span obj' room') obj.1.1 obj'.1.1 same
  · refine (List.pairwise_map.mp h.distinct).imp_of_mem ?_
    intro a b ha hb ne
    obtain ⟨x, k, block, addr, fits, -⟩ := h.larges a ha
    obtain ⟨y, j, block', addr', fits', -⟩ := h.larges b hb
    refine (within_pages addr fits).apart sep (within_pages addr' fits') block.1 block'.1 ?_
    rintro rfl
    exact ne (addr.trans addr'.symm)
  · intro a ha b hb
    obtain ⟨p, x, obj, room, -⟩ := h.smalls a ha
    obtain ⟨y, j, block, addr, fits, -⟩ := h.larges b hb
    refine (within_span obj room).apart sep (within_pages addr fits) obj.1.1 block.1 ?_
    rintro rfl
    exact Sane.not_owned_large block p obj.1

/-- The blocks lie behind the page array and inside the memory. -/
theorem Holds.inside (h : r.Holds spans small large) (hb : b ∈ r.live) :
    reserved bootPages * pageSize ≤ b.addr ∧ b.addr + b.room ≤ bootPages * pageSize := by
  obtain ⟨start, k, block, low, high⟩ : ∃ start k, blocksOf spans start k ∧ b.Within start k := by
    rcases List.mem_append.mp (h.live.mem_iff.mp hb) with hb | hb
    · obtain ⟨p, x, obj, room, -⟩ := h.smalls b hb
      exact ⟨x, _, obj.1.1, within_span obj room⟩
    · obtain ⟨x, k, block, addr, fits, -⟩ := h.larges b hb
      exact ⟨x, k, block.1, within_pages addr fits⟩
  obtain ⟨first, -, last⟩ := h.tidy.sane.rep.tiles.bounds _ block
  rw [h.tidy.sane.nrPages] at last
  have below : start * pageSize ≥ reserved bootPages * pageSize := Nat.mul_le_mul_right _ first
  have above : (start + k) * pageSize ≤ bootPages * pageSize := Nat.mul_le_mul_right _ last
  exact ⟨Nat.le_trans below low, Nat.le_trans high above⟩

/-- Why a request fails: all objects of its class are out and there is no room for another span, or
no room for its pages. -/
def Refused (m : CpuMemory) (spans : List PageSpan) (out : List Nat) (n : Nat) : Prop :=
  if n ≤ maxSmallAllocation then Exhausted m spans out (usizeoIdx n)
  else ∀ sp ∈ spans, sp.free = true → sp.size < sizeInPages n

theorem Holds.allocate (h : r.Holds spans small large) {size : Nat} (fits : size ≤ 2 ^ 43)
    (sized : Bool) :
    ∃ result m' spans' small' large', r.memory.allocate size = some (result, m') ∧
      Holds ⟨m', hold r.live size 1 sized result⟩ spans' small' large' ∧
      (result = none → Refused m' spans' (small'.map Block.addr) (max size sizeofFreeObject)) := by
  have low : 8 ≤ max size sizeofFreeObject := Nat.le_max_right _ _
  have high : max size sizeofFreeObject ≤ 2 ^ 43 := Nat.max_le.mpr ⟨fits, by decide⟩
  unfold CpuMemory.allocate Refused
  simp only
  by_cases little : max size sizeofFreeObject ≤ maxSmallAllocation
  · rw [if_pos little]
    obtain ⟨result, m', spans', small', taken, holds, refused⟩ := h.allocateSmall low little size 1 sized
      (Nat.le_refl _) (fun _ => rfl) (fun _ _ _ => Nat.one_dvd _)
    refine ⟨result, m', spans', small', large, taken, holds, fun none' => ?_⟩
    rw [if_pos little]
    exact refused none'
  · rw [if_neg little]
    obtain ⟨pos, room, tight⟩ := sizeInPages_spec (Nat.lt_of_lt_of_le (by decide) low) high
    have enough : ¬ sizeInPages (max size sizeofFreeObject) <<< pageBits <
        max size sizeofFreeObject := by
      rw [Nat.shiftLeft_eq]
      exact Nat.not_lt.mpr room
    obtain ⟨result, cpu, spans', taken, granted⟩ :=
      Rep.allocateLarge h.tidy.sane.rep h.tidy.sane.nrPages pos
    obtain ⟨large', holds, refused⟩ := h.granted granted size 1 sized
      (fun _ => ⟨room, Nat.lt_of_lt_of_le tight (Nat.add_le_add_right (Nat.le_max_left _ _) _)⟩)
      (fun _ => Nat.not_le.mp little) (Nat.one_dvd _)
    refine ⟨result, _, spans', small, large', ?_, holds, fun none' => ?_⟩
    · rw [CpuMemory.allocateLarge, if_neg (by omega), taken]
      rfl
    · rw [if_neg little]
      exact refused none'

theorem Holds.allocateAligned (h : r.Holds spans small large) {align size : Nat}
    (power : ∃ k, align = 2 ^ k) (low : align ≤ 2 ^ 42) (fits : size ≤ 2 ^ 42) :
    ∃ result m' spans' small' large', r.memory.allocateAligned align size = some (result, m') ∧
      Holds ⟨m', hold r.live size align false result⟩ spans' small' large' := by
  obtain ⟨i, rfl⟩ := power
  have wide : max size sizeofFreeObject ≤ max (max size (2 ^ i)) sizeofFreeObject :=
    max_le_max (Nat.le_max_left _ _) (Nat.le_refl _)
  have above : 2 ^ i ≤ max (max size (2 ^ i)) sizeofFreeObject :=
    Nat.le_trans (Nat.le_max_right _ _) (Nat.le_max_left _ _)
  have eight : 8 ≤ max (max size (2 ^ i)) sizeofFreeObject := Nat.le_max_right _ _
  have high : max (max size (2 ^ i)) sizeofFreeObject ≤ 2 ^ 42 :=
    Nat.max_le.mpr ⟨Nat.max_le.mpr ⟨fits, low⟩, by decide⟩
  have most : max (max size (2 ^ i)) sizeofFreeObject ≤ max (max size sizeofFreeObject) (2 ^ i) := by
    omega
  unfold CpuMemory.allocateAligned
  simp only
  generalize max (max size (2 ^ i)) sizeofFreeObject = whole at wide above eight high most
  split
  next little =>
    obtain ⟨ceil, least⟩ := log2ceil_spec (Nat.le_trans (by decide) eight)
    have top : log2ceil whole ≤ 14 := least 14 little.1
    have enough : 2 ^ log2ceil whole ≤ maxSmallAllocation := Nat.pow_le_pow_right (by decide) top
    have two : 2 ≤ log2ceil whole := by
      by_contra small
      have tiny : 2 ^ log2ceil whole ≤ 2 ^ 1 := Nat.pow_le_pow_right (by decide) (by omega)
      omega
    rw [Nat.one_shiftLeft]
    obtain ⟨result, m', spans', small', taken, holds, -⟩ := h.allocateSmall
      (Nat.le_trans eight ceil) enough size (2 ^ i) false (Nat.le_trans wide ceil) (by simp)
      fun start a mem => objects_aligned little.2 (Nat.le_trans above ceil) two mem
    exact ⟨result, m', spans', small', large, taken, holds⟩
  next =>
    obtain ⟨pos, room, tight⟩ := @sizeInPages_spec whole (by omega) (by omega)
    obtain ⟨some', dvd⟩ := alignPages_spec i
    obtain ⟨result, cpu, spans', taken, granted⟩ :=
      Rep.allocateLargeAligned h.tidy.sane.rep h.tidy.sane.nrPages pos some'
    obtain ⟨large', holds, -⟩ := h.granted granted size (2 ^ i) false
      (fun _ => ⟨Nat.le_trans wide room, Nat.lt_of_lt_of_le tight (Nat.add_le_add_right most _)⟩)
      (by simp) dvd
    refine ⟨result, _, spans', small, large', ?_, holds⟩
    rw [CpuMemory.allocateLargeAligned, if_neg (by omega), taken]
    rfl

/-- The page of an object tells its pool. -/
theorem Holds.free_small (h : r.Holds spans small large) (hb : b ∈ small) :
    ∃ m' spans', r.memory.free b.addr = some m' ∧
      Holds ⟨m', r.live.erase b⟩ spans' (small.erase b) large := by
  obtain ⟨p, start, obj, -⟩ := h.smalls b hb
  obtain ⟨m', spans', freed, holds⟩ := h.deallocate hb obj
  refine ⟨m', spans', ?_, holds⟩
  rw [CpuMemory.free, (h.tidy.sane.page_of obj).1]
  exact freed

theorem Holds.free_large (h : r.Holds spans small large) (hb : b ∈ large) :
    ∃ m' spans', r.memory.free b.addr = some m' ∧
      Holds ⟨m', r.live.erase b⟩ spans' small (large.erase b) := by
  obtain ⟨start, n, block, addr, -⟩ := h.larges b hb
  obtain ⟨m', spans', freed, holds⟩ := h.freeLarge hb
  refine ⟨m', spans', ?_, holds⟩
  have pool : (r.memory.cpu.pages (b.addr / pageSize)).pool = none := by
    rw [addr, Nat.mul_div_cancel _ (by decide)]
    exact block.2
  rw [CpuMemory.free, pool]
  exact freed

theorem Holds.free (h : r.Holds spans small large) (used : b ∈ r.live) :
    ∃ m' spans' small' large', r.memory.free b.addr = some m' ∧
      Holds ⟨m', r.live.erase b⟩ spans' small' large' := by
  rcases List.mem_append.mp (h.live.mem_iff.mp used) with hb | hb
  · obtain ⟨m', spans', freed, holds⟩ := h.free_small hb
    exact ⟨m', spans', _, _, freed, holds⟩
  · obtain ⟨m', spans', freed, holds⟩ := h.free_large hb
    exact ⟨m', spans', _, _, freed, holds⟩

/-- The size leads to the pool as well. -/
theorem Holds.freeSized (h : r.Holds spans small large) (used : b ∈ r.live) (sized : b.sized = true) :
    ∃ m' spans' small' large', r.memory.freeSized b.addr b.size = some m' ∧
      Holds ⟨m', r.live.erase b⟩ spans' small' large' := by
  unfold CpuMemory.freeSized
  simp only
  rcases List.mem_append.mp (h.live.mem_iff.mp used) with hb | hb
  · obtain ⟨p, start, obj, -, own⟩ := h.smalls b hb
    obtain ⟨little, rfl⟩ := own sized
    obtain ⟨m', spans', freed, holds⟩ := h.deallocate hb obj
    refine ⟨m', spans', _, _, ?_, holds⟩
    rw [if_pos (show max b.size sizeofFreeObject ≤ maxSmallAllocation from little)]
    exact freed
  · obtain ⟨start, n, block, addr, -, own⟩ := h.larges b hb
    obtain ⟨m', spans', freed, holds⟩ := h.freeLarge hb
    refine ⟨m', spans', _, _, ?_, holds⟩
    rw [if_neg (show ¬ max b.size sizeofFreeObject ≤ maxSmallAllocation from Nat.not_le.mpr (own sized))]
    exact freed

theorem Holds.objectSize_small (h : r.Holds spans small large) {p start : Nat}
    (obj : IsObject r.memory.cpu.pages spans p start b.addr) :
    r.memory.objectSize b.addr = (sizeClass p).objectSize := by
  unfold CpuMemory.objectSize
  simp only
  rw [(h.tidy.sane.page_of obj).1]

theorem Holds.objectSize_large (h : r.Holds spans small large) {start : Nat}
    (block : Large r.memory.cpu.pages spans start n) (addr : b.addr = start * pageSize) :
    r.memory.objectSize b.addr = n * pageSize := by
  have size := (h.tidy.sane.rep.known.marked _ block.1).2.1
  unfold CpuMemory.objectSize
  simp only
  rw [addr, Nat.mul_div_cancel _ (by decide), block.2]
  simp only
  rw [show (r.memory.cpu.pages start).spanSize = n from size]

/-- A block keeps its place; what it does not need goes back if it has pages of its own. -/
theorem Holds.shrink (h : r.Holds spans small large) (used : b ∈ r.live) {newSize : Nat}
    (pos : 0 < newSize) (fits : newSize ≤ r.memory.objectSize b.addr) :
    ∃ m' spans' small' large', r.memory.shrink b.addr newSize = some m' ∧
      Holds ⟨m', rehold r.live b newSize (some b.addr)⟩ spans' small' large' := by
  rcases List.mem_append.mp (h.live.mem_iff.mp used) with hb | hb
  · obtain ⟨p, start, obj, room, -⟩ := h.smalls b hb
    rw [h.objectSize_small obj] at fits
    have eight : sizeofFreeObject ≤ b.room := Nat.le_max_right _ _
    refine ⟨r.memory, spans, _, _, ?_,
      h.resizeSmall hb obj (Nat.max_le.mpr ⟨fits, Nat.le_trans eight room⟩)⟩
    have pool : (r.memory.cpu.pages (b.addr / pageSize)).pool.isSome = true := by
      rw [(h.tidy.sane.page_of obj).1]
      rfl
    rw [CpuMemory.shrink, CpuPages.shrink, if_pos pool]
    rfl
  · obtain ⟨start, n, block, addr, -⟩ := h.larges b hb
    rw [h.objectSize_large block addr] at fits
    obtain ⟨some', enough, room, tight⟩ := alignUp_pages pos fits
    obtain ⟨cpu, spans', shrunk, rep, spares, pool, blocks⟩ :=
      h.tidy.sane.rep.shrink block.1 block.2 some' enough
    have now : blocksOf spans' start (alignUp newSize pageSize / pageSize) := by
      rw [blocksOf, blocks, if_pos rfl]
    have work : Reblocked r.memory.cpu cpu spans spans' start := by
      refine ⟨rep, spares, fun a k other => ?_, fun _ _ => pool⟩
      rw [blocksOf, blocks, if_neg other]
      exact Iff.rfl
    refine ⟨⟨cpu, r.memory.pools⟩, spans', _, _, ?_, h.resizeLarge hb block addr work ⟨now, pool⟩ ?_⟩
    · rw [CpuMemory.shrink, addr, shrunk]
      rfl
    · have page : sizeofFreeObject ≤ 1 * pageSize := by decide
      refine ⟨Nat.max_le.mpr ⟨room, Nat.le_trans page (Nat.mul_le_mul_right _ some')⟩, ?_⟩
      refine Nat.lt_of_lt_of_le tight (Nat.add_le_add_right ?_ _)
      exact Nat.le_trans (Nat.le_max_left _ _) (Nat.le_max_left _ _)

/-- A block takes all of its room. -/
theorem Holds.whole (h : r.Holds spans small large) (used : b ∈ r.live) :
    ∃ small' large', Holds ⟨r.memory, rehold r.live b (r.memory.objectSize b.addr) (some b.addr)⟩ spans
      small' large' := by
  have eight : sizeofFreeObject ≤ b.room := Nat.le_max_right _ _
  rcases List.mem_append.mp (h.live.mem_iff.mp used) with hb | hb
  · obtain ⟨p, start, obj, room, -⟩ := h.smalls b hb
    rw [h.objectSize_small obj]
    exact ⟨_, _, h.resizeSmall hb obj (Nat.max_le.mpr ⟨Nat.le_refl _, Nat.le_trans eight room⟩)⟩
  · obtain ⟨start, n, block, addr, fits, -⟩ := h.larges b hb
    rw [h.objectSize_large block addr]
    have work : Reblocked r.memory.cpu r.memory.cpu spans spans start :=
      ⟨h.tidy.sane.rep, .refl _ _, fun _ _ _ => Iff.rfl, fun k here => by
        have same := h.tidy.sane.rep.known.separate.eq_of_start here block.1 rfl
        exact block.2⟩
    refine ⟨_, _, h.resizeLarge hb block addr work block
      ⟨Nat.max_le.mpr ⟨Nat.le_refl _, Nat.le_trans eight fits.1⟩, ?_⟩⟩
    have pages : 0 < pageSize := by decide
    exact Nat.lt_of_le_of_lt (Nat.le_trans (Nat.le_max_left _ _) (Nat.le_max_left _ _))
      (Nat.lt_add_of_pos_right pages)

theorem Holds.realloc (h : r.Holds spans small large) (used : b ∈ r.live) {size : Nat}
    (fits : size ≤ 2 ^ 43) :
    ∃ result m' spans' small' large', r.memory.realloc b.addr size = some (result, m') ∧
      Holds ⟨m', rehold r.live b size result⟩ spans' small' large' := by
  unfold CpuMemory.realloc
  simp only
  split
  next same =>
    obtain ⟨small', large', holds⟩ := h.whole used
    rw [← same] at holds
    exact ⟨_, _, spans, small', large', rfl, holds⟩
  next =>
    split
    next zero =>
      subst zero
      obtain ⟨m', spans', small', large', freed, holds⟩ := h.free used
      refine ⟨none, m', spans', small', large', by rw [freed]; rfl, ?_⟩
      rw [rehold, if_pos rfl]
      exact holds
    next some' =>
      split
      next less =>
        obtain ⟨m', spans', small', large', shrunk, holds⟩ :=
          h.shrink used (Nat.pos_of_ne_zero some') (Nat.le_of_lt less)
        exact ⟨some b.addr, m', spans', small', large', by rw [shrunk]; rfl, holds⟩
      next =>
        obtain ⟨result, m₁, spans₁, small₁, large₁, taken, holds, -⟩ := h.allocate fits false
        rw [CpuMemory.malloc, if_neg some', taken]
        simp only [Option.bind_eq_bind, Option.bind_some]
        cases result with
        | none =>
          refine ⟨none, m₁, spans₁, small₁, large₁, rfl, ?_⟩
          rw [rehold, if_neg some']
          exact holds
        | some ptr =>
          -- the new block is not the old one
          have other : ptr ≠ b.addr := (List.rel_of_pairwise_cons holds.apart used).addr_ne
          obtain ⟨m', spans', small', large', freed, holds⟩ := holds.free (List.mem_cons_of_mem _ used)
          refine ⟨some ptr, m', spans', small', large', by rw [freed]; rfl, ?_⟩
          have ne : (⟨ptr, size, 1, false⟩ : Block) ≠ b := fun same => other (congrArg Block.addr same)
          rw [hold, List.erase_cons_tail (mt eq_of_beq ne)] at holds
          rw [rehold, if_neg other]
          exact holds

theorem Holds.step (h : r.Holds spans small large) {c : MemoryCall} (admits : r.Admits c) :
    ∃ r' spans' small' large', r.step c = some r' ∧ r'.Holds spans' small' large' := by
  cases c with
  | allocate size =>
    obtain ⟨result, m', spans', small', large', taken, holds, -⟩ := h.allocate admits true
    refine ⟨_, spans', small', large', ?_, holds⟩
    simp only [MemoryRun.step, taken, Option.bind_eq_bind, Option.bind_some]
  | allocateAligned align size =>
    obtain ⟨power, low, fits⟩ := admits
    obtain ⟨result, m', spans', small', large', taken, holds⟩ := h.allocateAligned power low fits
    refine ⟨_, spans', small', large', ?_, holds⟩
    simp only [MemoryRun.step, taken, Option.bind_eq_bind, Option.bind_some]
  | free block =>
    obtain ⟨m', spans', small', large', freed, holds⟩ := h.free admits
    refine ⟨_, spans', small', large', ?_, holds⟩
    simp only [MemoryRun.step, freed, Option.bind_eq_bind, Option.bind_some]
  | freeSized block =>
    obtain ⟨m', spans', small', large', freed, holds⟩ := h.freeSized admits.1 admits.2
    refine ⟨_, spans', small', large', ?_, holds⟩
    simp only [MemoryRun.step, freed, Option.bind_eq_bind, Option.bind_some]
  | shrink block newSize =>
    obtain ⟨used, pos, fits⟩ := admits
    obtain ⟨m', spans', small', large', shrunk, holds⟩ := h.shrink used pos fits
    refine ⟨_, spans', small', large', ?_, holds⟩
    simp only [MemoryRun.step, shrunk, Option.bind_eq_bind, Option.bind_some]
  | realloc block size =>
    obtain ⟨used, fits⟩ := admits
    obtain ⟨result, m', spans', small', large', taken, holds⟩ := h.realloc used fits
    refine ⟨_, spans', small', large', ?_, holds⟩
    simp only [MemoryRun.step, taken, Option.bind_eq_bind, Option.bind_some]

def boot : Option MemoryRun := bootMemory.map fun memory => ⟨memory, []⟩

def run (calls : List MemoryCall) : Option MemoryRun := boot.bind fun r => calls.foldlM step r

/-- Each call of a run is one of those that may be made when it is. -/
def Admitted (calls : List MemoryCall) : Prop :=
  ∀ n c r, calls[n]? = some c → run (calls.take n) = some r → r.Admits c

/-- At the start all pages but those of the page array are free, and the pools are empty. -/
theorem boot_holds : ∃ r spans, boot = some r ∧ r.Holds spans [] [] := by
  obtain ⟨s, initialized, rep, nr⟩ := initializePages_rep
  have booted : boot = some ⟨⟨s, fun _ => ⟨[], 0, PageList.empty⟩⟩, []⟩ := by
    rw [boot, bootMemory, initialized]
    rfl
  have unused : ∀ start n,
      ¬ blocksOf [⟨reserved bootPages, bootPages - reserved bootPages, true⟩] start n := by
    intro start n
    simp [blocksOf]
  refine ⟨_, _, booted, ⟨⟨rep, nr, ?_, ?_, ?_, rfl, ?_⟩, ?_, ?_⟩, List.Perm.refl _, by simp, by simp,
    List.nodup_nil, ?_, by simp⟩
  · intro p start n block
    exact absurd block (unused start n)
  · refine ⟨?_, ?_, ?_, by simp, ?_, ?_⟩
    · rintro p p' x x' a ⟨own, -⟩
      exact absurd own.1 (unused _ _)
    · rintro p p' x a b ⟨own, -⟩
      exact absurd own.1 (unused _ _)
    · rintro p x a ⟨own, -⟩
      exact absurd own.1 (unused _ _)
    · rintro p a mem
      exact absurd mem List.not_mem_nil
    · rintro p x b ⟨own, -⟩
      exact absurd own.1 (unused _ _)
  · intro p start own
    exact absurd own.1 (unused _ _)
  · refine fun p => ⟨[], ring_nil rfl rfl, fun x => ?_⟩
    refine iff_of_false List.not_mem_nil ?_
    rintro ⟨own, -⟩
    exact unused _ _ own.1
  · intro p start own
    exact absurd own.1 (unused _ _)
  · intro p index
    exact Nat.lt_of_lt_of_le (sizeClass_sound index).goal (Nat.le_add_right _ _)
  · intro start n block
    exact absurd block.1 (unused _ _)

theorem run_holds {calls : List MemoryCall} (admitted : Admitted calls) (n : Nat) :
    ∃ r, run (calls.take n) = some r ∧ ∃ spans small large, r.Holds spans small large := by
  obtain ⟨first, spans, booted, holds⟩ := boot_holds
  have runs : ∀ calls, run calls = calls.foldlM MemoryRun.step first := by
    intro calls
    rw [run, booted, Option.bind_some]
  rw [runs]
  refine Runs.partial_total (P := fun r : MemoryRun => ∃ spans small large, r.Holds spans small large)
    ⟨spans, [], [], holds⟩ ?_ n
  rintro n c r hc reached ⟨spans, small, large, here⟩
  obtain ⟨r', spans', small', large', taken, next⟩ :=
    here.step (admitted n c r hc (by rw [runs, reached]))
  exact ⟨r', taken, spans', small', large', next⟩

/-- No assertion fails in a run, and the blocks in use lie apart in the memory, aligned as they
were asked for. -/
theorem memory_calls_keep_blocks (calls : List MemoryCall) (admitted : Admitted calls) (n : Nat) :
    ∃ r, run (calls.take n) = some r ∧ r.live.Pairwise Block.Apart ∧
      ∀ b ∈ r.live, reserved bootPages * pageSize ≤ b.addr ∧ b.addr + b.room ≤ bootPages * pageSize ∧
        b.align ∣ b.addr := by
  obtain ⟨r, reached, spans, small, large, holds⟩ := run_holds admitted n
  refine ⟨r, reached, holds.apart, fun b used => ?_⟩
  obtain ⟨low, high⟩ := holds.inside used
  exact ⟨low, high, holds.aligned b used⟩

/-- Two blocks of a hundred bytes, of which the first is freed with its size. -/
theorem memory_calls_keep_aligned_block :
    Admitted [.allocate 100, .allocateAligned 64 100, .freeSized ⟨278352, 100, 1, true⟩] ∧
      ∃ r, run [.allocate 100, .allocateAligned 64 100, .freeSized ⟨278352, 100, 1, true⟩] = some r ∧
        r.live = [⟨290688, 100, 64, false⟩] ∧ 64 ∣ 290688 := by
  have two : (run [.allocate 100, .allocateAligned 64 100]).map MemoryRun.live =
      some [⟨290688, 100, 64, false⟩, ⟨278352, 100, 1, true⟩] := by decide +kernel
  have three : (run [.allocate 100, .allocateAligned 64 100, .freeSized ⟨278352, 100, 1, true⟩]).map
      MemoryRun.live = some [⟨290688, 100, 64, false⟩] := by decide +kernel
  have admitted :
      Admitted [.allocate 100, .allocateAligned 64 100, .freeSized ⟨278352, 100, 1, true⟩] := by
    intro n c r hc reached
    match n, hc with
    | 0, hc =>
      cases hc
      exact (by decide : 100 ≤ 2 ^ 43)
    | 1, hc =>
      cases hc
      exact ⟨⟨6, rfl⟩, by decide, by decide⟩
    | 2, hc =>
      cases hc
      rw [show List.take 2 [MemoryCall.allocate 100, .allocateAligned 64 100,
        .freeSized ⟨278352, 100, 1, true⟩] = [.allocate 100, .allocateAligned 64 100] from rfl] at reached
      rw [reached] at two
      refine ⟨?_, rfl⟩
      rw [Option.some.inj two]
      decide
  obtain ⟨r, reached, -, blocks⟩ := memory_calls_keep_blocks _ admitted 3
  rw [show List.take 3 [MemoryCall.allocate 100, .allocateAligned 64 100,
    .freeSized ⟨278352, 100, 1, true⟩] = [.allocate 100, .allocateAligned 64 100,
      .freeSized ⟨278352, 100, 1, true⟩] from rfl] at reached
  rw [reached] at three
  have live : r.live = [⟨290688, 100, 64, false⟩] := Option.some.inj three
  have aligned := (blocks ⟨290688, 100, 64, false⟩ (live ▸ List.mem_singleton_self _)).2.2
  exact ⟨admitted, r, reached, live, aligned⟩

end MemoryRun

end XiRuntime
