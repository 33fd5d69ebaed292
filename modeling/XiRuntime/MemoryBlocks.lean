import XiRuntime.SizeClasses
import XiRuntime.SmallPoolCalls

namespace XiRuntime

open LinkRing CpuPages SmallPool CpuMemory

/-- What was asked for; a block that `sized` says it of may be freed with its size. -/
structure Block where
  addr : Nat
  size : Nat
  align : Nat
  sized : Bool
deriving DecidableEq, Repr

namespace Block

/-- The bytes that may be used. -/
def room (b : Block) : Nat := max b.size sizeofFreeObject

def Apart (a b : Block) : Prop := a.addr + a.room ≤ b.addr ∨ b.addr + b.room ≤ a.addr

/-- The block is an object of a pool, and of that of its size if it may be freed with it. -/
def IsSmall (m : CpuMemory) (spans : List PageSpan) (b : Block) : Prop :=
  ∃ p start, IsObject m.cpu.pages spans p start b.addr ∧ b.room ≤ (sizeClass p).objectSize ∧
    (b.sized = true → b.room ≤ maxSmallAllocation ∧ p = usizeoIdx b.room)

/-- The pages that the block needs. -/
def Fits (b : Block) (n : Nat) : Prop :=
  b.room ≤ n * pageSize ∧ n * pageSize < max b.room b.align + pageSize

/-- The block has pages of its own. -/
def IsLarge (m : CpuMemory) (spans : List PageSpan) (b : Block) : Prop :=
  ∃ start n, Large m.cpu.pages spans start n ∧ b.addr = start * pageSize ∧ b.Fits n ∧
    (b.sized = true → maxSmallAllocation < b.room)

end Block

/-- The memory of a cpu and the blocks that are in use. -/
structure MemoryRun where
  memory : CpuMemory
  live : List Block

inductive MemoryCall where
  | allocate (size : Nat)
  | allocateAligned (align size : Nat)
  | free (block : Block)
  | freeSized (block : Block)
  | shrink (block : Block) (newSize : Nat)
  | realloc (block : Block) (size : Nat)
deriving DecidableEq, Repr

namespace MemoryRun

/-- The blocks after a request. -/
def hold (live : List Block) (size align : Nat) (sized : Bool) : Option Nat → List Block
  | none => live
  | some ptr => ⟨ptr, size, align, sized⟩ :: live

/-- The blocks after a block has got another size; it has been freed if that is 0, and it is still
there if `nullptr` comes back for another one. -/
def rehold (live : List Block) (block : Block) (size : Nat) : Option Nat → List Block
  | none => if size = 0 then live.erase block else live
  | some ptr => ⟨ptr, size, if ptr = block.addr then block.align else 1, false⟩ :: live.erase block

def step (r : MemoryRun) : MemoryCall → Option MemoryRun
  | .allocate size => do
    let (ptr, memory) ← r.memory.allocate size
    some ⟨memory, hold r.live size 1 true ptr⟩
  | .allocateAligned align size => do
    let (ptr, memory) ← r.memory.allocateAligned align size
    some ⟨memory, hold r.live size align false ptr⟩
  | .free block => do
    let memory ← r.memory.free block.addr
    some ⟨memory, r.live.erase block⟩
  | .freeSized block => do
    let memory ← r.memory.freeSized block.addr block.size
    some ⟨memory, r.live.erase block⟩
  | .shrink block newSize => do
    let memory ← r.memory.shrink block.addr newSize
    some ⟨memory, rehold r.live block newSize (some block.addr)⟩
  | .realloc block size => do
    let (ptr, memory) ← r.memory.realloc block.addr size
    some ⟨memory, rehold r.live block size ptr⟩

/-- The requests whose pages fit into `unsigned`, and the blocks that are in use. -/
def Admits (r : MemoryRun) : MemoryCall → Prop
  | .allocate size => size ≤ 2 ^ 43
  | .allocateAligned align size => (∃ k, align = 2 ^ k) ∧ align ≤ 2 ^ 42 ∧ size ≤ 2 ^ 42
  | .free block => block ∈ r.live
  | .freeSized block => block ∈ r.live ∧ block.sized = true
  | .shrink block newSize => block ∈ r.live ∧ 0 < newSize ∧ newSize ≤ r.memory.objectSize block.addr
  | .realloc block size => block ∈ r.live ∧ size ≤ 2 ^ 43

/-- The pools and the pages agree with the blocks. -/
structure Holds (r : MemoryRun) (spans : List PageSpan) (small large : List Block) : Prop where
  tidy : Tidy r.memory spans (small.map Block.addr)
  live : r.live.Perm (small ++ large)
  smalls : ∀ b ∈ small, b.IsSmall r.memory spans
  larges : ∀ b ∈ large, b.IsLarge r.memory spans
  distinct : (large.map Block.addr).Nodup
  owner : ∀ start n, Large r.memory.cpu.pages spans start n → ∃ b ∈ large, b.addr = start * pageSize
  aligned : ∀ b ∈ r.live, b.align ∣ b.addr

variable {r : MemoryRun} {m' : CpuMemory} {spans spans' : List PageSpan} {small large kept : List Block}
  {b : Block} {n : Nat}

/-- The calls of a pool leave the blocks where they are. -/
theorem Holds.carried (h : r.Holds spans small large) (sub : kept ⊆ small)
    (carried : Carried r.memory m' spans spans' (kept.map Block.addr)) :
    (∀ b ∈ kept, b.IsSmall m' spans') ∧ (∀ b ∈ large, b.IsLarge m' spans') ∧
      ∀ start n, Large m'.cpu.pages spans' start n → ∃ b ∈ large, b.addr = start * pageSize := by
  refine ⟨?_, ?_, ?_⟩
  · intro b hb
    obtain ⟨p, start, obj, room, own⟩ := h.smalls b (sub hb)
    exact ⟨p, start, carried.objects p start b.addr (List.mem_map_of_mem hb) obj, room, own⟩
  · intro b hb
    obtain ⟨start, n, large, rest⟩ := h.larges b hb
    exact ⟨start, n, (carried.large start n).mpr large, rest⟩
  · intro start n large
    exact h.owner start n ((carried.large start n).mp large)

/-- A request that a pool meets. -/
theorem Holds.allocateSmall (h : r.Holds spans small large) (low : 8 ≤ n) (high : n ≤ maxSmallAllocation)
    (size align : Nat) (sized : Bool) (room : max size sizeofFreeObject ≤ n)
    (own : sized = true → n = max size sizeofFreeObject)
    (aligned : ∀ start, ∀ a ∈ objects (usizeoIdx n) start, align ∣ a) :
    ∃ result m' spans' small', r.memory.allocateSmall n = some (result, m') ∧
      Holds ⟨m', hold r.live size align sized result⟩ spans' small' large ∧
      (result = none → Exhausted m' spans' (small'.map Block.addr) (usizeoIdx n)) := by
  have four : 4 ≤ n := by omega
  have index := usizeoIdx_lt four high
  have enough : n ≤ (sizeClass (usizeoIdx n)).objectSize := (usizeoIdx_le_iff four).mp (Nat.le_refl _)
  obtain ⟨result, m', spans', taken, carried, spec⟩ := h.tidy.allocateFrom index
  obtain ⟨smalls, larges, owner⟩ := h.carried (List.Subset.refl small) carried
  have done : r.memory.allocateSmall n = some (result, m') := by
    rw [CpuMemory.allocateSmall, if_neg (Nat.not_lt.mpr enough)]
    exact taken
  cases result with
  | none =>
    exact ⟨none, m', spans', small, done, ⟨spec.1, h.live, smalls, larges, h.distinct, owner, h.aligned⟩,
      fun _ => spec.2⟩
  | some obj =>
    obtain ⟨tidy, start, mine⟩ := spec
    refine ⟨some obj, m', spans', ⟨obj, size, align, sized⟩ :: small, done,
      ⟨tidy, h.live.cons _, ?_, larges, h.distinct, owner, ?_⟩, by simp⟩
    · intro b hb
      rcases List.mem_cons.mp hb with rfl | hb
      · refine ⟨usizeoIdx n, start, mine, Nat.le_trans room enough, fun sized => ?_⟩
        have same := own sized
        show max size sizeofFreeObject ≤ maxSmallAllocation ∧
          usizeoIdx n = usizeoIdx (max size sizeofFreeObject)
        rw [← same]
        exact ⟨high, rfl⟩
      · exact smalls b hb
    · intro b hb
      rcases List.mem_cons.mp hb with rfl | hb
      · exact aligned start obj mine.2
      · exact h.aligned b hb

/-- A request for pages. -/
theorem Holds.granted (h : r.Holds spans small large) {cpu : CpuPages} {asked alignPages : Nat}
    {result : Option Nat} (granted : Granted r.memory.cpu cpu spans spans' asked alignPages n result)
    (size align : Nat) (sized : Bool) (fits : ∀ ptr, (Block.mk ptr size align sized).Fits n)
    (own : sized = true → maxSmallAllocation < max size sizeofFreeObject)
    (aligned : align ∣ alignPages * pageSize) :
    ∃ large', Holds ⟨⟨cpu, r.memory.pools⟩, hold r.live size align sized result⟩ spans' small large' ∧
      (result = none → ∀ sp ∈ spans', sp.free = true → sp.size < asked) := by
  have sep := h.tidy.sane.rep.known.separate
  cases result with
  | none =>
    obtain ⟨rfl, rfl, full⟩ := granted
    exact ⟨large, h, fun _ => full⟩
  | some ptr =>
    obtain ⟨start, rfl, dvd, work, block, fresh⟩ := granted
    obtain ⟨tidy, objects⟩ := h.tidy.reblock work fun q own => fresh _ own.1
    have others : ∀ a k, Large r.memory.cpu.pages spans a k → a ≠ start := by
      rintro a k old rfl
      exact fresh k old.1
    refine ⟨⟨start * pageSize, size, align, sized⟩ :: large, ⟨tidy, ?_, ?_, ?_, ?_, ?_, ?_⟩, by simp⟩
    · exact (h.live.cons _).trans List.perm_middle.symm
    · intro b hb
      obtain ⟨p, x, obj, rest⟩ := h.smalls b hb
      exact ⟨p, x, objects p x b.addr obj, rest⟩
    · intro b hb
      rcases List.mem_cons.mp hb with rfl | hb
      · exact ⟨start, n, block, rfl, fits _, own⟩
      · obtain ⟨a, k, old, rest⟩ := h.larges b hb
        exact ⟨a, k, (work.large sep (others a k old) k).mpr old, rest⟩
    · refine List.nodup_cons.mpr ⟨fun mem => ?_, h.distinct⟩
      obtain ⟨b, hb, same⟩ := List.mem_map.mp mem
      obtain ⟨a, k, old, addr, -⟩ := h.larges b hb
      rw [addr] at same
      exact others a k old (Nat.eq_of_mul_eq_mul_right (by decide) same)
    · intro a k here
      by_cases first : a = start
      · subst first
        exact ⟨_, List.mem_cons_self, rfl⟩
      · obtain ⟨b, hb, addr⟩ := h.owner a k ((work.large sep first k).mp here)
        exact ⟨b, List.mem_cons_of_mem _ hb, addr⟩
    · intro b hb
      rcases List.mem_cons.mp hb with rfl | hb
      · exact Nat.dvd_trans aligned (Nat.mul_dvd_mul_right dvd _)
      · exact h.aligned b hb

theorem Holds.live_small (h : r.Holds spans small large) (hb : b ∈ small) :
    (r.live.erase b).Perm (small.erase b ++ large) := by
  have erased := h.live.erase b
  rwa [List.erase_append_left large hb] at erased

theorem Holds.live_large (h : r.Holds spans small large) (hb : b ∈ large) :
    (r.live.erase b).Perm (small ++ large.erase b) := by
  have erased := (h.live.trans List.perm_append_comm).erase b
  rw [List.erase_append_left small hb] at erased
  exact erased.trans List.perm_append_comm

theorem Holds.tidy_erase (h : r.Holds spans small large) (hb : b ∈ small) :
    Tidy r.memory spans (b.addr :: (small.erase b).map Block.addr) :=
  h.tidy.perm ((List.perm_cons_erase hb).map Block.addr)

/-- The other blocks with pages of their own begin elsewhere. -/
theorem Holds.elsewhere (h : r.Holds spans small large) (hb : b ∈ large) :
    b.addr ∉ (large.erase b).map Block.addr ∧ ((large.erase b).map Block.addr).Nodup := by
  have distinct := ((List.perm_cons_erase hb).map Block.addr).nodup_iff.mp h.distinct
  exact List.nodup_cons.mp distinct

/-- An object is freed. -/
theorem Holds.deallocate (h : r.Holds spans small large) (hb : b ∈ small) {p start : Nat}
    (obj : IsObject r.memory.cpu.pages spans p start b.addr) :
    ∃ m' spans', r.memory.deallocate p b.addr = some m' ∧
      Holds ⟨m', r.live.erase b⟩ spans' (small.erase b) large := by
  obtain ⟨m', spans', freed, tidy, carried⟩ := (h.tidy_erase hb).deallocate obj
  obtain ⟨smalls, larges, owner⟩ := h.carried List.erase_subset carried
  refine ⟨m', spans', freed, ⟨tidy, h.live_small hb, smalls, larges, h.distinct, owner, ?_⟩⟩
  intro b hb
  exact h.aligned b (List.mem_of_mem_erase hb)

/-- What is done to the pages of a block leaves the others. -/
theorem Holds.reblocked (h : r.Holds spans small large) (hb : b ∈ large) {cpu : CpuPages} {start : Nat}
    (block : Large r.memory.cpu.pages spans start n) (addr : b.addr = start * pageSize)
    (work : Reblocked r.memory.cpu cpu spans spans' start) :
    Tidy ⟨cpu, r.memory.pools⟩ spans' (small.map Block.addr) ∧
      (∀ b ∈ small, b.IsSmall ⟨cpu, r.memory.pools⟩ spans') ∧
      (∀ b' ∈ large.erase b, b'.IsLarge ⟨cpu, r.memory.pools⟩ spans') ∧
      ∀ a k, Large cpu.pages spans' a k → a ≠ start → ∃ b' ∈ large.erase b, b'.addr = a * pageSize := by
  have sep := h.tidy.sane.rep.known.separate
  obtain ⟨tidy, objects⟩ := h.tidy.reblock work (Sane.not_owned_large block)
  obtain ⟨away, -⟩ := h.elsewhere hb
  refine ⟨tidy, ?_, ?_, ?_⟩
  · intro b hb
    obtain ⟨p, x, obj, rest⟩ := h.smalls b hb
    exact ⟨p, x, objects p x b.addr obj, rest⟩
  · intro b' hb'
    obtain ⟨a, k, old, addr', rest⟩ := h.larges b' (List.mem_of_mem_erase hb')
    have other : a ≠ start := by
      rintro rfl
      exact away (addr.trans addr'.symm ▸ List.mem_map_of_mem hb')
    exact ⟨a, k, (work.large sep other k).mpr old, addr', rest⟩
  · intro a k here other
    obtain ⟨b', hb', addr'⟩ := h.owner a k ((work.large sep other k).mp here)
    refine ⟨b', (List.mem_erase_of_ne ?_).mpr hb', addr'⟩
    rintro rfl
    exact other (Nat.eq_of_mul_eq_mul_right (by decide) (addr'.symm.trans addr))

/-- The pages of a block are freed. -/
theorem Holds.freeLarge (h : r.Holds spans small large) (hb : b ∈ large) :
    ∃ m' spans', r.memory.freeLarge b.addr = some m' ∧
      Holds ⟨m', r.live.erase b⟩ spans' small (large.erase b) := by
  obtain ⟨start, n, block, addr, -⟩ := h.larges b hb
  obtain ⟨cpu, spans', freed, work, gone⟩ := Rep.freed h.tidy.sane.rep block.1
  obtain ⟨tidy, smalls, larges, owner⟩ := h.reblocked hb block addr work
  refine ⟨⟨cpu, r.memory.pools⟩, spans', ?_,
    ⟨tidy, h.live_large hb, smalls, larges, (h.elsewhere hb).2, ?_, ?_⟩⟩
  · rw [CpuMemory.freeLarge, addr, freed]
    rfl
  · intro a k here
    refine owner a k here ?_
    rintro rfl
    exact gone k here.1
  · intro b hb
    exact h.aligned b (List.mem_of_mem_erase hb)

theorem rehold_self (live : List Block) (b : Block) (size : Nat) :
    rehold live b size (some b.addr) = ⟨b.addr, size, b.align, false⟩ :: live.erase b := by
  simp [rehold]

/-- An object keeps its place and gets another size. -/
theorem Holds.resizeSmall (h : r.Holds spans small large) (hb : b ∈ small) {p start size : Nat}
    (obj : IsObject r.memory.cpu.pages spans p start b.addr)
    (room : max size sizeofFreeObject ≤ (sizeClass p).objectSize) :
    Holds ⟨r.memory, rehold r.live b size (some b.addr)⟩ spans
      (⟨b.addr, size, b.align, false⟩ :: small.erase b) large := by
  rw [rehold_self]
  refine ⟨h.tidy_erase hb, (h.live_small hb).cons _, ?_, h.larges, h.distinct, h.owner, ?_⟩
  · intro b' hb'
    rcases List.mem_cons.mp hb' with rfl | hb'
    · exact ⟨p, start, obj, room, by simp⟩
    · exact h.smalls b' (List.mem_of_mem_erase hb')
  · intro b' hb'
    rcases List.mem_cons.mp hb' with rfl | hb'
    · exact h.aligned b (h.live.mem_iff.mpr (List.mem_append_left large hb))
    · exact h.aligned b' (List.mem_of_mem_erase hb')

/-- A block of pages keeps its place and gets another size. -/
theorem Holds.resizeLarge (h : r.Holds spans small large) (hb : b ∈ large) {cpu : CpuPages}
    {start k size : Nat} (block : Large r.memory.cpu.pages spans start n)
    (addr : b.addr = start * pageSize)
    (work : Reblocked r.memory.cpu cpu spans spans' start) (now : Large cpu.pages spans' start k)
    (fits : (Block.mk b.addr size b.align false).Fits k) :
    Holds ⟨⟨cpu, r.memory.pools⟩, rehold r.live b size (some b.addr)⟩ spans' small
      (⟨b.addr, size, b.align, false⟩ :: large.erase b) := by
  obtain ⟨tidy, smalls, larges, owner⟩ := h.reblocked hb block addr work
  obtain ⟨away, distinct⟩ := h.elsewhere hb
  rw [rehold_self]
  refine ⟨tidy, ((h.live_large hb).cons _).trans List.perm_middle.symm, smalls, ?_,
    List.nodup_cons.mpr ⟨away, distinct⟩, ?_, ?_⟩
  · intro b' hb'
    rcases List.mem_cons.mp hb' with rfl | hb'
    · exact ⟨start, k, now, addr, fits, by simp⟩
    · exact larges b' hb'
  · intro a j here
    by_cases first : a = start
    · subst first
      exact ⟨_, List.mem_cons_self, addr⟩
    · obtain ⟨b', hb', addr'⟩ := owner a j here first
      exact ⟨b', List.mem_cons_of_mem _ hb', addr'⟩
  · intro b' hb'
    rcases List.mem_cons.mp hb' with rfl | hb'
    · exact h.aligned b (h.live.mem_iff.mpr (List.mem_append_right small hb))
    · exact h.aligned b' (List.mem_of_mem_erase hb')

end MemoryRun

end XiRuntime
