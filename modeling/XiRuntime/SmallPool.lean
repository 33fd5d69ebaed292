import XiRuntime.PageAllocator

namespace XiRuntime

namespace SmallPool

def idxFracBits : Nat := 2

def idxToSize (idx : Nat) : Nat :=
  (((1 <<< idxFracBits) ||| (idx &&& ((1 <<< idxFracBits) - 1))) <<< (idx >>> idxFracBits)) >>>
    idxFracBits

def log2ceil (n : Nat) : Nat := Nat.log2 (n - 1) + 1

def log2floor (n : Nat) : Nat := Nat.log2 n

/-- `usizeo_idx`, of 4 bytes at least. -/
def usizeoIdx (size : Nat) : Nat :=
  ((log2floor size <<< idxFracBits) - ((1 <<< idxFracBits) - 1)) +
    ((size - 1) >>> (log2floor size - idxFracBits))

end SmallPool

/-- What the constructor of a `small_pool` sets for good. -/
structure SizeClass where
  objectSize : Nat
  spanSize : Nat
  minFree : Nat
  maxFree : Nat
deriving DecidableEq, Repr

namespace SizeClass

/-- Whether spans of so many pages are too small. The quotient that `waste` returns is exact, and
it is never 0.05 itself. -/
def tooSmall (objectSize spanSize : Nat) : Bool :=
  let bytes := spanSize * pageSize
  bytes < objectSize || (spanSize < 32 && bytes < 20 * (bytes % objectSize)) || bytes / objectSize < 32

def spanSizeFrom (objectSize : Nat) : Nat → Nat → Nat
  | 0, spanSize => spanSize
  | rounds + 1, spanSize =>
    if tooSmall objectSize spanSize then spanSizeFrom objectSize rounds (spanSize * 2) else spanSize

def create (objectSize : Nat) : SizeClass :=
  let spanSize := spanSizeFrom objectSize 32 1
  let maxFree := max 100 (spanSize * pageSize * 2 / objectSize)
  ⟨objectSize, spanSize, maxFree / 2, maxFree⟩

def spanBytes (c : SizeClass) : Nat := c.spanSize * pageSize

/-- The objects of one span. -/
def perSpan (c : SizeClass) : Nat := c.spanBytes / c.objectSize

def goal (c : SizeClass) : Nat := (c.minFree + c.maxFree) / 2

end SizeClass

namespace SmallPool

def nrSmallPools : Nat := usizeoIdx (4 * pageSize) + 1

def maxSmallAllocation : Nat := idxToSize (nrSmallPools - 1)

/-- `small_pool_array`. -/
def sizeClass (idx : Nat) : SizeClass := .create (idxToSize idx)

end SmallPool

/-- The rest of a `small_pool`; `free` is threaded through the free objects. -/
structure SmallPool where
  free : List Nat
  freeCount : Nat
  spanList : PageList
deriving DecidableEq, Repr

/-- The pages of a cpu with its pools. -/
structure CpuMemory where
  cpu : CpuPages
  pools : Nat → SmallPool

namespace CpuMemory

open SmallPool

def setFree (m : CpuMemory) (p : Nat) (free : List Nat) (freeCount : Nat) : CpuMemory :=
  { m with pools := Function.update m.pools p ⟨free, freeCount, (m.pools p).spanList⟩ }

def setPages (m : CpuMemory) (pages : Nat → Page) : CpuMemory :=
  { m with cpu := { m.cpu with pages := pages } }

/-- The head of a span gets another freelist and another `nr_small_alloc`. -/
def setObjects (m : CpuMemory) (span : Nat) (freelist : List Nat) (nrSmallAlloc : Nat) : CpuMemory :=
  m.setPages (Function.update m.cpu.pages span
    { m.cpu.pages span with freelist := freelist, nrSmallAlloc := nrSmallAlloc })

/-- What an operation on the list of a pool's spans leaves. -/
def setSpanList (m : CpuMemory) (p : Nat) (out : (Nat → Link Nat) × PageList) : CpuMemory :=
  { cpu := { m.cpu with links := out.1 }
    pools := Function.update m.pools p ⟨(m.pools p).free, (m.pools p).freeCount, out.2⟩ }

/-- Objects of a span that none of them is in the freelist of go to the pool, one by one. -/
def toPool (m : CpuMemory) (p span : Nat) (objects : List Nat) : CpuMemory :=
  let pool := m.pools p
  (m.setObjects span [] (((m.cpu.pages span).nrSmallAlloc + objects.length) % 2 ^ 16)).setFree p
    (objects.reverse ++ pool.free) (pool.freeCount + objects.length)

/-- The first loop of `add_more_objects`. -/
def takeFreelists (p : Nat) : Nat → CpuMemory → CpuMemory
  | 0, m => m
  | rounds + 1, m =>
    let pool := m.pools p
    if pool.spanList.isEmpty = false ∧ pool.freeCount < (sizeClass p).goal then
      let span := pool.spanList.front
      let m := m.setSpanList p (pool.spanList.popFront m.cpu.links)
      takeFreelists p rounds (m.toPool p span (m.cpu.pages span).freelist)
    else m

/-- The pages of a new span know their pool. -/
def adopt (pages : Nat → Page) (p span : Nat) : Nat → Page := fun i =>
  if span ≤ i ∧ i < span + (sizeClass p).spanSize then
    { pages i with offsetInSpan := (i - span) % 2 ^ 8, pool := some p }
  else pages i

def object (p span k : Nat) : Nat := span * pageSize + k * (sizeClass p).objectSize

def objects (p span : Nat) : List Nat := (List.range (sizeClass p).perSpan).map (object p span)

/-- A new span is cut into objects. -/
def cutSpan (m : CpuMemory) (p span : Nat) : CpuMemory :=
  ((m.setPages (adopt m.cpu.pages p span)).setObjects span [] 0).toPool p span (objects p span)

/-- The second loop of `add_more_objects`. -/
def addSpans (p : Nat) : Nat → CpuMemory → Option CpuMemory
  | 0, m => some m
  | rounds + 1, m =>
    if (m.pools p).freeCount < (sizeClass p).goal then do
      let (data, cpu) ← m.cpu.allocateLarge (sizeClass p).spanSize
      match data with
      | none => some { m with cpu := cpu }
      | some data => addSpans p rounds ({ m with cpu := cpu }.cutSpan p (data / pageSize))
    else some m

/-- Each round of a loop adds an object at least. -/
def addMoreObjects (m : CpuMemory) (p : Nat) : Option CpuMemory :=
  addSpans p (sizeClass p).goal (takeFreelists p (sizeClass p).goal m)

/-- The first free object, or `nullptr`. -/
def popFree (m : CpuMemory) (p : Nat) : Option Nat × CpuMemory :=
  match (m.pools p).free with
  | [] => (none, m)
  | obj :: rest => (some obj, m.setFree p rest ((m.pools p).freeCount - 1))

/-- `small_pool::allocate`. -/
def allocateFrom (m : CpuMemory) (p : Nat) : Option (Option Nat × CpuMemory) :=
  (if (m.pools p).free = [] then m.addMoreObjects p else some m).map fun m => m.popFree p

/-- An object goes back to the freelist of its span. -/
def toSpan (m : CpuMemory) (p span obj : Nat) : CpuMemory :=
  let m := if (m.cpu.pages span).freelist = [] then
      m.setSpanList p ((m.pools p).spanList.pushFront m.cpu.links span)
    else m
  m.setObjects span (obj :: (m.cpu.pages span).freelist)
    (((m.cpu.pages span).nrSmallAlloc + (2 ^ 16 - 1)) % 2 ^ 16)

/-- A span with all of its objects goes back to the free pages. -/
def releaseSpan (m : CpuMemory) (p span : Nat) : Option CpuMemory := do
  let m := m.setSpanList p ((m.pools p).spanList.erase m.cpu.links span)
  let cpu ← m.cpu.freeSpan span (m.cpu.pages span).spanSize
  some { m with cpu := cpu }

/-- A round of `trim_free_list`, which takes the first free object. -/
def trimRound (m : CpuMemory) (p obj : Nat) (rest : List Nat) : Option CpuMemory :=
  let m := m.setFree p rest ((m.pools p).freeCount - 1)
  let page := obj / pageSize
  let span := page - (m.cpu.pages page).offsetInSpan
  let m := m.toSpan p span obj
  if (m.cpu.pages span).nrSmallAlloc = 0 then m.releaseSpan p span else some m

def trimFreeList (p : Nat) : Nat → CpuMemory → Option CpuMemory
  | 0, m => some m
  | rounds + 1, m =>
    match (m.pools p).free with
    | [] => some m
    | obj :: rest =>
      if (sizeClass p).goal < (m.pools p).freeCount then do
        let m ← m.trimRound p obj rest
        trimFreeList p rounds m
      else some m

/-- `small_pool::deallocate`; the trim takes one object a round. -/
def deallocate (m : CpuMemory) (p obj : Nat) : Option CpuMemory :=
  let pool := m.pools p
  let m := m.setFree p (obj :: pool.free) (pool.freeCount + 1)
  if (sizeClass p).maxFree ≤ pool.freeCount + 1 then trimFreeList p (pool.freeCount + 1) m else some m

/-- `none` is a failed assertion. -/
def allocateSmall (m : CpuMemory) (size : Nat) : Option (Option Nat × CpuMemory) :=
  if (sizeClass (usizeoIdx size)).objectSize < size then none else m.allocateFrom (usizeoIdx size)

def onPages (m : CpuMemory) (out : Option (Option Nat × CpuPages)) : Option (Option Nat × CpuMemory) :=
  out.map fun out => (out.1, { m with cpu := out.2 })

/-- The pages of a size, as an `unsigned`. -/
def sizeInPages (size : Nat) : Nat := ((size + pageSize - 1) >>> pageBits) % 2 ^ 32

/-- `none` is a failed assertion, also that of `abort_on_underflow`. -/
def allocateLarge (m : CpuMemory) (size : Nat) : Option (Option Nat × CpuMemory) :=
  if 2 ^ 63 ≤ size ∨ sizeInPages size <<< pageBits < size then none
  else m.onPages (m.cpu.allocateLarge (sizeInPages size))

def allocateLargeAligned (m : CpuMemory) (align size : Nat) : Option (Option Nat × CpuMemory) :=
  if 2 ^ 63 ≤ size then none
  else m.onPages (m.cpu.allocateLargeAligned (max align pageSize >>> pageBits) (sizeInPages size))

def sizeofFreeObject : Nat := 8

def allocate (m : CpuMemory) (size : Nat) : Option (Option Nat × CpuMemory) :=
  let size := max size sizeofFreeObject
  if size ≤ maxSmallAllocation then m.allocateSmall size else m.allocateLarge size

def allocateAligned (m : CpuMemory) (align size : Nat) : Option (Option Nat × CpuMemory) :=
  let size := max (max size align) sizeofFreeObject
  if size ≤ maxSmallAllocation ∧ align ≤ pageSize then m.allocateSmall (1 <<< log2ceil size)
  else m.allocateLargeAligned align size

def freeLarge (m : CpuMemory) (ptr : Nat) : Option CpuMemory :=
  (m.cpu.freeLarge ptr).map fun cpu => { m with cpu := cpu }

/-- `free` of an object of this cpu, whose page tells its pool. -/
def free (m : CpuMemory) (ptr : Nat) : Option CpuMemory :=
  match (m.cpu.pages (ptr / pageSize)).pool with
  | some p => m.deallocate p ptr
  | none => m.freeLarge ptr

/-- `free` with the size that was asked for. -/
def freeSized (m : CpuMemory) (ptr size : Nat) : Option CpuMemory :=
  let size := max size sizeofFreeObject
  if size ≤ maxSmallAllocation then m.deallocate (usizeoIdx size) ptr else m.freeLarge ptr

def shrink (m : CpuMemory) (ptr newSize : Nat) : Option CpuMemory :=
  (m.cpu.shrink ptr newSize).map fun cpu => { m with cpu := cpu }

/-- `object_size` of an object of this cpu. -/
def objectSize (m : CpuMemory) (ptr : Nat) : Nat :=
  let span := m.cpu.pages (ptr / pageSize)
  match span.pool with
  | some p => (sizeClass p).objectSize
  | none => span.spanSize * pageSize

def malloc (m : CpuMemory) (n : Nat) : Option (Option Nat × CpuMemory) :=
  if n = 0 then some (none, m) else m.allocate n

/-- `realloc` of a pointer that is not null, without the bytes that it copies. -/
def realloc (m : CpuMemory) (ptr size : Nat) : Option (Option Nat × CpuMemory) :=
  let oldSize := m.objectSize ptr
  if size = oldSize then some (some ptr, m)
  else if size = 0 then (m.free ptr).map fun m => (none, m)
  else if size < oldSize then (m.shrink ptr size).map fun m => (some ptr, m)
  else do
    let (nptr, m) ← m.malloc size
    match nptr with
    | none => some (none, m)
    | some nptr => (m.free ptr).map fun m => (some nptr, m)

/-- The pools of a cpu are as their constructor leaves them. -/
def bootMemory : Option CpuMemory :=
  CpuPages.initializePages.map fun cpu => ⟨cpu, fun _ => ⟨[], 0, PageList.empty⟩⟩

end CpuMemory

end XiRuntime
