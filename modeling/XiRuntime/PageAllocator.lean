import Mathlib.Algebra.Order.Group.Nat
import XiRuntime.LinkRing

namespace XiRuntime

open LinkRing

def pageBits : Nat := 12
def pageSize : Nat := 2 ^ pageBits

/-- `std::bad_alloc`. -/
inductive BadAlloc
  | badAlloc
deriving DecidableEq, Repr

/-- A `page` without its `link`; addresses are offsets from `mem()`. -/
structure Page where
  free : Bool
  offsetInSpan : Nat
  nrSmallAlloc : Nat
  spanSize : Nat
  pool : Option Nat
  freelist : List Nat
deriving DecidableEq, Repr

def Page.zero : Page := ⟨false, 0, 0, 0, none, []⟩

/-- `page_list`. Page 0 is never in a list, so 0 stands for no page. -/
structure PageList where
  front : Nat
  back : Nat
deriving DecidableEq, Repr

namespace PageList

def empty : PageList := ⟨0, 0⟩

def isEmpty (list : PageList) : Bool := list.front == 0

def erase (l : Nat → Link Nat) (list : PageList) (span : Nat) : (Nat → Link Nat) × PageList :=
  let next := (l span).next
  let first := if next ≠ 0 then (setPrev l next (l span).prev, list)
    else (l, { list with back := (l span).prev })
  let l := first.1
  let prev := (l span).prev
  if prev ≠ 0 then (setNext l prev (l span).next, first.2)
  else (l, { first.2 with front := (l span).next })

def pushFront (l : Nat → Link Nat) (list : PageList) (span : Nat) : (Nat → Link Nat) × PageList :=
  let first := if list.front ≠ 0 then (setPrev l list.front span, list)
    else (l, { list with back := span })
  (Function.update first.1 span ⟨0, list.front⟩, { first.2 with front := span })

def popFront (l : Nat → Link Nat) (list : PageList) : (Nat → Link Nat) × PageList :=
  let next := (l list.front).next
  let first := if next ≠ 0 then (setPrev l next 0, list) else (l, { list with back := 0 })
  (first.1, { first.2 with front := (first.1 list.front).next })

/-- `find`, with as many rounds as there may be nodes. -/
def find (l : Nat → Link Nat) (list : PageList) (rounds nPages : Nat) (pages : Nat → Page) :
    Option Nat :=
  walk l 0 (fun n => decide (nPages ≤ (pages n).spanSize)) rounds list.front

/-- The head of a list is the node that closes its ring. -/
def ring (l : Nat → Link Nat) (list : PageList) : Nat → Link Nat :=
  Function.update l 0 ⟨list.back, list.front⟩

end PageList

/-- The pages of a cpu. -/
structure CpuPages where
  pages : Nat → Page
  links : Nat → Link Nat
  nrPages : Nat
  nrFreePages : Nat
  freeSpans : Nat → PageList

namespace CpuPages

def nrSpanLists : Nat := 32

/-- Free spans are in the list of the largest `i` with `1 << i` pages at most. -/
def indexOf (pages : Nat) : Nat := Nat.log2 pages

/-- The smallest index from which on all spans have the pages. -/
def indexOfConservative (pages : Nat) : Nat := if pages = 1 then 0 else Nat.log2 (pages - 1) + 1

def unlink (s : CpuPages) (idx span : Nat) : CpuPages :=
  let out := (s.freeSpans idx).erase s.links span
  { s with links := out.1, freeSpans := Function.update s.freeSpans idx out.2 }

def link (s : CpuPages) (idx span : Nat) : CpuPages :=
  let out := (s.freeSpans idx).pushFront s.links span
  { s with links := out.1, freeSpans := Function.update s.freeSpans idx out.2 }

/-- The head and the tail of a span say whether it is free, and how many pages it has. -/
def markSpan (pages : Nat → Page) (start nrPages : Nat) (free : Bool) : Nat → Page := fun i =>
  if i = start ∨ i = start + nrPages - 1 then { pages i with free := free, spanSize := nrPages }
  else pages i

/-- `none` is a failed assertion, here and below. -/
def freeSpanNoMerge (s : CpuPages) (spanStart nrPages : Nat) : Option CpuPages :=
  if nrPages = 0 then none
  else
    let s := { s with
      nrFreePages := s.nrFreePages + nrPages
      pages := markSpan s.pages spanStart nrPages true }
    some (s.link (indexOf nrPages) spanStart)

/-- The span before is taken in. -/
def mergeBefore (s : CpuPages) (spanStart nrPages : Nat) : Option (CpuPages × Nat × Nat) :=
  let before := s.pages (spanStart - 1)
  if before.free then
    let bSize := before.spanSize
    if bSize = 0 then none
    else
      let s := { s with nrFreePages := s.nrFreePages - bSize }
      some (s.unlink (indexOf bSize) (spanStart - 1 - (bSize - 1)), spanStart - bSize,
        nrPages + bSize)
  else some (s, spanStart, nrPages)

/-- The span behind is taken in. -/
def mergeAfter (s : CpuPages) (spanStart nrPages : Nat) : Option (CpuPages × Nat) :=
  let after := s.pages (spanStart + nrPages)
  if after.free then
    let aSize := after.spanSize
    if aSize = 0 then none
    else
      let s := { s with nrFreePages := s.nrFreePages - aSize }
      some (s.unlink (indexOf aSize) (spanStart + nrPages), nrPages + aSize)
  else some (s, nrPages)

def freeSpan (s : CpuPages) (spanStart nrPages : Nat) : Option CpuPages := do
  let (s, spanStart, nrPages) ← s.mergeBefore spanStart nrPages
  let (s, nrPages) ← s.mergeAfter spanStart nrPages
  s.freeSpanNoMerge spanStart nrPages

/-- The list that is searched: the first one of those whose spans all have the pages, or else
the one that smaller spans share with spans of that size. -/
def searchedList (s : CpuPages) (nPages : Nat) : Option Nat :=
  let orig := indexOfConservative nPages
  match (List.range' orig (nrSpanLists - orig)).find? (fun idx => !(s.freeSpans idx).isEmpty) with
  | some idx => some idx
  | none => if indexOf nPages = orig then none else some (indexOf nPages)

/-- `none` is `nullptr`. The bound is an `unsigned`, so that it is 0 for more than 2^30 pages. -/
def findAndUnlinkSpan (s : CpuPages) (nPages : Nat) : Except BadAlloc (Option (Nat × CpuPages)) :=
  if nPages ≥ (2 <<< indexOfConservative nPages) % 2 ^ 32 then .error .badAlloc
  else .ok do
    let idx ← s.searchedList nPages
    let span ← (s.freeSpans idx).find s.links (s.nrPages + 1) nPages s.pages
    some (span, s.unlink idx span)

/-- `trim`: how many pages of the span are left out, and how many of the rest are wanted. -/
structure Trim where
  offset : Nat
  nrPages : Nat
deriving DecidableEq, Repr

/-- The pages in front of the block are a free span. -/
def trimFront (s : CpuPages) (spanIdx spanSize offset : Nat) : Option (CpuPages × Nat × Nat) :=
  if offset ≠ 0 then do
    let s ← s.freeSpanNoMerge spanIdx offset
    some (s, spanIdx + offset, spanSize - offset)
  else some (s, spanIdx, spanSize)

/-- The pages behind the block are a free span. -/
def trimBack (s : CpuPages) (spanIdx spanSize nrPages : Nat) : Option CpuPages :=
  if nrPages < spanSize then s.freeSpanNoMerge (spanIdx + nrPages) (spanSize - nrPages)
  else some s

def takeSpan (s : CpuPages) (spanIdx nrPages : Nat) : CpuPages :=
  let pages := markSpan s.pages spanIdx nrPages false
  { s with pages := Function.update pages spanIdx { pages spanIdx with pool := none } }

/-- The offset of the block, or `nullptr`. A `bad_alloc` goes on to whoever asked for memory, and
counts as `nullptr` from here on. -/
def allocateLargeAndTrim (s : CpuPages) (nPages : Nat) (trimmer : Nat → Nat → Trim) :
    Option (Option Nat × CpuPages) :=
  match s.findAndUnlinkSpan nPages with
  | .error .badAlloc => some (none, s)
  | .ok none => some (none, s)
  | .ok (some (spanIdx, s)) => do
    let spanSize := (s.pages spanIdx).spanSize
    let s := { s with nrFreePages := s.nrFreePages - spanSize }
    let t := trimmer spanIdx s.nrPages
    let (s, spanIdx, spanSize) ← s.trimFront spanIdx spanSize t.offset
    let s ← s.trimBack spanIdx spanSize t.nrPages
    some (some (spanIdx * pageSize), s.takeSpan spanIdx t.nrPages)

def allocateLarge (s : CpuPages) (nPages : Nat) : Option (Option Nat × CpuPages) :=
  s.allocateLargeAndTrim nPages (fun _ n => ⟨0, min n nPages⟩)

/-- `align_up`, for a power of two. -/
def alignUp (v align : Nat) : Nat := (v + align - 1) / align * align

def allocateLargeAligned (s : CpuPages) (alignPages nPages : Nat) : Option (Option Nat × CpuPages) :=
  s.allocateLargeAndTrim (nPages + alignPages - 1)
    (fun idx _ => ⟨alignUp idx alignPages - idx, nPages⟩)

def freeLarge (s : CpuPages) (ptr : Nat) : Option CpuPages :=
  let idx := ptr / pageSize
  s.freeSpan idx (s.pages idx).spanSize

/-- The head of a block keeps its `free`, and its new tail gets one. -/
def markShrunk (pages : Nat → Page) (idx newPages : Nat) : Nat → Page :=
  let head := Function.update pages idx { pages idx with spanSize := newPages }
  Function.update head (idx + newPages - 1)
    { head (idx + newPages - 1) with free := false, spanSize := newPages }

/-- The block keeps its first pages. -/
def shrink (s : CpuPages) (ptr newSize : Nat) : Option CpuPages :=
  let idx := ptr / pageSize
  if (s.pages idx).pool.isSome then some s
  else
    let newPages := alignUp newSize pageSize / pageSize
    let oldPages := (s.pages idx).spanSize
    if oldPages < newPages then none
    else if newPages = oldPages then some s
    else
      freeSpan { s with pages := markShrunk s.pages idx newPages } (idx + newPages)
        (oldPages - newPages)

/-- The size of `mmap_area` that the first call makes, in pages. -/
def bootPages : Nat := (32 <<< 20) / pageSize

def sizeofPage : Nat := 32

/-- The pages that hold the page array. -/
def reserved (nrPages : Nat) : Nat := alignUp (sizeofPage * (nrPages + 1)) pageSize / pageSize

/-- `initialize`; the memory is fresh, so all its bytes are 0. -/
def initializePages : Option CpuPages :=
  freeSpanNoMerge
    { pages := fun _ => Page.zero
      links := fun _ => ⟨0, 0⟩
      nrPages := bootPages
      nrFreePages := 0
      freeSpans := fun _ => PageList.empty }
    (reserved bootPages) (bootPages - reserved bootPages)

end CpuPages

end XiRuntime
