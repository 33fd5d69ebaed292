import XiRuntime.BufferCoalesce
import XiRuntime.BufferReader
import XiRuntime.FragmentString

namespace XiRuntime

open ByteStore

namespace ByteRange

/-- `byte_range::subrange`; a length of -1 is as much as there is. -/
def subrange (r : ByteRange) (offset length : Nat) : ByteRange :=
  if offset ≥ r.size then .null
  else if length = FragmentString.npos ∨ (length + offset) % 2 ^ 64 > r.size then
    ⟨r.bytes + offset, r.size - offset⟩
  else ⟨r.bytes + offset, length⟩

/-- The assertions of `subrange` about the part that it returns. -/
def SubrangeAsserts (r : ByteRange) (offset length : Nat) : Prop :=
  offset < r.size →
    offset + (r.subrange offset length).size ≤ r.size ∧ offset < 2 ^ 63 ∧
      0 < (r.subrange offset length).size ∧ (r.subrange offset length).size < 2 ^ 63 ∧
      offset + (r.subrange offset length).size < 2 ^ 63

def load (m : Mem) (r : ByteRange) : List UInt8 := Memory.load m r.bytes r.size

end ByteRange

def Fragment.dataRange (f : Fragment) : ByteRange := ⟨f.head, f.size⟩

/-- Without a length the range reaches to the end of the fragment. -/
theorem Fragment.subrange_rest {f : Fragment} {o : Nat} (h : o < f.size) :
    f.dataRange.subrange o FragmentString.npos = ⟨f.head + o, f.size - o⟩ := by
  have inside : ¬ o ≥ f.size := Nat.not_le.mpr h
  simp only [dataRange, ByteRange.subrange, inside, if_false, true_or, if_true]

namespace BufferReader

def unmarkedSize (r : BufferReader) : Nat := r.buffer.size - r.mark

def nextDataRange (r : BufferReader) : ByteRange :=
  if r.unmarkedSize = 0 then .null
  else
    let it := skipOffset r.buffer.fragments r.mark
    match it.2.1.dropWhile (fun f => f.size == 0) with
    | [] => .null
    | f :: _ => f.dataRange.subrange it.2.2 FragmentString.npos

def markOffset (r : BufferReader) (offset : Nat) : Nat × BufferReader :=
  let cap := min offset r.unmarkedSize
  (cap, { r with mark := r.mark + cap })

/-- The assertions of `next_data_range`, all of them in `subrange`. -/
def NextDataRangeAsserts (r : BufferReader) : Prop :=
  ∀ f fs, (skipOffset r.buffer.fragments r.mark).2.1.dropWhile (fun f => f.size == 0) = f :: fs →
    f.dataRange.SubrangeAsserts (skipOffset r.buffer.fragments r.mark).2.2 FragmentString.npos

/-- The assertion of `mark_offset`. -/
def MarkOffsetAsserts (r : BufferReader) (offset : Nat) : Prop := (r.mark + offset) % 2 ^ 64 < 2 ^ 63

/-- `while (unmarked_size() > 0) { r = next_data_range(); mark_offset(r.size()); }`, given up
after `n` rounds; the ranges in turn. -/
def walkRanges : Nat → BufferReader → Option (List ByteRange)
  | 0, r => if r.unmarkedSize > 0 then none else some []
  | n + 1, r =>
    if r.unmarkedSize > 0 then
      (walkRanges n (r.markOffset r.nextDataRange.size).2).map (r.nextDataRange :: ·)
    else some []

/-- No assertion fails in the first rounds of the loop. -/
def WalkAsserts : Nat → BufferReader → Prop
  | 0, _ => True
  | n + 1, r =>
    r.unmarkedSize > 0 →
      r.NextDataRangeAsserts ∧ r.MarkOffsetAsserts r.nextDataRange.size ∧
        WalkAsserts n (r.markOffset r.nextDataRange.size).2

def consumeMarkIntoBuffer (r : BufferReader) : Option (Option Buffer × BufferReader) := do
  let out ← r.buffer.split r.mark
  pure (out.1, ⟨out.2, 0⟩)

/-- `consume_mark_into_string`: the list and the size that the `fragment_string` is made of; `none`
is the dereference of what `split` returns when that is null. -/
def consumeMarkIntoString (r : BufferReader) : Option (List Fragment × Nat × BufferReader) := do
  let out ← r.buffer.split r.mark
  let buf ← out.1
  pure (buf.fragments, buf.size, ⟨out.2, 0⟩)

/-- The string that is returned is well formed and holds the marked bytes, the others stay, and
`consume_mark_into_buffer` takes the same ones. -/
def ConsumesMark (m : Mem) (r : BufferReader) : Prop :=
  ∃ (s : FragmentString) (rest : BufferReader),
    r.consumeMarkIntoString = some (s.fragments, s.size, rest) ∧
      FragmentString.content m s.fragments = (r.buffer.content m).take r.mark ∧
      rest.buffer.Valid ∧ rest.buffer.content m = (r.buffer.content m).drop r.mark ∧ rest.mark = 0 ∧
      ∃ buf, r.consumeMarkIntoBuffer = some (buf, rest) ∧
        (Buffer.fragmentsOf buf).flatMap (Fragment.data m) = FragmentString.content m s.fragments

variable {r : BufferReader}

/-- While there are unmarked bytes the next range is a front part of them, and not empty. -/
theorem nextDataRange_spec (hv : r.buffer.Valid) (more : r.mark < r.buffer.size) (m : Mem) :
    0 < r.nextDataRange.size ∧ r.mark + r.nextDataRange.size ≤ r.buffer.size ∧
      r.unmarked m = r.nextDataRange.load m ++ (r.unmarked m).drop r.nextDataRange.size := by
  obtain ⟨pre, f, fs, o, held⟩ := Buffer.holds_of_lt hv more
  have within := held.within
  have before := held.before
  have total := held.total
  have busy : f.size ≠ 0 := by omega
  have next : r.nextDataRange = ⟨f.head + o, f.size - o⟩ := by
    have unread : r.unmarkedSize ≠ 0 := Nat.sub_ne_zero_of_lt more
    simp only [nextDataRange, unread, if_false, held.found, List.dropWhile_cons, beq_iff_eq, busy,
      Fragment.subrange_rest within]
  rw [next]
  refine ⟨Nat.sub_pos_of_lt within, by simp only; omega, ?_⟩
  have bytes : r.unmarked m = (f.data m).drop o ++ fs.flatMap (Fragment.data m) := by
    rw [unmarked, Buffer.content, drop_content_skipOffset, held.found, List.flatMap_cons,
      List.drop_append_of_le_length (by simpa using Nat.le_of_lt within)]
  have front : (ByteRange.mk (f.head + o) (f.size - o)).load m = (f.data m).drop o :=
    Fragment.load_rest m (Nat.le_of_lt within)
  rw [front, bytes, List.drop_left' (by simp)]

theorem markOffset_eq {n : Nat} (h : r.mark + n ≤ r.buffer.size) :
    r.markOffset n = (n, r.marked n) := by
  have capped : min n r.unmarkedSize = n := by
    rw [unmarkedSize]
    omega
  rw [markOffset, capped, marked]

theorem unmarkedSize_marked (r : BufferReader) (n : Nat) :
    (r.marked n).unmarkedSize = r.buffer.size - (r.mark + n) := rfl

theorem unmarked_nil (m : Mem) (hv : r.buffer.Valid) (h : r.unmarkedSize = 0) : r.unmarked m = [] := by
  rw [← List.length_eq_zero_iff, length_unmarked hv]
  exact h

theorem walkRanges_end (h : r.unmarkedSize = 0) (n : Nat) : r.walkRanges n = some [] := by
  have nothing : ¬ r.unmarkedSize > 0 := by omega
  cases n with
  | zero => rw [walkRanges, if_neg nothing]
  | succ n => rw [walkRanges, if_neg nothing]

/-- Enough rounds visit the unmarked bytes from front to back. -/
theorem walkRanges_spec (m : Mem) {n : Nat} (hv : r.buffer.Valid) (enough : r.unmarkedSize ≤ n) :
    ∃ ranges, (∀ k, r.unmarkedSize ≤ k → r.walkRanges k = some ranges) ∧
      (∀ g ∈ ranges, 0 < g.size) ∧ ranges.flatMap (ByteRange.load m) = r.unmarked m := by
  induction n generalizing r with
  | zero =>
    have nothing := Nat.le_zero.mp enough
    exact ⟨[], fun k _ => walkRanges_end nothing k, by simp, (unmarked_nil m hv nothing).symm⟩
  | succ n ih =>
    rw [unmarkedSize] at enough
    by_cases more : r.mark < r.buffer.size
    · obtain ⟨busy, fits, bytes⟩ := nextDataRange_spec hv more m
      have fewer := unmarkedSize_marked r r.nextDataRange.size
      obtain ⟨ranges, walked, nonempty, visited⟩ :=
        ih (r := r.marked r.nextDataRange.size) hv (by omega)
      refine ⟨r.nextDataRange :: ranges, ?_, List.forall_mem_cons.mpr ⟨busy, nonempty⟩, ?_⟩
      · intro k hk
        rw [unmarkedSize] at hk
        cases k with
        | zero => omega
        | succ k =>
          have unread : r.unmarkedSize > 0 := Nat.sub_pos_of_lt more
          rw [walkRanges, if_pos unread, markOffset_eq fits, walked k (by omega)]
          rfl
      · rw [List.flatMap_cons, visited, bytes, unmarked, unmarked, List.drop_drop]
        rfl
    · have nothing : r.unmarkedSize = 0 := Nat.sub_eq_zero_of_le (Nat.le_of_not_lt more)
      exact ⟨[], fun k _ => walkRanges_end nothing k, by simp, (unmarked_nil m hv nothing).symm⟩

theorem nextDataRange_asserts (hv : r.buffer.Valid) (more : r.mark < r.buffer.size)
    (small : r.buffer.size < 2 ^ 63) : r.NextDataRangeAsserts := by
  intro f fs found
  obtain ⟨pre, g, gs, o, held⟩ := Buffer.holds_of_lt hv more
  have within := held.within
  have total := held.total
  have busy : g.size ≠ 0 := by omega
  simp only [held.found, List.dropWhile_cons, beq_iff_eq, busy, if_false, List.cons.injEq] at found ⊢
  obtain ⟨rfl, -⟩ := found
  intro _
  have size : g.dataRange.size = g.size := rfl
  rw [Fragment.subrange_rest within, size]
  simp only
  omega

theorem walkAsserts_of_small {n : Nat} (hv : r.buffer.Valid) (small : r.buffer.size < 2 ^ 63) :
    r.WalkAsserts n := by
  induction n generalizing r with
  | zero => trivial
  | succ n ih =>
    intro unread
    have more : r.mark < r.buffer.size := Nat.lt_of_sub_pos unread
    obtain ⟨-, fits, -⟩ := nextDataRange_spec hv more (fun _ => 0)
    refine ⟨nextDataRange_asserts hv more small, ?_, ?_⟩
    · rw [MarkOffsetAsserts]
      omega
    · rw [markOffset_eq fits]
      exact ih hv small

/-- The loop over the ranges ends, gets no empty range and visits each unmarked byte once; its
assertions hold in buffers below 2^63 bytes. -/
theorem range_walk_visits_once (m : Mem) (hv : r.buffer.Valid) :
    ∃ ranges, (∀ n, r.unmarkedSize ≤ n → r.walkRanges n = some ranges) ∧
      (∀ g ∈ ranges, 0 < g.size) ∧
      ranges.flatMap (ByteRange.load m) = (r.buffer.content m).drop r.mark ∧
      (r.buffer.size < 2 ^ 63 → ∀ n, r.WalkAsserts n) := by
  obtain ⟨ranges, walked, nonempty, visited⟩ := walkRanges_spec m hv (Nat.le_refl _)
  exact ⟨ranges, walked, nonempty, visited, fun small n => walkAsserts_of_small hv small⟩

theorem range_walk_visits_once_cut :
    ∃ ranges, cut.walkRanges 3 = some ranges ∧
      ranges.flatMap (ByteRange.load Mem.addresses) = [11, 22, 33] := by
  obtain ⟨ranges, walked, -, visited, -⟩ := range_walk_visits_once Mem.addresses cut_valid
  exact ⟨ranges, walked 3 (by decide), visited⟩

/-- The mark is consumed into a string just when there is something marked; `split` gives null
for nothing. -/
theorem consume_mark_iff (m : Mem) (hv : r.buffer.Valid) (hmark : r.mark ≤ r.buffer.size) :
    r.ConsumesMark m ↔ 0 < r.mark := by
  constructor
  · intro consumes
    obtain ⟨s, rest, made, -⟩ := consumes
    by_contra none
    have zero : r.mark = 0 := by omega
    simp [consumeMarkIntoString, Buffer.split, zero] at made
  · intro marked
    obtain ⟨ret, left, cutOff, wellFormed, leftValid, -, bytes⟩ := Buffer.split_spec hv r.mark
    obtain ⟨taken, kept⟩ := bytes m
    have hlen := hv.length_content m
    cases ret with
    | none =>
      have lost := congrArg List.length taken
      simp only [Buffer.fragmentsOf, List.flatMap_nil, List.length_nil, List.length_take] at lost
      omega
    | some buf =>
      refine ⟨⟨buf.fragments, buf.size, (wellFormed buf rfl).size_eq⟩, ⟨left, 0⟩, ?_, taken, leftValid, kept,
        rfl, some buf, ?_, rfl⟩
      · rw [consumeMarkIntoString, cutOff]
        rfl
      · rw [consumeMarkIntoBuffer, cutOff]
        rfl

theorem consume_mark_cut : cut.mark = 1 ∧ cut.ConsumesMark Mem.addresses :=
  ⟨rfl, (consume_mark_iff Mem.addresses cut_valid (by decide)).mpr (by decide)⟩

/-- A reader of one byte that has marked none. -/
theorem consume_mark_dereferences_null :
    ¬ ∀ (m : Mem) (r : BufferReader), r.buffer.Valid → r.mark ≤ r.buffer.size → r.ConsumesMark m := by
  intro h
  obtain ⟨s, rest, made, -⟩ := h (fun _ => 65) ⟨⟨[⟨⟨8, 1⟩, 8, 1⟩], 1⟩, 0⟩
    ⟨rfl, by simp [Fragment.Inside, Fragment.tail, ByteBlob.stop]⟩ (by decide)
  have null : BufferReader.consumeMarkIntoString ⟨⟨[⟨⟨8, 1⟩, 8, 1⟩], 1⟩, 0⟩ = none := by decide
  rw [null] at made
  cases made

end BufferReader

end XiRuntime
