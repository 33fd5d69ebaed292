import Mathlib.Order.Bounds.Defs
import XiRuntime.BufferReader

namespace XiRuntime

open ByteStore

namespace BufferReader

/-- The inner loop of `skip_any_of_and_mark` over the bytes from `ch` to `ch_end`: whether it
goes to `done`, and `ret`. -/
def skipBytesLoop (stops : UInt8 → Bool) : List UInt8 → Nat → Bool × Nat
  | [], ret => (false, ret)
  | ch :: chs, ret => if stops ch then (true, ret) else skipBytesLoop stops chs (ret + 1)

def skipAnyLoop (m : Mem) (stops : UInt8 → Bool) : List Fragment → Nat → Nat → Nat
  | [], _, ret => ret
  | f :: fs, offset, ret =>
    let out := skipBytesLoop stops (m.load (f.head + offset) (f.size - offset)) ret
    if out.1 then out.2 else skipAnyLoop m stops fs 0 out.2

/-- `skip_any_of_and_mark` with a predicate on what `memchr` finds. -/
def skipAnyAndMark (m : Mem) (r : BufferReader) (pattern : List UInt8) (predicate : Bool → Bool) :
    Nat × BufferReader :=
  let it := skipOffset r.buffer.fragments r.mark
  let ret := skipAnyLoop m (fun ch => predicate (pattern.contains ch)) it.2.1 it.2.2 0
  (ret, { r with mark := r.mark + ret })

def skipAnyNotOfAndMark (m : Mem) (r : BufferReader) (pattern : List UInt8) : Nat × BufferReader :=
  if pattern = [] then (r.buffer.size, { r with mark := r.buffer.size })
  else r.skipAnyAndMark m pattern (fun b => b)

def skipAnyOfAndMark (m : Mem) (r : BufferReader) (pattern : List UInt8) : Nat × BufferReader :=
  if pattern = [] then (0, r) else r.skipAnyAndMark m pattern (fun b => !b)

/-- The loop of `find_byte`. Its body runs before the end is looked for, and the outer `none`
is the dereference of the end iterator. -/
def findByteLoop (m : Mem) (target : UInt8) : List Fragment → Nat → Nat → Option (Option Nat)
  | [], _, _ => none
  | f :: fs, offset, size =>
    match (m.load (f.head + offset) (f.size - offset)).findIdx? (· == target) with
    | some found => some (some (size + (offset + found - offset)))
    | none => if fs = [] then some none else findByteLoop m target fs 0 (size + (f.size - offset))

/-- `find_byte`; the offset counts from the front of the buffer, not from the mark. -/
def findByte (m : Mem) (r : BufferReader) (target : UInt8) (offset : Nat) : Option (Option Nat) :=
  if offset ≥ r.buffer.size then some none
  else
    let it := skipOffset r.buffer.fragments offset
    findByteLoop m target it.2.1 it.2.2 0

/-- The mark moves over the longest run of bytes of the kind `p`, and its length is returned. -/
structure SkipsLongest (m : Mem) (r : BufferReader) (p : UInt8 → Prop) (out : Nat × BufferReader) :
    Prop where
  longest : IsGreatest {k | k ≤ (r.unmarked m).length ∧ ∀ b ∈ (r.unmarked m).take k, p b} out.1
  moved : out.2 = { r with mark := r.mark + out.1 }

end BufferReader

/-- The prefix that `takeWhile` gives is the longest of its kind. -/
theorem isGreatest_takeWhile {α : Type} (p : α → Bool) (xs : List α) :
    IsGreatest {k | k ≤ xs.length ∧ ∀ x ∈ xs.take k, p x = true} (xs.takeWhile p).length := by
  induction xs with
  | nil => exact ⟨⟨Nat.le_refl 0, by simp⟩, fun k hk => hk.1⟩
  | cons x xs ih =>
    by_cases hp : p x = true
    · rw [List.takeWhile_cons_of_pos hp]
      obtain ⟨⟨bound, all⟩, greatest⟩ := ih
      refine ⟨⟨Nat.succ_le_succ bound, by simpa [hp] using all⟩, ?_⟩
      intro k hk
      cases k with
      | zero => exact Nat.zero_le _
      | succ k =>
        obtain ⟨hle, hall⟩ := hk
        rw [List.take_succ_cons, List.forall_mem_cons] at hall
        exact Nat.succ_le_succ (greatest ⟨Nat.le_of_succ_le_succ hle, hall.2⟩)
    · rw [List.takeWhile_cons_of_neg hp]
      refine ⟨⟨Nat.zero_le _, by simp⟩, ?_⟩
      intro k hk
      cases k with
      | zero => exact Nat.le_refl _
      | succ k => exact absurd (hk.2 x (by simp)) hp

namespace BufferReader

theorem skipBytesLoop_eq (stops : UInt8 → Bool) (chs : List UInt8) (ret : Nat) :
    skipBytesLoop stops chs ret =
      (!decide ((chs.takeWhile (!stops ·)).length = chs.length),
        ret + (chs.takeWhile (!stops ·)).length) := by
  induction chs generalizing ret with
  | nil => simp [skipBytesLoop]
  | cons ch chs ih =>
    rw [skipBytesLoop]
    cases hs : stops ch with
    | true => simp [hs]
    | false =>
      rw [if_neg (by simp), ih]
      simp [hs]
      omega

/-- The loop counts the run of bytes that do not stop it, over all the fragments. -/
theorem skipAnyLoop_eq (m : Mem) (stops : UInt8 → Bool) (fs : List Fragment) (offset ret : Nat)
    (h : ∀ f rest, fs = f :: rest → offset ≤ f.size) :
    skipAnyLoop m stops fs offset ret =
      ret + (((fs.flatMap (Fragment.data m)).drop offset).takeWhile (!stops ·)).length := by
  induction fs generalizing offset ret with
  | nil => simp [skipAnyLoop]
  | cons f fs ih =>
    have hle := h f fs rfl
    rw [skipAnyLoop, Fragment.load_rest m hle, skipBytesLoop_eq, List.flatMap_cons,
      List.drop_append_of_le_length (by simpa using hle), List.takeWhile_append]
    by_cases whole : (((f.data m).drop offset).takeWhile (!stops ·)).length =
        ((f.data m).drop offset).length
    · rw [if_pos whole, if_neg (by simp [whole]), ih 0 _ (fun _ _ _ => Nat.zero_le _), List.drop_zero,
        List.length_append, whole, Nat.add_assoc]
    · rw [if_neg whole, if_pos (by simpa using whole)]

theorem skipAnyAndMark_eq (m : Mem) (r : BufferReader) (pattern : List UInt8)
    (predicate : Bool → Bool) :
    (r.skipAnyAndMark m pattern predicate).1 =
      ((r.unmarked m).takeWhile (fun ch => !predicate (pattern.contains ch))).length := by
  rw [skipAnyAndMark, skipAnyLoop_eq m _ _ _ _ (fun f rest hf => Nat.le_of_lt (skipOffset_stops hf)),
    ← drop_content_skipOffset, Nat.zero_add]
  rfl

theorem skipAnyAndMark_longest (m : Mem) (r : BufferReader) (pattern : List UInt8)
    (predicate : Bool → Bool) :
    r.SkipsLongest m (fun ch => (!predicate (pattern.contains ch)) = true)
      (r.skipAnyAndMark m pattern predicate) := by
  refine ⟨?_, rfl⟩
  rw [skipAnyAndMark_eq]
  exact isGreatest_takeWhile _ _

theorem skipAnyOfAndMark_longest (m : Mem) (r : BufferReader) (pattern : List UInt8) :
    r.SkipsLongest m (· ∈ pattern) (r.skipAnyOfAndMark m pattern) := by
  rw [skipAnyOfAndMark]
  split
  next empty =>
    subst empty
    refine ⟨⟨⟨Nat.zero_le _, by simp⟩, ?_⟩, rfl⟩
    intro k hk
    obtain ⟨bound, none⟩ := hk
    have nil : (r.unmarked m).take k = [] := List.eq_nil_iff_forall_not_mem.mpr fun b hb => by
      simpa using none b hb
    rcases List.take_eq_nil_iff.mp nil with zero | nothing
    · exact Nat.le_of_eq zero
    · simpa [nothing] using bound
  next => simpa using skipAnyAndMark_longest m r pattern (fun b => !b)

/-- All the rest of the buffer is free of an empty set. -/
theorem skipsLongest_all {m : Mem} {r : BufferReader} {p : UInt8 → Prop} (all : ∀ b, p b)
    (out : Nat × BufferReader) :
    r.SkipsLongest m p out ↔
      out.1 = (r.unmarked m).length ∧ out.2 = { r with mark := r.mark + out.1 } := by
  constructor
  · intro skips
    obtain ⟨⟨⟨bound, -⟩, greatest⟩, moved⟩ := skips
    exact ⟨Nat.le_antisymm bound (greatest ⟨Nat.le_refl _, fun b _ => all b⟩), moved⟩
  · intro skips
    obtain ⟨whole, moved⟩ := skips
    refine ⟨⟨⟨Nat.le_of_eq whole, fun b _ => all b⟩, ?_⟩, moved⟩
    intro k hk
    rw [whole]
    exact hk.1

/-- Both move the mark over the longest run and return its length, except that an empty pattern
makes `skip_any_not_of_and_mark` return the size of the whole buffer. -/
theorem skip_any_longest_iff (m : Mem) {r : BufferReader} (hv : r.buffer.Valid)
    (hmark : r.mark ≤ r.buffer.size) (pattern : List UInt8) :
    (r.SkipsLongest m (· ∈ pattern) (r.skipAnyOfAndMark m pattern) ∧
        r.SkipsLongest m (· ∉ pattern) (r.skipAnyNotOfAndMark m pattern)) ↔
      pattern ≠ [] ∨ r.mark = 0 := by
  rw [and_iff_right (skipAnyOfAndMark_longest m r pattern), skipAnyNotOfAndMark]
  split
  next empty =>
    rw [skipsLongest_all (by simp [empty]), length_unmarked hv]
    simp only [ne_eq, empty, not_true_eq_false, false_or]
    constructor
    · intro skips
      have whole := skips.1
      omega
    · intro start
      simp [start]
  next some =>
    refine iff_of_true ?_ (Or.inl some)
    simpa using skipAnyAndMark_longest m r pattern (fun b => b)

/-- An empty pattern at a mark inside the buffer: all but one byte is skipped, and the size of
the buffer is returned. -/
theorem skip_any_not_of_returns_size :
    ¬ ∀ (m : Mem) (r : BufferReader) (pattern : List UInt8), r.buffer.Valid → r.mark ≤ r.buffer.size →
      r.SkipsLongest m (· ∈ pattern) (r.skipAnyOfAndMark m pattern) ∧
        r.SkipsLongest m (· ∉ pattern) (r.skipAnyNotOfAndMark m pattern) := by
  intro h
  have skips := (h (fun _ => 0) ⟨⟨[⟨⟨8, 3⟩, 8, 3⟩], 3⟩, 1⟩ []
    ⟨rfl, by simp [Fragment.Inside, Fragment.tail, ByteBlob.stop]⟩ (by decide)).2
  have moved := skips.longest.1.1
  revert moved
  decide

/-- From the second byte on, 11 and 22 lie in two fragments. -/
theorem skip_any_longest_cut :
    (cut.skipAnyOfAndMark Mem.addresses [22, 11]).1 = 2 ∧
      cut.SkipsLongest Mem.addresses (· ∈ [22, 11]) (cut.skipAnyOfAndMark Mem.addresses [22, 11]) ∧
      cut.SkipsLongest Mem.addresses (· ∉ [22, 11]) (cut.skipAnyNotOfAndMark Mem.addresses [22, 11]) :=
  ⟨by decide, (skip_any_longest_iff Mem.addresses cut_valid (by decide) [22, 11]).mpr
    (Or.inl (by decide))⟩

theorem findByteLoop_eq (m : Mem) (target : UInt8) (f : Fragment) (fs : List Fragment)
    {offset : Nat} (size : Nat) (h : offset ≤ f.size) :
    findByteLoop m target (f :: fs) offset size =
      some (((((f :: fs).flatMap (Fragment.data m)).drop offset).findIdx? (· == target)).map
        (size + ·)) := by
  induction fs generalizing f offset size with
  | nil =>
    rw [findByteLoop, Fragment.load_rest m h, List.flatMap_cons, List.flatMap_nil, List.append_nil]
    cases ((f.data m).drop offset).findIdx? (· == target) with
    | none => simp
    | some found => simp
  | cons g gs ih =>
    rw [findByteLoop, Fragment.load_rest m h, List.flatMap_cons,
      List.drop_append_of_le_length (by simpa using h), List.findIdx?_append]
    cases ((f.data m).drop offset).findIdx? (· == target) with
    | some found => simp
    | none =>
      -- the next fragment is searched from its front, with what this one adds to `size`
      simp only [reduceCtorEq, if_false, Option.none_or]
      rw [ih g _ (Nat.zero_le _), List.drop_zero, List.length_drop, Fragment.length_data,
        Option.map_map]
      congr 2
      funext k
      simp only [Function.comp_apply]
      omega

/-- In a buffer whose size is right the end iterator is not dereferenced. -/
theorem findByte_eq (m : Mem) {r : BufferReader} (hv : r.buffer.Valid) (target : UInt8)
    (offset : Nat) :
    r.findByte m target offset =
      some (((r.buffer.content m).drop offset).findIdx? (· == target)) := by
  have hlen := hv.length_content m
  rw [findByte]
  split
  next beyond => rw [List.drop_of_length_le (by omega), List.findIdx?_nil]
  next within =>
    have hoff := skipOffset_offset r.buffer.fragments offset
    have hsum := totalSize_skipOffset r.buffer.fragments offset
    have hsize := hv.size_eq
    rw [Buffer.content, drop_content_skipOffset]
    cases hit : (skipOffset r.buffer.fragments offset).2.1 with
    | nil =>
      rw [hit, totalSize_nil] at hsum
      omega
    | cons f fs =>
      simp only [hit, findByteLoop_eq m target f fs 0 (Nat.le_of_lt (skipOffset_stops hit)),
        Nat.zero_add, Option.map_id']

/-- `find_byte` finds the first occurrence at or behind the offset, whatever the cuts. -/
theorem find_byte_first (m : Mem) {r : BufferReader} (hv : r.buffer.Valid) (target : UInt8)
    (offset : Nat) :
    ∃ found, r.findByte m target offset = some found ∧
      (∀ k, found = some k ↔
        offset + k < r.buffer.size ∧ (r.buffer.content m)[offset + k]? = some target ∧
          ∀ j < k, (r.buffer.content m)[offset + j]? ≠ some target) ∧
      (found = none ↔ ∀ k, (r.buffer.content m)[offset + k]? ≠ some target) := by
  refine ⟨_, findByte_eq m hv target offset, ?_, ?_⟩
  · intro k
    rw [List.findIdx?_eq_some_iff_getElem]
    simp only [List.getElem_drop, List.length_drop, hv.length_content, beq_iff_eq]
    constructor
    · intro first
      obtain ⟨within, here, before⟩ := first
      have hlen := hv.length_content m
      refine ⟨by omega, ?_, ?_⟩
      · rw [List.getElem?_eq_getElem (by omega), here]
      · intro j hj there
        rw [List.getElem?_eq_getElem (by omega)] at there
        exact before j hj (Option.some.inj there)
    · intro first
      obtain ⟨within, here, before⟩ := first
      have hlen := hv.length_content m
      refine ⟨by omega, ?_, ?_⟩
      · rw [List.getElem?_eq_getElem (by omega)] at here
        exact Option.some.inj here
      · intro j hj there
        refine before j hj ?_
        rw [List.getElem?_eq_getElem (by omega), there]
  · rw [List.findIdx?_eq_none_iff]
    constructor
    · intro none k there
      rw [← List.getElem?_drop] at there
      have differs := none target (List.mem_of_getElem? there)
      simp at differs
    · intro none b hb
      obtain ⟨k, there⟩ := List.getElem?_of_mem hb
      rw [List.getElem?_drop] at there
      refine beq_eq_false_iff_ne.mpr ?_
      intro same
      subst same
      exact none k there

/-- 33 lies behind the empty fragment, two bytes behind 11. -/
theorem find_byte_first_cut :
    ∃ found, cut.findByte Mem.addresses 33 1 = some found ∧ found = some 2 := by
  obtain ⟨found, result, some, -⟩ := find_byte_first Mem.addresses cut_valid 33 1
  exact ⟨found, result, (some 2).mpr (by decide)⟩

end BufferReader

end XiRuntime
