import XiRuntime.BufferClone

namespace XiRuntime

open ByteStore

/-- `byte_range`: a pointer and a length. -/
structure ByteRange where
  bytes : Nat
  size : Nat
deriving DecidableEq, Repr

def ByteRange.null : ByteRange := ⟨0, 0⟩

namespace Buffer

/-- `buffer::range`; `none` is the dereference of an end iterator, here or in `coalesce`. -/
def range (m : Mem) (alloc : Nat → Fragment) (b : Buffer) (offset length : Nat) :
    Option (Mem × Buffer × ByteRange) :=
  if offset ≥ b.size then some (m, b, .null)
  else do
    let out ← b.coalesce m alloc offset length
    let it := skipOffset out.2.1.fragments offset
    match it.2.1 with
    | [] => none
    | f :: _ => some (out.1, out.2.1, ⟨f.head + it.2.2, min length (f.size - it.2.2)⟩)

/-- What `coalesce` makes of the length it is asked for. -/
def cappedLength (b : Buffer) (offset length : Nat) : Nat :=
  if length > b.size - offset then b.size - offset else length

/-- What is expected of `allocate`: an empty fragment with room for `n` bytes, on storage
that `b` does not show. -/
def Serves (alloc : Nat → Fragment) (b : Buffer) : Prop :=
  ∀ n, (alloc n).size = 0 ∧ n ≤ (alloc n).tailroom ∧
    ∀ g ∈ b.fragments, Apart (alloc n).tail (alloc n).tailroom g.head g.size

/-- The tailroom that `coalesce` fills in place covers no byte that the buffer shows. -/
def FillsClear (b : Buffer) (offset length : Nat) : Prop :=
  ∀ g ∈ b.fragments,
    Apart (b.coalesceRange offset length).1 (b.coalesceRange offset length).2 g.head g.size

/-- The fragment that holds the offset is grown in place although it is longer than what is
to be made contiguous, and its size is taken off the length all the same. -/
def Underflows (b : Buffer) (offset length : Nat) : Prop :=
  match (skipOffset b.fragments offset).2 with
  | ([], _) => False
  | (f :: _, o) =>
    let length := b.cappedLength offset length
    f.size - o < length ∧ length ≤ f.size - o + f.tailroom ∧ length < f.size

/-- `coalesce` returns, and the buffer shows the same bytes and counts them right. -/
def KeepsContent (m : Mem) (alloc : Nat → Fragment) (b : Buffer) (offset length : Nat) : Prop :=
  ∃ m' b' n, b.coalesce m alloc offset length = some (m', b', n) ∧
    b'.content m' = b.content m ∧ b'.size = totalSize b'.fragments

/-- The bytes `[offset, offset + min(length, size() - offset))`. -/
def slice (m : Mem) (b : Buffer) (offset length : Nat) : List UInt8 :=
  ((b.content m).drop offset).take (b.cappedLength offset length)

/-- After `coalesce` the fragment that holds the offset has all of the slice and the size that
was returned, and `range` returns the slice. -/
def Delivers (m : Mem) (alloc : Nat → Fragment) (b : Buffer) (offset length : Nat) : Prop :=
  ∃ m' b' n, b.coalesce m alloc offset length = some (m', b', n) ∧
    ∃ pre f fs o, skipOffset b'.fragments offset = (pre, f :: fs, o) ∧
      ((f.data m').drop o).take (b.cappedLength offset length) = b.slice m offset length ∧
      n = f.size ∧
      ∃ r, b.range m alloc offset length = some (m', b', r) ∧
        r.size = b.cappedLength offset length ∧ m'.load r.bytes r.size = b.slice m offset length

/-- The slice is in one fragment already and no other fragment has bytes, or it starts where
a fragment starts and goes on behind it. -/
def StartsFragment (b : Buffer) (offset length : Nat) : Prop :=
  match (skipOffset b.fragments offset).2 with
  | ([], _) => False
  | (f :: _, o) =>
    let length := b.cappedLength offset length
    length ≤ f.size - o ∧ b.size = f.size ∨ f.size - o < length ∧ o = 0

/-- The place of an offset among the fragments. -/
structure Holds (b : Buffer) (offset : Nat) (pre : List Fragment) (f : Fragment)
    (fs : List Fragment) (o : Nat) : Prop where
  found : skipOffset b.fragments offset = (pre, f :: fs, o)
  parts : b.fragments = pre ++ f :: fs
  before : totalSize pre + o = offset
  within : o < f.size
  total : b.size = totalSize pre + (f.size + totalSize fs)

theorem holds_of_lt {b : Buffer} (hv : b.Valid) {offset : Nat} (h : offset < b.size) :
    ∃ pre f fs o, b.Holds offset pre f fs o := by
  have all := skipOffset_append b.fragments offset
  have before := skipOffset_offset b.fragments offset
  have total := totalSize_skipOffset b.fragments offset
  have counted := hv.size_eq
  cases hit : skipOffset b.fragments offset with
  | mk pre it =>
    obtain ⟨rest, o⟩ := it
    rw [hit] at all before total
    cases rest with
    | nil =>
      simp only [totalSize_nil] at before total
      omega
    | cons f fs =>
      have stops := skipOffset_stops (congrArg (·.2.1) hit)
      rw [hit] at stops
      simp only [totalSize_cons] at before total
      exact ⟨pre, f, fs, o, hit, all.symm, before, stops, by omega⟩

/-- `skip_offset` passes over fragments that end before the offset. -/
theorem skipOffset_add (pre gs : List Fragment) (o : Nat) :
    skipOffset (pre ++ gs) (totalSize pre + o) =
      (pre ++ (skipOffset gs o).1, (skipOffset gs o).2) := by
  induction pre with
  | nil => simp
  | cons f pre ih =>
    have less : f.size + totalSize pre + o - f.size = totalSize pre + o := by omega
    have enough : f.size + totalSize pre + o ≥ f.size := by omega
    simp only [List.cons_append, skipOffset, totalSize_cons, if_pos enough, less, ih]

theorem tailroom_grown (f : Fragment) (k : Nat) :
    ({ f with size := f.size + k } : Fragment).tailroom = f.tailroom - k := by
  unfold Fragment.tailroom
  rw [tail_grown]
  simp only
  omega

/-- Bytes for which there is room are all appended. -/
theorem write_fits (m : Mem) {f : Fragment} {r : List UInt8} {n : Nat} (count : r.length = n)
    (room : n ≤ f.tailroom) :
    ∃ m', f.write m r = (m', { f with size := f.size + n }, n) ∧ SameOutside m m' f.tail n ∧
      ({ f with size := f.size + n } : Fragment).data m' = f.data m ++ r := by
  subst count
  refine ⟨m.store f.tail r, ?_, .store m f.tail r, data_write_tail m f r⟩
  simp only [Fragment.write, Nat.min_eq_left room, List.take_length]

/-- A `usize` difference that does not wrap. -/
theorem usize_sub {length size : Nat} (small : length < 2 ^ 64) (h : size ≤ length) :
    (length + 2 ^ 64 - size) % 2 ^ 64 = length - size := by
  omega

/-- With room for all of the length, the loop passes over whole fragments as long as they fit
in it, and appends their bytes unless it stores over them. -/
theorem coalesceLoop_fits (m : Mem) {target : Fragment} (is : List Fragment) {length : Nat}
    (room : length ≤ target.tailroom) :
    ∃ m' passed rest left, coalesceLoop m target is length =
        (m', { target with size := target.size + totalSize passed }, rest, left) ∧
      is = passed ++ rest ∧ totalSize passed + left = length ∧
      (∀ i ∈ rest.head?, left < i.size) ∧ SameOutside m m' target.tail (totalSize passed) ∧
      ((∀ i ∈ is, Apart target.tail length i.head i.size) →
        ({ target with size := target.size + totalSize passed } : Fragment).data m' =
          target.data m ++ passed.flatMap (Fragment.data m)) := by
  induction is generalizing m target length with
  | nil =>
    refine ⟨m, [], [], length, rfl, rfl, by simp, by simp, .refl _ _ _, fun _ => ?_⟩
    simp only [totalSize_nil, Nat.add_zero, List.flatMap_nil, List.append_nil]
  | cons i is ih =>
    unfold coalesceLoop
    split
    next enough =>
      obtain ⟨m₁, wrote, stored, first⟩ := write_fits m (i.length_data m) (enough.le.trans room)
      rw [wrote]
      have less : length - i.size ≤ ({ target with size := target.size + i.size } : Fragment).tailroom := by
        rw [tailroom_grown]
        omega
      obtain ⟨m', passed, rest, left, eq, cut, sum, stops, same, data⟩ := ih m₁ less
      rw [tail_grown] at same data
      refine ⟨m', i :: passed, rest, left, ?_, ?_, ?_, stops, ?_, fun apart => ?_⟩
      · simp only [eq, totalSize_cons, Nat.add_assoc]
      · rw [cut, List.cons_append]
      · simp only [totalSize_cons]
        omega
      · exact stored.append same
      · -- the bytes still to come are read after the store
        have later : ∀ j ∈ is, Apart target.tail i.size j.head j.size := by
          intro j hj
          have := apart j (List.mem_cons_of_mem _ hj)
          unfold Apart at *
          omega
        have further : ∀ j ∈ is, Apart (target.tail + i.size) (length - i.size) j.head j.size := by
          intro j hj
          have := apart j (List.mem_cons_of_mem _ hj)
          unfold Apart at *
          omega
        have kept : passed.flatMap (Fragment.data m₁) = passed.flatMap (Fragment.data m) := by
          refine flatMap_data_sameOutside stored fun j hj => later j ?_
          rw [cut]
          exact List.mem_append_left _ hj
        have all := data further
        rw [first, kept] at all
        rw [List.flatMap_cons, ← List.append_assoc, ← all]
        simp only [totalSize_cons, Nat.add_assoc]
    next short =>
      refine ⟨m, [], i :: is, length, rfl, rfl, by simp, ?_, .refl _ _ _, fun _ => ?_⟩
      · intro j hj
        cases hj
        exact Nat.lt_of_not_le short
      · simp only [totalSize_nil, Nat.add_zero, List.flatMap_nil, List.append_nil]

/-- A length beyond all the bytes that are left takes the loop to the end. -/
theorem coalesceLoop_end (m : Mem) (target : Fragment) {is : List Fragment} {length : Nat}
    (h : totalSize is < length) :
    ∃ m' target' left, coalesceLoop m target is length = (m', target', [], left) ∧ 0 < left := by
  induction is generalizing m target length with
  | nil => exact ⟨m, target, length, rfl, by omega⟩
  | cons i is ih =>
    simp only [totalSize_cons] at h
    have count : (target.write m (i.data m)).2.2 ≤ i.size := by
      simp only [Fragment.write, Fragment.length_data]
      omega
    unfold coalesceLoop
    rw [if_pos (by omega)]
    exact ih _ _ (by omega)

/-- The fragment written to ends up with just the length, and the bytes stay in order unless
they are stored over. -/
theorem coalesceInto_fits (m : Mem) (b : Buffer) (pre : List Fragment) {is : List Fragment}
    {target : Fragment} {length : Nat} (small : length < 2 ^ 64) (long : target.size ≤ length)
    (room : length - target.size ≤ target.tailroom) (bytes : length - target.size ≤ totalSize is)
    (inside : ∀ i ∈ is, i.Inside) :
    ∃ m' grown rest, coalesceInto m b pre target is length =
        some (m', ⟨pre ++ grown :: rest, b.size⟩, length) ∧
      grown.size = length ∧ length + totalSize rest = target.size + totalSize is ∧
      SameOutside m m' target.tail (length - target.size) ∧
      ((∀ i ∈ is, Apart target.tail (length - target.size) i.head i.size) →
        grown.data m' ++ rest.flatMap (Fragment.data m') =
          target.data m ++ is.flatMap (Fragment.data m)) := by
  obtain ⟨m₁, passed, rest, left, eq, cut, sum, stops, same, data⟩ :=
    coalesceLoop_fits m is room
  have total : totalSize is = totalSize passed + totalSize rest := by rw [cut, totalSize_append]
  -- what the loop stores leaves the fragments behind it alone
  have kept : (∀ i ∈ is, Apart target.tail (length - target.size) i.head i.size) →
      ∀ g ∈ rest, g.data m₁ = g.data m := by
    intro apart g hg
    have whole := same.mono (k := length - target.size) (Nat.le_refl _) (by omega)
    refine whole.load (apart g ?_)
    rw [cut]
    exact List.mem_append_right _ hg
  unfold coalesceInto
  rw [usize_sub small long, eq]
  simp only
  split
  next done =>
    have size : target.size + totalSize passed = length := by omega
    refine ⟨m₁, { target with size := target.size + totalSize passed }, rest, by rw [size], size,
      by omega, same.mono (Nat.le_refl _) (by omega), ?_⟩
    intro apart
    rw [data apart, List.flatMap_congr (kept apart), cut, List.flatMap_append, List.append_assoc]
  next more =>
    cases rest with
    | nil =>
      simp only [totalSize_nil] at total
      omega
    | cons i rest =>
      have part : left < i.size := stops i rfl
      have mem : i ∈ is := by simp [cut]
      obtain ⟨-, -, size, skipped⟩ := Fragment.skipBytes_spec (inside i mem) left
      have taken : ((i.data m₁).take left).length = left := by simp [Nat.le_of_lt part]
      have fits : left ≤
          ({ target with size := target.size + totalSize passed } : Fragment).tailroom := by
        rw [tailroom_grown]
        omega
      obtain ⟨m₂, wrote, stored, grown⟩ := write_fits m₁ taken fits
      rw [tail_grown] at stored
      have reached : target.size + totalSize passed + left = length := by omega
      simp only [wrote]
      have whole : SameOutside m m₂ target.tail (length - target.size) :=
        (same.append stored).mono (Nat.le_refl _) (by omega)
      refine ⟨m₂, { target with size := target.size + totalSize passed + left },
        (i.skipBytes left).1 :: rest, by rw [reached], reached, ?_, whole, ?_⟩
      · simp only [totalSize_cons, size] at total ⊢
        omega
      · intro apart
        have behind : ∀ g ∈ i :: rest, g.data m₂ = g.data m := by
          intro g hg
          refine whole.load (apart g ?_)
          rw [cut]
          exact List.mem_append_right _ hg
        have last := List.flatMap_congr fun g hg => behind g (List.mem_cons_of_mem i hg)
        rw [grown, data apart, List.flatMap_cons, skipped, behind i (by simp), last,
          kept apart i (by simp), cut, List.flatMap_append, List.flatMap_cons]
        conv => rhs; rw [← List.take_append_drop left (i.data m)]
        simp only [List.append_assoc]

/-- Less than the first fragment is copied into an empty one. -/
theorem coalesceInto_part (m : Mem) (b : Buffer) (pre is : List Fragment) {target i : Fragment}
    {length : Nat} (small : length < 2 ^ 64) (empty : target.size = 0)
    (room : length ≤ target.tailroom) (pos : 0 < length) (part : length < i.size) :
    ∃ m' grown, coalesceInto m b pre target (i :: is) length =
        some (m', ⟨pre ++ grown :: (i.skipBytes length).1 :: is, b.size⟩, length) ∧
      grown.size = length := by
  have taken : ((i.data m).take length).length = length := by simp [Nat.le_of_lt part]
  obtain ⟨m', wrote, -, -⟩ := write_fits m taken room
  rw [empty, Nat.zero_add] at wrote
  refine ⟨m', { target with size := length }, ?_, rfl⟩
  unfold coalesceInto
  rw [usize_sub small (by omega), empty, Nat.sub_zero]
  simp only [coalesceLoop, if_neg (Nat.not_le.mpr part), if_neg (Nat.ne_of_gt pos), wrote]

section Located

variable {b : Buffer} {offset length o : Nat} {pre fs : List Fragment} {f : Fragment}

theorem cappedLength_le (b : Buffer) (offset length : Nat) :
    b.cappedLength offset length ≤ b.size - offset := by
  unfold cappedLength
  split
  · exact Nat.le_refl _
  · omega

theorem Holds.busy (h : b.Holds offset pre f fs o) (pos : 0 < length) :
    ¬ (b.fragments = [] ∨ length = 0 ∨ offset ≥ b.size) := by
  have := h.before
  have := h.within
  have := h.total
  rw [h.parts]
  simp only [List.append_eq_nil_iff, reduceCtorEq, and_false, false_or]
  omega

theorem underflows_iff (h : b.Holds offset pre f fs o) :
    b.Underflows offset length ↔ f.size - o < b.cappedLength offset length ∧
      b.cappedLength offset length ≤ f.size - o + f.tailroom ∧
      b.cappedLength offset length < f.size := by
  unfold Underflows
  rw [h.found]

theorem startsFragment_iff (h : b.Holds offset pre f fs o) :
    b.StartsFragment offset length ↔
      b.cappedLength offset length ≤ f.size - o ∧ b.size = f.size ∨
        f.size - o < b.cappedLength offset length ∧ o = 0 := by
  unfold StartsFragment
  rw [h.found]

theorem coalesce_eq (m : Mem) (alloc : Nat → Fragment) (h : b.Holds offset pre f fs o)
    (pos : 0 < length) :
    b.coalesce m alloc offset length =
      if f.size - o ≥ b.cappedLength offset length then some (m, b, b.size)
      else if f.size - o + f.tailroom < b.cappedLength offset length then
        coalesceInto m b pre (alloc (b.cappedLength offset length)) (f :: fs)
          (b.cappedLength offset length)
      else coalesceInto m b pre f fs (b.cappedLength offset length) := by
  unfold coalesce
  rw [if_neg (h.busy pos)]
  simp only [h.found]
  rfl

theorem coalesceRange_eq (h : b.Holds offset pre f fs o) (small : b.size < 2 ^ 64)
    (pos : 0 < length) (beyond : f.size - o < b.cappedLength offset length)
    (room : b.cappedLength offset length ≤ f.size - o + f.tailroom)
    (long : f.size ≤ b.cappedLength offset length) :
    b.coalesceRange offset length = (f.tail, b.cappedLength offset length - f.size) := by
  have capped := cappedLength_le b offset length
  have within := h.within
  unfold coalesceRange
  rw [if_neg (h.busy pos)]
  simp only [h.found]
  change (if f.size - o ≥ b.cappedLength offset length ∨
    f.size - o + f.tailroom < b.cappedLength offset length then _ else _) = _
  rw [if_neg (by omega)]
  change (f.tail, min ((b.cappedLength offset length + 2 ^ 64 - f.size) % 2 ^ 64) f.tailroom) = _
  rw [usize_sub (by omega) long, Nat.min_eq_left (by omega)]

/-- `coalesce` puts a fragment of just the length where the offset was found. -/
def Gathers (m : Mem) (alloc : Nat → Fragment) (b : Buffer) (offset length : Nat)
    (pre : List Fragment) : Prop :=
  ∃ m' grown rest, b.coalesce m alloc offset length =
      some (m', ⟨pre ++ grown :: rest, b.size⟩, b.cappedLength offset length) ∧
    grown.size = b.cappedLength offset length ∧ b.size = totalSize (pre ++ grown :: rest) ∧
    (b.FillsClear offset length →
      (pre ++ grown :: rest).flatMap (Fragment.data m') = b.content m)

/-- Both ways to choose the fragment written to lead here. -/
theorem gathers_of_into {m : Mem} {alloc : Nat → Fragment} {target : Fragment} {is : List Fragment}
    (h : b.Holds offset pre f fs o) (hv : b.Valid) (small : b.size < 2 ^ 64)
    (into : b.coalesce m alloc offset length =
      coalesceInto m b pre target is (b.cappedLength offset length))
    (long : target.size ≤ b.cappedLength offset length)
    (room : b.cappedLength offset length - target.size ≤ target.tailroom)
    (later : ∀ i ∈ is, i ∈ f :: fs) (sizes : target.size + totalSize is = f.size + totalSize fs)
    (data : target.data m ++ is.flatMap (Fragment.data m) = (f :: fs).flatMap (Fragment.data m))
    (clear : b.FillsClear offset length → ∀ g ∈ b.fragments,
      Apart target.tail (b.cappedLength offset length - target.size) g.head g.size) :
    b.Gathers m alloc offset length pre := by
  have capped := cappedLength_le b offset length
  have before := h.before
  have total := h.total
  have behind : ∀ i ∈ is, i ∈ b.fragments := by
    intro i hi
    rw [h.parts]
    exact List.mem_append_right _ (later i hi)
  obtain ⟨m', grown, rest, eq, size, sum, same, order⟩ :=
    coalesceInto_fits m b pre (by omega) long room (by omega)
      fun i hi => hv.inside i (behind i hi)
  refine ⟨m', grown, rest, into.trans eq, size, ?_, fun fills => ?_⟩
  · simp only [totalSize_append, totalSize_cons]
    omega
  · have apart := clear fills
    have front : pre.flatMap (Fragment.data m') = pre.flatMap (Fragment.data m) := by
      refine flatMap_data_sameOutside same fun g hg => apart g ?_
      rw [h.parts]
      exact List.mem_append_left _ hg
    rw [List.flatMap_append, List.flatMap_cons, front, order fun i hi => apart i (behind i hi), data,
      ← List.flatMap_append, ← h.parts]
    rfl

/-- The bytes are copied from the start of the fragment that holds the offset on. -/
theorem gathers_fresh {m : Mem} {alloc : Nat → Fragment} (h : b.Holds offset pre f fs o)
    (hv : b.Valid) (small : b.size < 2 ^ 64) (serves : b.Serves alloc) (pos : 0 < length)
    (tight : f.size - o + f.tailroom < b.cappedLength offset length) :
    b.Gathers m alloc offset length pre := by
  obtain ⟨empty, room, apart⟩ := serves (b.cappedLength offset length)
  have into := coalesce_eq m alloc h pos
  rw [if_neg (by omega), if_pos tight] at into
  refine gathers_of_into h hv small into (by omega) (by omega) (fun i hi => hi) ?_ ?_ fun _ g hg => ?_
  · rw [empty, Nat.zero_add, totalSize_cons]
  · rw [Fragment.data_of_size_zero empty, List.nil_append]
  · have := apart g hg
    unfold Apart at *
    omega

theorem gathers_inPlace {m : Mem} {alloc : Nat → Fragment} (h : b.Holds offset pre f fs o)
    (hv : b.Valid) (small : b.size < 2 ^ 64) (pos : 0 < length)
    (beyond : f.size - o < b.cappedLength offset length)
    (room : b.cappedLength offset length ≤ f.size - o + f.tailroom)
    (long : f.size ≤ b.cappedLength offset length) : b.Gathers m alloc offset length pre := by
  have within := h.within
  have into := coalesce_eq m alloc h pos
  rw [if_neg (by omega), if_neg (by omega)] at into
  refine gathers_of_into h hv small into long (by omega) (fun i hi => List.mem_cons_of_mem _ hi) rfl
    (by rw [List.flatMap_cons]) fun fills => ?_
  unfold FillsClear at fills
  rw [coalesceRange_eq h small pos beyond room long] at fills
  exact fills

/-- The length wraps, so the loop runs into the end of the list. -/
theorem coalesce_underflows {m : Mem} {alloc : Nat → Fragment} (h : b.Holds offset pre f fs o)
    (small : b.size < 2 ^ 64) (pos : 0 < length) (under : b.Underflows offset length) :
    b.coalesce m alloc offset length = none := by
  obtain ⟨beyond, room, longer⟩ := (underflows_iff h).mp under
  have total := h.total
  have wraps : (b.cappedLength offset length + 2 ^ 64 - f.size) % 2 ^ 64 =
      b.cappedLength offset length + 2 ^ 64 - f.size := Nat.mod_eq_of_lt (by omega)
  obtain ⟨m', target', left, eq, more⟩ :=
    coalesceLoop_end m f
      (show totalSize fs < b.cappedLength offset length + 2 ^ 64 - f.size by omega)
  rw [coalesce_eq m alloc h pos, if_neg (by omega), if_neg (by omega)]
  unfold coalesceInto
  rw [wraps, eq]
  simp only [if_neg (Nat.ne_of_gt more)]

/-- All that `coalesce` can do at an offset inside the buffer. -/
theorem coalesce_cases (m : Mem) {alloc : Nat → Fragment} (h : b.Holds offset pre f fs o)
    (hv : b.Valid) (small : b.size < 2 ^ 64) (serves : b.Serves alloc) (pos : 0 < length) :
    (b.cappedLength offset length ≤ f.size - o ∧
        b.coalesce m alloc offset length = some (m, b, b.size)) ∨
      (b.Underflows offset length ∧ b.coalesce m alloc offset length = none) ∨
      (f.size - o < b.cappedLength offset length ∧ ¬ b.Underflows offset length ∧
        b.Gathers m alloc offset length pre) := by
  by_cases contiguous : b.cappedLength offset length ≤ f.size - o
  · refine .inl ⟨contiguous, ?_⟩
    rw [coalesce_eq m alloc h pos, if_pos contiguous]
  · by_cases under : b.Underflows offset length
    · exact .inr (.inl ⟨under, coalesce_underflows h small pos under⟩)
    · refine .inr (.inr ⟨by omega, under, ?_⟩)
      rw [underflows_iff h] at under
      by_cases tight : f.size - o + f.tailroom < b.cappedLength offset length
      · exact gathers_fresh h hv small serves pos tight
      · exact gathers_inPlace h hv small pos (by omega) (by omega) (by omega)

theorem coalesce_idle (m : Mem) (alloc : Nat → Fragment) (hv : b.Valid)
    (h : length = 0 ∨ offset ≥ b.size) :
    b.coalesce m alloc offset length = some (m, b, 0) ∧ ¬ b.Underflows offset length := by
  refine ⟨?_, fun under => ?_⟩
  · unfold coalesce
    rw [if_pos (.inr h)]
  · by_cases inside : offset < b.size
    · obtain ⟨pre, f, fs, o, held⟩ := holds_of_lt hv inside
      have none : b.cappedLength offset length = 0 := by
        unfold cappedLength
        split <;> omega
      have := ((underflows_iff held).mp under).1
      omega
    · have before := skipOffset_offset b.fragments offset
      have total := totalSize_skipOffset b.fragments offset
      have counted := hv.size_eq
      unfold Underflows at under
      split at under
      next => exact under
      next g gs o' hit =>
        have stops := skipOffset_stops (congrArg (·.1) hit)
        rw [hit] at before total stops
        simp only [totalSize_cons] at before total stops
        omega

/-- A fragment that goes on for the length behind the offset shows the slice. -/
theorem slice_of_holds {m m' : Mem} {b' : Buffer} (same : b'.content m' = b.content m)
    (found : skipOffset b'.fragments offset = (pre, f :: fs, o))
    (all : o + b.cappedLength offset length ≤ f.size) :
    ((f.data m').drop o).take (b.cappedLength offset length) = b.slice m offset length := by
  have rest := drop_content_skipOffset m' b'.fragments offset
  rw [found] at rest
  unfold slice
  rw [← same, content, rest, List.flatMap_cons, List.drop_append_of_le_length (by simp; omega),
    List.take_append_of_le_length (by simp; omega)]

theorem range_eq {m m' : Mem} {alloc : Nat → Fragment} {b' : Buffer} {n : Nat}
    (inside : offset < b.size) (made : b.coalesce m alloc offset length = some (m', b', n))
    (found : skipOffset b'.fragments offset = (pre, f :: fs, o)) :
    b.range m alloc offset length =
      some (m', b', ⟨f.head + o, min length (f.size - o)⟩) := by
  unfold range
  rw [if_neg (by omega), made]
  simp only [Option.bind_eq_bind, Option.bind_some, found]

/-- It is enough that the fragment goes on for the length and has the size returned. -/
theorem delivers_of_holds {m m' : Mem} {alloc : Nat → Fragment} {b' : Buffer} {n : Nat}
    (inside : offset < b.size) (made : b.coalesce m alloc offset length = some (m', b', n))
    (same : b'.content m' = b.content m)
    (found : skipOffset b'.fragments offset = (pre, f :: fs, o)) (returned : n = f.size)
    (all : o + b.cappedLength offset length ≤ f.size)
    (cut : min length (f.size - o) = b.cappedLength offset length) :
    b.Delivers m alloc offset length := by
  have bytes := slice_of_holds same found all
  refine ⟨m', b', n, made, pre, f, fs, o, found, bytes, returned, _, range_eq inside made found, cut, ?_⟩
  rw [cut, ← bytes]
  unfold Fragment.data
  rw [drop_load, take_load, Nat.min_eq_left (by omega), Nat.min_eq_left (by omega)]

theorem skipOffset_lt {gs : List Fragment} (h : o < f.size) :
    skipOffset (f :: gs) o = ([], f :: gs, o) := by
  simp only [skipOffset, if_neg (Nat.not_le.mpr h)]

/-- Behind the fragments before it, a fragment that reaches beyond the offset is the one that
holds it. -/
theorem skipOffset_pre (gs : List Fragment) (before : totalSize pre + o = offset) (h : o < f.size) :
    skipOffset (pre ++ f :: gs) offset = (pre, f :: gs, o) := by
  rw [← before, skipOffset_add, skipOffset_lt h, List.append_nil]

/-- When the offset is so far inside its fragment that the copy ends before it, the fragment
cut by the copy still holds it. -/
theorem coalesce_short_of_offset {m : Mem} {alloc : Nat → Fragment}
    (h : b.Holds offset pre f fs o) (hv : b.Valid) (small : b.size < 2 ^ 64)
    (serves : b.Serves alloc) (pos : 0 < length)
    (beyond : f.size - o < b.cappedLength offset length)
    (keeps : ¬ b.Underflows offset length) (far : b.cappedLength offset length ≤ o) :
    ∃ m' b' n pre' g, b.coalesce m alloc offset length = some (m', b', n) ∧
      skipOffset b'.fragments offset = (pre', g :: fs, o - b.cappedLength offset length) ∧
      g.size = f.size - b.cappedLength offset length := by
  have capped := cappedLength_le b offset length
  have within := h.within
  have total := h.total
  have before := h.before
  have tight : f.size - o + f.tailroom < b.cappedLength offset length := by
    rw [underflows_iff h] at keeps
    omega
  obtain ⟨empty, room, -⟩ := serves (b.cappedLength offset length)
  obtain ⟨m', grown, eq, size⟩ := coalesceInto_part m b pre fs (by omega) empty room (by omega)
    (show b.cappedLength offset length < f.size by omega)
  have into := coalesce_eq m alloc h pos
  rw [if_neg (by omega), if_pos tight, eq] at into
  obtain ⟨-, -, left, -⟩ := Fragment.skipBytes_spec
    (hv.inside f (by simp [h.parts])) (b.cappedLength offset length)
  refine ⟨m', _, _, pre ++ [grown], _, into, ?_, left.trans (by omega)⟩
  have moved : pre ++ grown :: (f.skipBytes (b.cappedLength offset length)).1 :: fs =
      (pre ++ [grown]) ++ (f.skipBytes (b.cappedLength offset length)).1 :: fs := by simp
  simp only [moved]
  refine skipOffset_pre _ ?_ (by omega)
  simp only [totalSize_append, totalSize_cons, totalSize_nil, size]
  omega

theorem startsFragment_of_delivers {m : Mem} {alloc : Nat → Fragment}
    (h : b.Holds offset pre f fs o) (hv : b.Valid) (small : b.size < 2 ^ 64)
    (serves : b.Serves alloc) (pos : 0 < length) (delivers : b.Delivers m alloc offset length) :
    b.StartsFragment offset length := by
  have within := h.within
  have inside : offset < b.size := by
    have := h.before
    have := h.total
    omega
  obtain ⟨m', b', n, made, pre', g, gs, o', found, -, returned, r, ranged, size, -⟩ := delivers
  have long : b.cappedLength offset length ≤ g.size - o' := by
    rw [range_eq inside made found] at ranged
    cases ranged
    simp only at size
    omega
  rw [startsFragment_iff h]
  rcases coalesce_cases m h hv small serves pos with
    ⟨contiguous, eq⟩ | ⟨-, eq⟩ | ⟨beyond, keeps, m₁, grown, rest, eq, full, -, -⟩
  · rw [eq] at made
    cases made
    rw [h.found] at found
    cases found
    exact .inl ⟨contiguous, returned⟩
  · rw [eq] at made
    cases made
  · refine .inr ⟨beyond, ?_⟩
    by_contra later
    by_cases far : b.cappedLength offset length ≤ o
    · obtain ⟨m₂, b₂, n₂, pre₂, k, eq', found', left⟩ :=
        coalesce_short_of_offset (m := m) h hv small serves pos beyond keeps far
      rw [eq'] at made
      cases made
      rw [found'] at found
      cases found
      omega
    · rw [eq] at made
      cases made
      rw [skipOffset_pre _ h.before (by omega)] at found
      cases found
      omega

theorem delivers_of_startsFragment {m : Mem} {alloc : Nat → Fragment}
    (h : b.Holds offset pre f fs o) (hv : b.Valid) (small : b.size < 2 ^ 64)
    (serves : b.Serves alloc) (pos : 0 < length) (clear : b.FillsClear offset length)
    (starts : b.StartsFragment offset length) : b.Delivers m alloc offset length := by
  have within := h.within
  have before := h.before
  have total := h.total
  have inside : offset < b.size := by omega
  have capped := cappedLength_le b offset length
  have asked : b.cappedLength offset length = min length (b.size - offset) := by
    unfold cappedLength
    split <;> omega
  rw [startsFragment_iff h] at starts
  rcases coalesce_cases m h hv small serves pos with
    ⟨contiguous, eq⟩ | ⟨under, -⟩ | ⟨beyond, -, m', grown, rest, eq, full, -, same⟩
  · exact delivers_of_holds inside eq rfl h.found (by omega) (by omega) (by omega)
  · rw [underflows_iff h] at under
    omega
  · have first : o = 0 := by omega
    have found := skipOffset_pre rest before (show o < grown.size by omega)
    exact delivers_of_holds inside eq (same clear) found full.symm (by omega) (by omega)

end Located

/-- `coalesce` keeps the data unless it grows a fragment in place that is longer than what is
asked for, and then it runs into the end of the list, or fills a tailroom that covers bytes of
the buffer itself. The first always goes wrong, the second as the bytes are. -/
theorem coalesce_keeps_content_iff (m : Mem) {alloc : Nat → Fragment} {b : Buffer} (hv : b.Valid)
    (small : b.size < 2 ^ 64) (serves : b.Serves alloc) (offset length : Nat) :
    (¬ b.Underflows offset length ∧ b.FillsClear offset length →
        b.KeepsContent m alloc offset length) ∧
      (b.KeepsContent m alloc offset length → ¬ b.Underflows offset length) := by
  by_cases idle : length = 0 ∨ offset ≥ b.size
  · obtain ⟨eq, keeps⟩ := coalesce_idle m alloc hv idle
    exact ⟨fun _ => ⟨m, b, 0, eq, rfl, hv.size_eq⟩, fun _ => keeps⟩
  · have pos : 0 < length := by omega
    have inside : offset < b.size := by omega
    obtain ⟨pre, f, fs, o, held⟩ := holds_of_lt hv inside
    constructor
    · rintro ⟨keeps, clear⟩
      rcases coalesce_cases m held hv small serves pos with
        ⟨-, eq⟩ | ⟨under, -⟩ | ⟨-, -, m', grown, rest, eq, -, counted, same⟩
      · exact ⟨m, b, b.size, eq, rfl, hv.size_eq⟩
      · exact absurd under keeps
      · exact ⟨m', _, _, eq, same clear, counted⟩
    · rintro ⟨m', b', n, eq, -⟩ under
      rw [coalesce_underflows held small pos under] at eq
      cases eq

/-- Blobs of their own are enough. -/
theorem fillsClear_of_separate {b : Buffer} (hv : b.Valid)
    (separate : b.fragments.Pairwise Fragment.Separate) (offset length : Nat) :
    b.FillsClear offset length :=
  coalesceRange_apart (clear_self_of_separate hv separate) offset length

/-- Four bytes with room for four more, and another four. -/
def fourAndFour : Buffer := ⟨[⟨⟨0, 8⟩, 0, 4⟩, ⟨⟨10, 4⟩, 10, 4⟩], 8⟩

def fresh (n : Nat) : Fragment := ⟨⟨100, n⟩, 100, 0⟩

theorem fourAndFour_valid : fourAndFour.Valid := by
  refine ⟨rfl, ?_⟩
  simp [fourAndFour, Fragment.Inside, Fragment.tail, ByteBlob.stop]

theorem fourAndFour_separate : fourAndFour.fragments.Pairwise Fragment.Separate := by
  simp [fourAndFour, Fragment.Separate, Apart]

theorem fourAndFour_serves : fourAndFour.Serves fresh := by
  intro n
  simp [fourAndFour, fresh, Fragment.tailroom, Fragment.tail, ByteBlob.stop, Apart]

/-- Bytes 3 to 7: one byte of the second fragment moves into the first. -/
theorem coalesce_keeps_content_fourAndFour :
    ¬ fourAndFour.Underflows 3 5 ∧ fourAndFour.KeepsContent Mem.addresses fresh 3 5 := by
  have keeps : ¬ fourAndFour.Underflows 3 5 := by
    simp [Underflows, fourAndFour, skipOffset, cappedLength]
  refine ⟨keeps, ?_⟩
  exact (coalesce_keeps_content_iff Mem.addresses fourAndFour_valid (by decide)
    fourAndFour_serves 3 5).1
      ⟨keeps, fillsClear_of_separate fourAndFour_valid fourAndFour_separate 3 5⟩

/-- Bytes 3 and 4: the length is 2 - 4, and the loop runs off the list. -/
theorem coalesce_runs_off_the_end :
    fourAndFour.Valid ∧ fourAndFour.Serves fresh ∧
      fourAndFour.fragments.Pairwise Fragment.Separate ∧
      ¬ fourAndFour.KeepsContent Mem.addresses fresh 3 2 := by
  refine ⟨fourAndFour_valid, fourAndFour_serves, fourAndFour_separate, ?_⟩
  rintro ⟨m', b', n, made, -⟩
  have lost : (fourAndFour.coalesce Mem.addresses fresh 3 2).isNone := by decide +kernel
  rw [made] at lost
  cases lost

/-- `range` delivers the slice, and `coalesce` the size of its fragment, when the slice starts
with its fragment and goes on behind it, or no other fragment has bytes, and no tailroom is
filled that covers bytes of the buffer itself. The first is needed in any case. -/
theorem range_delivers_iff (m : Mem) {alloc : Nat → Fragment} {b : Buffer} (hv : b.Valid)
    (small : b.size < 2 ^ 64) (serves : b.Serves alloc) {offset length : Nat}
    (inside : offset < b.size) (pos : 0 < length) :
    (b.StartsFragment offset length ∧ b.FillsClear offset length →
        b.Delivers m alloc offset length) ∧
      (b.Delivers m alloc offset length → b.StartsFragment offset length) := by
  obtain ⟨pre, f, fs, o, held⟩ := holds_of_lt hv inside
  constructor
  · rintro ⟨starts, clear⟩
    exact delivers_of_startsFragment held hv small serves pos clear starts
  · exact startsFragment_of_delivers held hv small serves pos

theorem range_delivers_fourAndFour :
    fourAndFour.Delivers Mem.addresses fresh 0 6 := by
  have starts : fourAndFour.StartsFragment 0 6 := by
    simp [StartsFragment, fourAndFour, skipOffset, cappedLength]
  exact (range_delivers_iff Mem.addresses fourAndFour_valid (by decide)
    fourAndFour_serves (by decide) (by decide)).1
      ⟨starts, fillsClear_of_separate fourAndFour_valid fourAndFour_separate 0 6⟩

/-- Of the bytes 3 to 7 only two are delivered. -/
theorem range_cuts_the_slice :
    fourAndFour.Valid ∧ fourAndFour.Serves fresh ∧
      fourAndFour.fragments.Pairwise Fragment.Separate ∧
      ¬ fourAndFour.Delivers Mem.addresses fresh 3 5 := by
  refine ⟨fourAndFour_valid, fourAndFour_serves, fourAndFour_separate, ?_⟩
  rintro ⟨m', b', n, -, pre, f, fs, o, -, -, -, r, ranged, size, -⟩
  have short : (fourAndFour.range Mem.addresses fresh 3 5).map (·.2.2.size) = some 2 := by
    decide +kernel
  rw [ranged] at short
  have five : fourAndFour.cappedLength 3 5 = 5 := rfl
  simp only [Option.map_some, Option.some.injEq] at short
  omega

end Buffer

end XiRuntime
