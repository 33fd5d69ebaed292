import XiRuntime.FragmentWindow
import XiRuntime.ReaderMark
import XiRuntime.Runs

namespace XiRuntime

open ByteStore

def ByteRange.stop (r : ByteRange) : Nat := r.bytes + r.size

namespace Fragment

def headRange (f : Fragment) : ByteRange := ⟨f.head, f.headroom⟩
def tailRange (f : Fragment) : ByteRange := ⟨f.tail, f.tailroom⟩

/-- The three ranges follow one another from the begin of the blob to its end, and what is written
through the outer two leaves the data alone. -/
structure RangesTile (f : Fragment) : Prop where
  start : f.headRange.bytes = f.blob.bytes
  headToData : f.headRange.stop = f.dataRange.bytes
  dataToTail : f.dataRange.stop = f.tailRange.bytes
  stop : f.tailRange.stop = f.blob.stop
  sizes : f.headRange.size = f.headroom ∧ f.dataRange.size = f.size ∧ f.tailRange.size = f.tailroom
  headWrites : ∀ (m : Mem) (offset : Nat) (xs : List UInt8), offset + xs.length ≤ f.headRange.size →
    f.data (m.store (f.headRange.bytes + offset) xs) = f.data m
  tailWrites : ∀ (m : Mem) (offset : Nat) (xs : List UInt8), offset + xs.length ≤ f.tailRange.size →
    f.data (m.store (f.tailRange.bytes + offset) xs) = f.data m

end Fragment

/-- The calls on one fragment; `split` goes on with what stays, and `splitRest` with the fragment
that is returned. -/
inductive FragmentOp
  | write (r : List UInt8)
  | read (n offset : UInt64)
  | recordBytes (sz : UInt64)
  | skipBytes (len : UInt64)
  | ignoreBytesAtEnd (len : UInt64)
  | advance (sz : UInt64)
  | split (sz : UInt64)
  | splitRest (sz : UInt64)
deriving DecidableEq, Repr

namespace FragmentOp

/-- One call. `none` is a failed assertion, or a null pointer to go on with. -/
def step (s : Mem × Fragment) : FragmentOp → Option (Mem × Fragment)
  | .write r => some ((s.2.write s.1 r).1, (s.2.write s.1 r).2.1)
  | .read _ _ => some s
  | .recordBytes sz => (s.2.recordBytes sz.toNat).map (fun out => (s.1, out.1))
  | .skipBytes len => some (s.1, (s.2.skipBytes len.toNat).1)
  | .ignoreBytesAtEnd len => some (s.1, (s.2.ignoreBytesAtEnd len.toNat).1)
  | .advance sz => s.2.advanceUsize s.1 sz.toNat
  | .split sz => some (s.1, (s.2.split sz.toNat).2)
  | .splitRest sz => (s.2.split sz.toNat).1.map (fun r => (s.1, r))

/-- The calls that leave headroom behind the begin of the blob. -/
def MovesHead (f : Fragment) : FragmentOp → Prop
  | .advance sz => sz.toNat ≠ 0
  | .skipBytes len => len.toNat ≠ 0 ∧ f.size ≠ 0
  | _ => False

end FragmentOp

namespace Fragment

/-- The window lies in the blob and begins with it. -/
structure AtFront (f : Fragment) : Prop where
  inside : f.Inside
  space : f.blob.stop < 2 ^ 64
  front : f.head = f.blob.bytes

variable {f : Fragment}

/-- The tail range begins behind the data. -/
theorem data_tailWrite (f : Fragment) (m : Mem) (offset : Nat) (xs : List UInt8) :
    f.data (m.store (f.tailRange.bytes + offset) xs) = f.data m := by
  apply load_store_apart
  simp only [tailRange]
  unfold Apart tail
  omega

theorem rangesTile_iff (hi : f.Inside) : f.RangesTile ↔ f.head = f.blob.bytes := by
  constructor
  · intro tile
    exact tile.start
  · intro front
    have none : f.headroom = 0 := by rw [headroom, front, Nat.sub_self]
    obtain ⟨above, below⟩ := hi
    constructor
    · exact front
    · simp only [headRange, none, ByteRange.stop, dataRange, Nat.add_zero]
    · rfl
    · simp only [tailRange, ByteRange.stop, tailroom]
      omega
    · exact ⟨rfl, rfl, rfl⟩
    · intro m offset xs room
      simp only [headRange, none] at room
      apply load_store_apart
      exact Or.inl (by omega)
    · intro m offset xs _
      exact data_tailWrite f m offset xs

/-- More data, or less of them at the end. -/
theorem AtFront.resize (h : f.AtFront) {size : Nat} (fits : size ≤ f.size + f.tailroom) :
    AtFront { f with size := size } := by
  obtain ⟨⟨above, below⟩, space, front⟩ := h
  refine ⟨⟨above, ?_⟩, space, front⟩
  unfold tailroom at fits
  unfold tail at below fits ⊢
  simp only
  omega

theorem atFront_released : released.AtFront := ⟨inside_released, by decide, rfl⟩

theorem AtFront.maybeRelease (h : f.AtFront) : f.maybeRelease.AtFront := by
  unfold Fragment.maybeRelease
  split
  next => exact atFront_released
  next => exact h

theorem atFront_new {b : ByteBlob} (space : b.stop < 2 ^ 64) : (new b).AtFront := by
  apply AtFront.maybeRelease
  exact ⟨⟨Nat.le_refl _, Nat.le_add_right _ _⟩, space, rfl⟩

theorem AtFront.skipNothing (h : f.AtFront) {len : Nat} (nothing : min f.size len = 0) :
    (f.skipBytes len).1.AtFront := by
  simp only [skipBytes, nothing, Nat.add_zero, Nat.sub_zero]
  exact h.maybeRelease

/-- Both parts begin with their blobs. -/
theorem AtFront.split (h : f.AtFront) (sz : Nat) :
    (f.split sz).2.AtFront ∧ ∀ r, (f.split sz).1 = some r → r.AtFront := by
  by_cases past : sz ≥ f.size
  · have whole : f.split sz = (none, f) := by rw [Fragment.split, if_pos past]
    rw [whole]
    exact ⟨h, fun r hr => by cases hr⟩
  by_cases inner : sz = 0 ∧ f.headroom = 0
  · have away : f.split sz = (some (new f.blob), released) := by
      rw [Fragment.split, if_neg past, if_pos inner]
    rw [away]
    refine ⟨atFront_released, ?_⟩
    intro r hr
    cases hr
    exact atFront_new h.space
  · have within : sz < f.size := by omega
    obtain ⟨⟨above, below⟩, space, front⟩ := h
    rw [split_eq ⟨above, below⟩ within inner]
    unfold tail ByteBlob.stop at below
    unfold ByteBlob.stop at space
    refine ⟨⟨⟨above, ?_⟩, ?_, front⟩, ?_⟩
    · simp only [tail, ByteBlob.stop, headroom]
      omega
    · simp only [ByteBlob.stop, headroom]
      omega
    · intro r hr
      cases hr
      refine ⟨⟨Nat.le_refl _, ?_⟩, ?_, rfl⟩
      · simp only [tail, ByteBlob.stop]
        omega
      · simp only [ByteBlob.stop]
        omega

end Fragment

namespace FragmentOp

open Fragment

variable {s s' : Mem × Fragment} {op : FragmentOp}

/-- What `advance` admits, it does to the head only. -/
theorem advance_some {sz : UInt64} (taken : step s (.advance sz) = some s') :
    s'.2 = { s.2 with head := (s.2.head + sz.toNat) % 2 ^ 64 } := by
  simp only [step, advanceUsize] at taken
  split at taken
  next =>
    cases taken
    rfl
  next => cases taken

/-- A call that does not move the head keeps the window at the front. -/
theorem step_front (h : s.2.AtFront) (taken : step s op = some s') (still : ¬ op.MovesHead s.2) :
    s'.2.AtFront := by
  cases op with
  | write r =>
    cases taken
    exact h.resize (Nat.add_le_add_left (Nat.min_le_right _ _) _)
  | read n offset =>
    cases taken
    exact h
  | recordBytes sz =>
    simp only [step, Fragment.recordBytes] at taken
    split at taken
    next =>
      cases taken
      exact h.resize (Nat.add_le_add_left (Nat.min_le_right _ _) _)
    next => cases taken
  | skipBytes len =>
    cases taken
    apply h.skipNothing
    simp only [MovesHead] at still
    omega
  | ignoreBytesAtEnd len =>
    cases taken
    exact h.resize (Nat.le_trans (Nat.sub_le _ _) (Nat.le_add_right _ _))
  | advance sz =>
    rw [advance_some taken]
    have none : sz.toNat = 0 := not_not.mp still
    have low : s.2.head < 2 ^ 64 := by
      have below := h.inside.2
      have space := h.space
      unfold tail at below
      omega
    rw [none, Nat.add_zero, Nat.mod_eq_of_lt low]
    exact h
  | split sz =>
    cases taken
    exact (h.split sz.toNat).1
  | splitRest sz =>
    simp only [step, Option.map_eq_some_iff] at taken
    obtain ⟨r, returned, rfl⟩ := taken
    exact (h.split sz.toNat).2 r returned

/-- A call that moves the head leaves the begin of the blob. -/
theorem step_moved (h : s.2.AtFront) (taken : step s op = some s') (moves : op.MovesHead s.2) :
    s'.2.head ≠ s'.2.blob.bytes := by
  have below := h.inside.2
  have space := h.space
  have front := h.front
  unfold tail at below
  cases op with
  | advance sz =>
    rw [advance_some taken]
    have wide := sz.toNat_lt
    have some : sz.toNat ≠ 0 := moves
    simp only
    omega
  | skipBytes len =>
    cases taken
    obtain ⟨wanted, busy⟩ := moves
    have blob : s.2.blob.size ≠ 0 := by
      unfold ByteBlob.stop at below
      omega
    simp only [Fragment.skipBytes, maybeRelease, if_neg blob]
    omega
  | write r => cases moves
  | read n offset => cases moves
  | recordBytes sz => cases moves
  | ignoreBytesAtEnd len => cases moves
  | split sz => cases moves
  | splitRest sz => cases moves

theorem step_tile_iff (h : s.2.AtFront) (taken : step s op = some s') :
    s'.2.RangesTile ↔ ¬ op.MovesHead s.2 := by
  constructor
  · intro tile moves
    exact step_moved h taken moves tile.start
  · intro still
    have next := step_front h taken still
    exact (rangesTile_iff next.inside).mpr next.front

/-- The ranges tile the blob all along a run just when no call of it moves the head: the head
range begins at the head and not at the begin of the blob. -/
theorem ranges_tile_along_iff (m : Mem) {b : ByteBlob} (space : b.stop < 2 ^ 64)
    (ops : List FragmentOp) :
    (∀ n s, (ops.take n).foldlM step (m, Fragment.new b) = some s → s.2.RangesTile) ↔
      ∀ n op s s', ops[n]? = some op → (ops.take n).foldlM step (m, Fragment.new b) = some s →
        step s op = some s' → ¬ op.MovesHead s.2 := by
  have fresh : (Fragment.new b).AtFront := atFront_new space
  exact Runs.partial_states_exact (P := fun s : Mem × Fragment => s.2.AtFront)
    (Q := fun s => s.2.RangesTile) fresh ((rangesTile_iff fresh.inside).mpr fresh.front)
    (fun _ _ _ => step_tile_iff) (fun _ _ _ => step_front)

/-- Three bytes are written, two of them split off and gone on with. -/
theorem ranges_tile_along_split :
    (([.write [1, 2, 3], .splitRest 1, .advance 0] : List FragmentOp).foldlM step
        (fun _ => 0, Fragment.new ⟨8, 8⟩)).map (·.2) = some ⟨⟨9, 7⟩, 9, 2⟩ ∧
      ∀ n s, (([.write [1, 2, 3], .splitRest 1, .advance 0] : List FragmentOp).take n).foldlM step
        (fun _ => 0, Fragment.new ⟨8, 8⟩) = some s → s.2.RangesTile := by
  refine ⟨by decide, (ranges_tile_along_iff (fun _ => 0) (by decide) _).mpr ?_⟩
  intro n op s s' called _ _
  have mem := List.mem_of_getElem? called
  revert mem
  simp only [List.mem_cons, List.not_mem_nil, or_false]
  intro mem
  rcases mem with rfl | rfl | rfl
  · exact id
  · exact id
  · exact fun moves => moves rfl

/-- Two bytes of headroom and two of data: the head range is the data. -/
theorem head_range_covers_data :
    ¬ ∀ (m : Mem) (b : ByteBlob) (ops : List FragmentOp), b.stop < 2 ^ 64 →
      ∀ n s, (ops.take n).foldlM step (m, Fragment.new b) = some s → s.2.RangesTile := by
  intro h
  have tile := h (fun _ => 0) ⟨8, 4⟩ [.advance 2, .write [1, 2]] (by decide) 2 _ rfl
  exact absurd tile.start (by decide)

end FragmentOp

end XiRuntime
