import XiRuntime.Memory

namespace XiRuntime

open ByteStore

abbrev Mem := Memory UInt8

/-- Every byte is the low byte of its address. -/
def Mem.addresses : Mem := fun x => UInt8.ofNat x

/-- `byte_blob`: a pointer and a length. The guard that keeps the block alive
does not take part in any address computation and is left out. -/
structure ByteBlob where
  bytes : Nat
  size : Nat
deriving DecidableEq, Repr

def ByteBlob.null : ByteBlob := ⟨0, 0⟩

def ByteBlob.stop (b : ByteBlob) : Nat := b.bytes + b.size

/-- `byte_blob::split`: the part that is returned and what stays behind. -/
def ByteBlob.split (b : ByteBlob) (offset : Nat) : ByteBlob × ByteBlob :=
  if offset ≥ b.size then (.null, b)
  else if offset = 0 then (b, .null)
  else (⟨b.bytes + offset, b.size - offset⟩, ⟨b.bytes, offset⟩)

structure Fragment where
  blob : ByteBlob
  head : Nat
  size : Nat
deriving DecidableEq, Repr

namespace Fragment

def released : Fragment := ⟨.null, 0, 0⟩

def maybeRelease (f : Fragment) : Fragment := if f.blob.size = 0 then released else f

/-- `fragment::fragment(byte_blob)`. -/
def new (b : ByteBlob) : Fragment := maybeRelease ⟨b, b.bytes, 0⟩

def tail (f : Fragment) : Nat := f.head + f.size
def headroom (f : Fragment) : Nat := f.head - f.blob.bytes
def tailroom (f : Fragment) : Nat := f.blob.stop - f.tail

def data (m : Mem) (f : Fragment) : List UInt8 := m.load f.head f.size

def write (m : Mem) (f : Fragment) (r : List UInt8) : Mem × Fragment × Nat :=
  let cap := min r.length f.tailroom
  (m.store f.tail (r.take cap), { f with size := f.size + cap }, cap)

/-- `fragment::advance`; `none` is its failed assertion. -/
def advance (m : Mem) (f : Fragment) (sz : Nat) : Option (Mem × Fragment) :=
  if sz + f.size ≤ f.tailroom then
    some (if f.size > 0 then m.store (f.head + sz) (f.data m) else m, { f with head := f.head + sz })
  else none

/-- `fragment::read` into a range of `n` bytes; the bytes copied there. -/
def read (m : Mem) (f : Fragment) (n offset : Nat) : List UInt8 :=
  if offset ≥ f.size then [] else m.load (f.head + offset) (min n (f.size - offset))

def skipBytes (f : Fragment) (len : Nat) : Fragment × Nat :=
  let cap := min f.size len
  (maybeRelease { f with head := f.head + cap, size := f.size - cap }, cap)

def ignoreBytesAtEnd (f : Fragment) (len : Nat) : Fragment × Nat :=
  let cap := min len f.size
  ({ f with size := f.size - cap }, cap)

/-- `fragment::clone`: the same window into the same block, head- and tailroom included. -/
def clone (f : Fragment) : Fragment := { new f.blob with head := f.head, size := f.size }

/-- `fragment::split`: the fragment returned, null for `none`, and what `this`
has become. -/
def split (f : Fragment) (sz : Nat) : Option Fragment × Fragment :=
  if sz ≥ f.size then (none, f)
  else if sz = 0 ∧ f.headroom = 0 then (some (new f.blob), released)
  else
    let room := f.headroom
    let cut := f.blob.split (sz + room)
    -- `begin()` is unchanged by a split at a positive offset, so `headroom()` is too
    (some { new cut.1 with size := f.size - sz },
      ⟨cut.2, cut.2.bytes + room, cut.2.size - room⟩)

/-- `fragment::record_bytes`; `none` is its failed assertion. -/
def recordBytes (f : Fragment) (sz : Nat) : Option (Fragment × Nat) :=
  if (sz + f.size) % 2 ^ 64 < 2 ^ 63 then
    let increment := min sz f.tailroom
    some ({ f with size := f.size + increment }, increment)
  else none

/-- The window lies inside the blob. -/
def Inside (f : Fragment) : Prop := f.blob.bytes ≤ f.head ∧ f.tail ≤ f.blob.stop

/-- The blobs of two fragments share no byte. -/
def Separate (f g : Fragment) : Prop := Apart f.blob.bytes f.blob.size g.blob.bytes g.blob.size

theorem Separate.symm {f g : Fragment} (h : f.Separate g) : g.Separate f := Apart.symm h

instance : Std.Symm Separate := ⟨fun _ _ h => Separate.symm h⟩

/-- `g` keeps to the storage of `f`. -/
def Within (g f : Fragment) : Prop :=
  g.blob.size = 0 ∨ f.blob.bytes ≤ g.blob.bytes ∧ g.blob.stop ≤ f.blob.stop

theorem Within.separate {f g k : Fragment} (h : g.Within f) (hs : f.Separate k) :
    g.Separate k := by
  unfold Within Separate Apart ByteBlob.stop at *
  omega

@[simp] theorem length_data (m : Mem) (f : Fragment) : (f.data m).length = f.size := by
  simp [data]

theorem inside_released : released.Inside := by
  simp [released, Inside, tail, ByteBlob.null, ByteBlob.stop]

theorem data_of_size_zero {m : Mem} {f : Fragment} (h : f.size = 0) : f.data m = [] := by
  simp [data, h]

theorem maybeRelease_eq {f : Fragment} (h : f.size ≠ 0) (hi : f.Inside) : f.maybeRelease = f := by
  unfold Inside tail ByteBlob.stop at hi
  simp [maybeRelease, show f.blob.size ≠ 0 by omega]

theorem maybeRelease_inside {f : Fragment} (hi : f.Inside) : f.maybeRelease.Inside := by
  unfold maybeRelease
  split
  · exact inside_released
  · exact hi

theorem maybeRelease_within (f : Fragment) : f.maybeRelease.Within f := by
  unfold maybeRelease
  split
  · exact Or.inl rfl
  · exact Or.inr ⟨Nat.le_refl _, Nat.le_refl _⟩

theorem maybeRelease_size {f : Fragment} (hi : f.Inside) : f.maybeRelease.size = f.size := by
  unfold maybeRelease
  split
  next h =>
    unfold Inside tail ByteBlob.stop at hi
    show 0 = f.size
    omega
  next => rfl

theorem maybeRelease_data {m : Mem} {f : Fragment} (hi : f.Inside) :
    f.maybeRelease.data m = f.data m := by
  by_cases h : f.size = 0
  · rw [data_of_size_zero h, data_of_size_zero ((maybeRelease_size hi).trans h)]
  · rw [maybeRelease_eq h hi]

theorem new_inside (b : ByteBlob) : (new b).Inside := by
  apply maybeRelease_inside
  simp [Inside, tail, ByteBlob.stop]

theorem new_size (b : ByteBlob) : (new b).size = 0 := by
  unfold new maybeRelease
  split <;> rfl

/-- `skip_bytes` drops bytes from the front of the window. -/
theorem skipBytes_spec {f : Fragment} (hi : f.Inside) (len : Nat) :
    (f.skipBytes len).1.Inside ∧ (f.skipBytes len).1.Within f ∧
      (f.skipBytes len).1.size = f.size - min f.size len ∧
      ∀ m, (f.skipBytes len).1.data m = (f.data m).drop len := by
  have moved : ({ f with head := f.head + min f.size len, size := f.size - min f.size len } :
      Fragment).Inside := by
    unfold Inside tail at *
    simp only
    omega
  refine ⟨maybeRelease_inside moved, ?_, maybeRelease_size moved, fun m => ?_⟩
  · rcases maybeRelease_within _ with h | h
    · exact Or.inl h
    · exact Or.inr h
  · refine (maybeRelease_data moved).trans ?_
    simp only [data, drop_load]
    congr 1 <;> omega

theorem ignoreBytesAtEnd_spec {f : Fragment} (hi : f.Inside) (len : Nat) :
    (f.ignoreBytesAtEnd len).1.Inside ∧ (f.ignoreBytesAtEnd len).1.Within f ∧
      (f.ignoreBytesAtEnd len).1.size = f.size - min len f.size ∧
      ∀ m, (f.ignoreBytesAtEnd len).1.data m = (f.data m).take (f.size - len) := by
  refine ⟨?_, Or.inr ⟨Nat.le_refl _, Nat.le_refl _⟩, rfl, fun m => ?_⟩
  · unfold Inside tail at *
    simp only [ignoreBytesAtEnd]
    omega
  · simp only [ignoreBytesAtEnd, data, take_load]
    congr 1
    omega

/-- The blob is cut behind the headroom and the bytes that stay. -/
theorem split_eq {f : Fragment} (hi : f.Inside) {sz : Nat} (hs : sz < f.size)
    (inner : ¬ (sz = 0 ∧ f.headroom = 0)) :
    f.split sz =
      (some ⟨⟨f.head + sz, f.blob.stop - (f.head + sz)⟩, f.head + sz, f.size - sz⟩,
        ⟨⟨f.blob.bytes, sz + f.headroom⟩, f.head, sz⟩) := by
  obtain ⟨⟨b, n⟩, h, s⟩ := f
  simp only [Inside, tail, ByteBlob.stop, headroom] at hi hs inner ⊢
  have point : b + (sz + (h - b)) = h + sz := by omega
  have rest : n - (sz + (h - b)) = b + n - (h + sz) := by omega
  have cut : (⟨b, n⟩ : ByteBlob).split (sz + (h - b)) = (⟨h + sz, b + n - (h + sz)⟩, ⟨b, sz + (h - b)⟩) := by
    simp only [ByteBlob.split]
    rw [if_neg (by omega), if_neg (by omega), point, rest]
  have fresh : new ⟨h + sz, b + n - (h + sz)⟩ = ⟨⟨h + sz, b + n - (h + sz)⟩, h + sz, 0⟩ := by
    simp only [new, maybeRelease]
    rw [if_neg (by omega)]
  have short : ¬ sz ≥ s := by omega
  have kept : b + (h - b) = h := by omega
  have left : sz + (h - b) - (h - b) = sz := by omega
  simp only [split, headroom, short, inner, if_false, cut, fresh, kept, left]

/-- `split` inside the window cuts the data and the blob at the same point. -/
theorem split_spec {f : Fragment} (hi : f.Inside) {sz : Nat} (hp : 0 < sz) (hs : sz < f.size) :
    ∃ g k, f.split sz = (some g, k) ∧ g.Inside ∧ k.Inside ∧ g.Within f ∧ k.Within f ∧
      g.Separate k ∧ g.size = f.size - sz ∧ k.size = sz ∧
      ∀ m, k.data m = (f.data m).take sz ∧ g.data m = (f.data m).drop sz := by
  refine ⟨_, _, split_eq hi hs (by omega), ?_⟩
  simp only [Inside, tail, ByteBlob.stop] at hi
  simp only [Inside, tail, ByteBlob.stop, Within, Separate, Apart, data, take_load, drop_load, headroom]
  refine ⟨by omega, by omega, by omega, by omega, by omega, trivial, trivial, fun m => ⟨?_, ?_⟩⟩
  · rw [Nat.min_eq_left (Nat.le_of_lt hs)]
  · rw [Nat.min_eq_left (Nat.le_of_lt hs)]

/-- The bytes from an offset on. -/
theorem load_rest (m : Mem) {f : Fragment} {offset : Nat} (h : offset ≤ f.size) :
    m.load (f.head + offset) (f.size - offset) = (f.data m).drop offset := by
  rw [data, drop_load, Nat.min_eq_left h]

theorem read_eq (m : Mem) (f : Fragment) (n offset : Nat) :
    f.read m n offset = ((f.data m).drop offset).take n := by
  unfold read data
  rw [drop_load, take_load]
  split
  next h => rw [show f.size - offset = 0 by omega]; simp
  next h => rw [Nat.min_eq_left (Nat.le_of_lt (Nat.lt_of_not_le h))]

end Fragment

end XiRuntime
