import XiRuntime.Fragment

namespace XiRuntime

open ByteStore

structure Buffer where
  fragments : List Fragment
  size : Nat
deriving DecidableEq, Repr

/-- `skip_offset`: the fragments passed over, those from the iterator on, and
the offset that is left. -/
def skipOffset : List Fragment → Nat → List Fragment × List Fragment × Nat
  | [], offset => ([], [], offset)
  | f :: fs, offset =>
    if offset ≥ f.size then
      let rest := skipOffset fs (offset - f.size)
      (f :: rest.1, rest.2)
    else ([], f :: fs, offset)

namespace Buffer

def new : Buffer := ⟨[], 0⟩

/-- `buffer::buffer(own<fragment>)`. -/
def ofFragment (f : Fragment) : Buffer :=
  if f.size = 0 ∧ f.headroom = 0 ∧ f.tailroom = 0 then new else ⟨[f], f.size⟩

def pushFrontFragment (b : Buffer) : Option Fragment → Buffer
  | none => b
  | some p => ⟨p :: b.fragments, b.size + p.size⟩

def pushBackFragment (b : Buffer) : Option Fragment → Buffer
  | none => b
  | some p => ⟨b.fragments ++ [p], b.size + p.size⟩

def pushFrontBuffer (b : Buffer) : Option Buffer → Buffer
  | none => b
  | some p => ⟨p.fragments ++ b.fragments, b.size + p.size⟩

def pushBackBuffer (b : Buffer) : Option Buffer → Buffer
  | none => b
  | some p => ⟨b.fragments ++ p.fragments, b.size + p.size⟩

def headroom (b : Buffer) : Nat :=
  match b.fragments.head? with
  | none => 0
  | some f => f.headroom

def tailroom (b : Buffer) : Nat :=
  match b.fragments.getLast? with
  | none => 0
  | some f => f.tailroom

/-- `buffer::split`: the buffer returned, null for `none`, and what `this` has
become. The outer `none` is a null or end dereference. -/
def split (b : Buffer) (sz : Nat) : Option (Option Buffer × Buffer) :=
  if b.fragments = [] ∨ sz = 0 then some (none, b)
  else if b.size < sz then some (some ⟨b.fragments, b.size⟩, new)
  else
    let it := skipOffset b.fragments sz
    if it.2.2 > 0 then
      match it.2.1 with
      | [] => none
      | f :: fs =>
        match f.split it.2.2 with
        | (none, _) => none
        | (some node, f') =>
          let moved := it.1 ++ [f']
          some (some ⟨moved, sz⟩,
            ⟨node :: fs, moved.foldl (fun left i => left - i.size) b.size⟩)
    else some (some ⟨it.1, sz⟩, ⟨it.2.1, it.1.foldl (fun left i => left - i.size) b.size⟩)

/-- The loop of `buffer::read`: the bytes copied and the room left in the range. -/
def readLoop (m : Mem) : List Fragment → Nat → Nat → List UInt8 × Nat
  | [], n, _ => ([], n)
  | f :: fs, n, offset =>
    let ret := f.read m n offset
    if n - ret.length = 0 then (ret, 0)
    else
      let rest := readLoop m fs (n - ret.length) 0
      (ret ++ rest.1, rest.2)

def read (m : Mem) (b : Buffer) (n offset : Nat) : List UInt8 × Nat :=
  if b.fragments = [] ∨ n = 0 ∨ offset ≥ b.size then ([], 0)
  else
    let it := skipOffset b.fragments offset
    let out := readLoop m it.2.1 n it.2.2
    (out.1, n - out.2)

def write (m : Mem) (b : Buffer) (r : List UInt8) : Mem × Buffer × Nat :=
  match b.fragments.getLast? with
  | none => (m, b, 0)
  | some f =>
    if r = [] then (m, b, 0)
    else
      let out := f.write m r
      (out.1, ⟨b.fragments.dropLast ++ [out.2.1], b.size + out.2.2⟩, out.2.2)

/-- `erase_and_dispose` of the fragments passed over, or `skip_bytes` of all of
each of them. -/
def skipBytes (b : Buffer) (sz : Nat) (free : Bool) : Buffer :=
  if b.fragments = [] then b
  else
    let it := skipOffset b.fragments sz
    let dropped := fun i : Fragment => (i.skipBytes i.size).1
    match it.2.1 with
    | [] => ⟨if free then [] else it.1.map dropped, 0⟩
    | f :: fs =>
      let f' := (f.skipBytes it.2.2).1
      if f'.size = 0 then
        ⟨(if free then [] else (it.1 ++ [f']).map dropped) ++ fs, b.size - sz⟩
      else ⟨(if free then [] else it.1.map dropped) ++ f' :: fs, b.size - sz⟩

/-- As `skipBytes` over the reversed list; `it.base()` is the element after `it`
in forward order. -/
def ignoreBytesAtEnd (b : Buffer) (sz : Nat) (free : Bool) : Buffer :=
  if b.fragments = [] then b
  else
    let it := skipOffset b.fragments.reverse sz
    let dropped := fun i : Fragment => (i.ignoreBytesAtEnd i.size).1
    let passed := if free then [] else (it.1.map dropped).reverse
    match it.2.1 with
    | [] => ⟨passed, 0⟩
    | f :: fs => ⟨((f.ignoreBytesAtEnd it.2.2).1 :: fs).reverse ++ passed, b.size - sz⟩

def clone (b : Buffer) : Buffer := ⟨b.fragments.map Fragment.clone, b.size⟩

/-- The loop of `coalesce`: the fragment written to, the fragments from the iterator on and
the length that is left. -/
def coalesceLoop : Mem → Fragment → List Fragment → Nat → Mem × Fragment × List Fragment × Nat
  | m, target, [], length => (m, target, [], length)
  | m, target, i :: is, length =>
    if length ≥ i.size then
      let out := target.write m (i.data m)
      coalesceLoop out.1 out.2.1 is (length - out.2.2)
    else (m, target, i :: is, length)

/-- The part of `coalesce` after the fragment to write to is chosen: `pre` stands before it
and `is` from the iterator on. The length wraps like a `usize`, and `none` is the
dereference of the end iterator. -/
def coalesceInto (m : Mem) (b : Buffer) (pre : List Fragment) (target : Fragment) (is : List Fragment)
    (length : Nat) : Option (Mem × Buffer × Nat) :=
  match coalesceLoop m target is ((length + 2 ^ 64 - target.size) % 2 ^ 64) with
  | (m, target, rest, length) =>
    if length = 0 then some (m, ⟨pre ++ target :: rest, b.size⟩, target.size)
    else
      match rest with
      | [] => none
      | i :: is =>
        let out := target.write m ((i.data m).take length)
        some (out.1, ⟨pre ++ out.2.1 :: (i.skipBytes length).1 :: is, b.size⟩, out.2.1.size)

/-- `buffer::coalesce`; `alloc` is the fragment of the buffer that the allocator returns. -/
def coalesce (m : Mem) (alloc : Nat → Fragment) (b : Buffer) (offset length : Nat) :
    Option (Mem × Buffer × Nat) :=
  if b.fragments = [] ∨ length = 0 ∨ offset ≥ b.size then some (m, b, 0)
  else
    let length := if length > b.size - offset then b.size - offset else length
    let it := skipOffset b.fragments offset
    match it.2.1 with
    | [] => none
    | f :: fs =>
      let headSize := f.size - it.2.2
      if headSize ≥ length then some (m, b, b.size)
      else if headSize + f.tailroom < length then
        coalesceInto m b it.1 (alloc length) (f :: fs) length
      else coalesceInto m b it.1 f fs length

/-- `iovec_adapter::report_written`; `none` is the assertion of `record_bytes`. -/
def reportWritten (b : Buffer) (sz : Nat) : Option Buffer :=
  match b.fragments.getLast? with
  | none => some b
  | some f => do
    let out ← f.recordBytes sz
    pure ⟨b.fragments.dropLast ++ [out.1], b.size + out.2⟩

/-- The concatenation of the data ranges. -/
def content (m : Mem) (b : Buffer) : List UInt8 := b.fragments.flatMap (Fragment.data m)

end Buffer

def totalSize (fs : List Fragment) : Nat := (fs.map Fragment.size).sum

@[simp] theorem totalSize_nil : totalSize [] = 0 := rfl

@[simp] theorem totalSize_cons (f : Fragment) (fs : List Fragment) :
    totalSize (f :: fs) = f.size + totalSize fs := by
  simp [totalSize]

@[simp] theorem totalSize_append (fs gs : List Fragment) :
    totalSize (fs ++ gs) = totalSize fs + totalSize gs := by
  simp [totalSize]

@[simp] theorem totalSize_reverse (fs : List Fragment) : totalSize fs.reverse = totalSize fs := by
  simp [totalSize]

theorem length_flatMap_data (m : Mem) (fs : List Fragment) :
    (fs.flatMap (Fragment.data m)).length = totalSize fs := by
  induction fs with
  | nil => rfl
  | cons f fs ih => simp [ih]

theorem foldl_sub_size (fs : List Fragment) (n : Nat) :
    fs.foldl (fun left i => left - i.size) n = n - totalSize fs := by
  induction fs generalizing n with
  | nil => simp
  | cons f fs ih =>
    simp only [List.foldl_cons, ih, totalSize_cons]
    omega

theorem skipOffset_append (fs : List Fragment) (offset : Nat) :
    (skipOffset fs offset).1 ++ (skipOffset fs offset).2.1 = fs := by
  induction fs generalizing offset with
  | nil => rfl
  | cons f fs ih =>
    simp only [skipOffset]
    split
    · simp [ih]
    · rfl

theorem skipOffset_offset (fs : List Fragment) (offset : Nat) :
    totalSize (skipOffset fs offset).1 + (skipOffset fs offset).2.2 = offset := by
  induction fs generalizing offset with
  | nil => simp [skipOffset]
  | cons f fs ih =>
    simp only [skipOffset]
    split
    · have := ih (offset - f.size)
      simp only [totalSize_cons]
      omega
    · simp

/-- The iterator stops at the end or strictly inside a fragment. -/
theorem skipOffset_stops {fs : List Fragment} {offset : Nat} {f : Fragment} {rest : List Fragment}
    (h : (skipOffset fs offset).2.1 = f :: rest) : (skipOffset fs offset).2.2 < f.size := by
  induction fs generalizing offset with
  | nil => simp [skipOffset] at h
  | cons g fs ih =>
    simp only [skipOffset] at h ⊢
    split at h
    next hb => simpa only [if_pos hb] using ih h
    next hb =>
      obtain ⟨rfl, _⟩ := List.cons.inj h
      simpa only [if_neg hb] using Nat.lt_of_not_le hb

/-- `fs'` occupies no storage beyond that of `fs`, and without overlap. -/
def Keeps (fs' fs : List Fragment) : Prop :=
  ∀ others, (fs ++ others).Pairwise Fragment.Separate →
    (fs' ++ others).Pairwise Fragment.Separate

theorem separate_perm {fs gs : List Fragment} (h : fs.Perm gs)
    (hs : fs.Pairwise Fragment.Separate) : gs.Pairwise Fragment.Separate :=
  h.pairwise hs (fun h => Fragment.Separate.symm h)

theorem Keeps.refl (fs : List Fragment) : Keeps fs fs := fun _ h => h

theorem Keeps.trans {fs gs ks : List Fragment} (h : Keeps fs gs) (h' : Keeps gs ks) : Keeps fs ks :=
  fun others hs => h others (h' others hs)

theorem Keeps.perm {fs gs : List Fragment} (h : fs.Perm gs) : Keeps fs gs :=
  fun others hs => separate_perm (h.symm.append_right others) hs

theorem Keeps.sublist {fs gs : List Fragment} (h : fs.Sublist gs) : Keeps fs gs :=
  fun others hs => hs.sublist (h.append_right others)

theorem Keeps.append {fs fs' gs gs' : List Fragment} (hf : Keeps fs' fs) (hg : Keeps gs' gs) :
    Keeps (fs' ++ gs') (fs ++ gs) := by
  intro others hs
  have first := hf (gs ++ others) (by simpa using hs)
  have swapped : (gs ++ (fs' ++ others)).Pairwise Fragment.Separate := by
    exact separate_perm (List.perm_append_comm_assoc _ _ _) first
  have both := separate_perm (List.perm_append_comm_assoc _ _ _) (hg (fs' ++ others) swapped)
  simpa using both

theorem Keeps.single {f g : Fragment} (h : g.Within f) : Keeps [g] [f] := by
  intro others hs
  obtain ⟨hf, ho⟩ := List.pairwise_cons.mp hs
  exact List.pairwise_cons.mpr ⟨fun k hk => h.separate (hf k hk), ho⟩

theorem Keeps.map {fs : List Fragment} {φ : Fragment → Fragment}
    (h : ∀ f ∈ fs, (φ f).Within f) : Keeps (fs.map φ) fs := by
  induction fs with
  | nil => exact Keeps.refl []
  | cons f fs ih =>
    exact Keeps.append (Keeps.single (h f (by simp))) (ih fun g hg => h g (by simp [hg]))

/-- Two pieces cut from one fragment. -/
theorem Keeps.pair {f g k : Fragment} (hg : g.Within f) (hk : k.Within f) (hs : g.Separate k) :
    Keeps [k, g] [f] := by
  intro others ho
  obtain ⟨hf, ho⟩ := List.pairwise_cons.mp ho
  refine List.pairwise_cons.mpr ⟨?_, List.pairwise_cons.mpr ⟨fun x hx => hg.separate (hf x hx), ho⟩⟩
  intro x hx
  rcases List.mem_cons.mp hx with rfl | hx
  · exact hs.symm
  · exact hk.separate (hf x hx)

end XiRuntime
