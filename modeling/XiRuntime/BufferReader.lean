import XiRuntime.BufferContent

namespace XiRuntime

/-- `buffer::reader`: the buffer it was made over, as it stands, and `_mark`. -/
structure BufferReader where
  buffer : Buffer
  mark : Nat
deriving DecidableEq, Repr

def Buffer.makeReader (b : Buffer) : BufferReader := ⟨b, 0⟩

namespace BufferReader

/-- `read_value` of a type of `size` bytes. -/
def readValue (m : Mem) (r : BufferReader) (size : Nat) : Option (List UInt8) :=
  if r.mark < r.buffer.size ∧ r.buffer.size - r.mark ≥ size then
    some (r.buffer.read m size r.mark).1
  else none

def readValueAndSkip (m : Mem) (r : BufferReader) (size : Nat) :
    Option (List UInt8) × BufferReader :=
  match r.readValue m size with
  | none => (none, r)
  | some v => (some v, ⟨r.buffer.skipBytes (r.mark + size) true, 0⟩)

def readValueAndMark (m : Mem) (r : BufferReader) (size : Nat) : Option (List UInt8) × BufferReader :=
  match r.readValue m size with
  | none => (none, r)
  | some v => (some v, { r with mark := r.mark + size })

/-- `read_value` into an object of the bytes `value`, with the bytes it has then. -/
def readValueInto (m : Mem) (r : BufferReader) (value : List UInt8) : Bool × List UInt8 :=
  if r.mark < r.buffer.size ∧ r.buffer.size - r.mark ≥ value.length then
    let out := r.buffer.read m value.length r.mark
    (true, out.1 ++ value.drop out.2)
  else (false, value)

def readValueAndMarkInto (m : Mem) (r : BufferReader) (value : List UInt8) :
    (Bool × List UInt8) × BufferReader :=
  let ret := r.readValueInto m value
  (ret, if ret.1 then { r with mark := r.mark + value.length } else r)

def readValueAndSkipInto (m : Mem) (r : BufferReader) (value : List UInt8) :
    (Bool × List UInt8) × BufferReader :=
  let ret := r.readValueInto m value
  (ret, if ret.1 then ⟨r.buffer.skipBytes (r.mark + value.length) true, 0⟩ else r)

def discardToMark (r : BufferReader) : BufferReader := ⟨r.buffer.skipBytes r.mark true, 0⟩

/-- The bytes behind the mark. -/
def unmarked (m : Mem) (r : BufferReader) : List UInt8 := (r.buffer.content m).drop r.mark

theorem length_unmarked {m : Mem} {r : BufferReader} (hv : r.buffer.Valid) :
    (r.unmarked m).length = r.buffer.size - r.mark := by
  rw [unmarked, List.length_drop, hv.length_content]

theorem readValue_some {m : Mem} {r : BufferReader} {size : Nat} (hv : r.buffer.Valid)
    (hpos : 0 < size) (h : size ≤ (r.unmarked m).length) :
    r.readValue m size = some ((r.unmarked m).take size) := by
  rw [length_unmarked hv] at h
  have enough : r.mark < r.buffer.size ∧ r.buffer.size - r.mark ≥ size := ⟨by omega, h⟩
  simp only [readValue, enough, and_self, if_true, Buffer.read_spec hv, unmarked]

theorem readValue_none {m : Mem} {r : BufferReader} {size : Nat} (hv : r.buffer.Valid)
    (h : (r.unmarked m).length < size) : r.readValue m size = none := by
  rw [length_unmarked hv] at h
  have short : ¬ (r.mark < r.buffer.size ∧ r.buffer.size - r.mark ≥ size) := by omega
  simp only [readValue, short, if_false]

/-- The value is taken off the front, with what was marked before it. -/
theorem readValueAndSkip_some {m : Mem} {r : BufferReader} {size : Nat} (hv : r.buffer.Valid)
    (hpos : 0 < size) (h : size ≤ (r.unmarked m).length) :
    ∃ b : Buffer, r.readValueAndSkip m size = (some ((r.unmarked m).take size), b.makeReader) ∧
      b.Valid ∧ b.content m = (r.unmarked m).drop size := by
  obtain ⟨valid, -, content⟩ := Buffer.skipBytes_spec hv (r.mark + size) true
  refine ⟨r.buffer.skipBytes (r.mark + size) true, ?_, valid, ?_⟩
  · simp only [readValueAndSkip, readValue_some hv hpos h, Buffer.makeReader]
  · rw [content, unmarked, List.drop_drop]

theorem readValueAndSkip_none {m : Mem} {r : BufferReader} {size : Nat} (hv : r.buffer.Valid)
    (h : (r.unmarked m).length < size) : r.readValueAndSkip m size = (none, r) := by
  simp only [readValueAndSkip, readValue_none hv h]

theorem readValueInto_some {m : Mem} {r : BufferReader} {value : List UInt8} (hv : r.buffer.Valid)
    (hpos : 0 < value.length) (h : value.length ≤ (r.unmarked m).length) :
    r.readValueInto m value = (true, (r.unmarked m).take value.length) := by
  have whole : min value.length ((r.buffer.content m).length - r.mark) = value.length := by
    rw [unmarked, List.length_drop] at h
    exact Nat.min_eq_left h
  rw [length_unmarked hv] at h
  have enough : r.mark < r.buffer.size ∧ r.buffer.size - r.mark ≥ value.length := ⟨by omega, h⟩
  simp only [readValueInto, enough, and_self, if_true, Buffer.read_spec hv, whole, List.drop_length,
    List.append_nil, unmarked]

theorem readValueInto_none {m : Mem} {r : BufferReader} {value : List UInt8} (hv : r.buffer.Valid)
    (h : (r.unmarked m).length < value.length) : r.readValueInto m value = (false, value) := by
  rw [length_unmarked hv] at h
  have short : ¬ (r.mark < r.buffer.size ∧ r.buffer.size - r.mark ≥ value.length) := by omega
  simp only [readValueInto, short, if_false]

/-- The reader behind the next `size` bytes. -/
def marked (r : BufferReader) (size : Nat) : BufferReader := { r with mark := r.mark + size }

/-- What the overloads of `read_value` give that read the bytes `v` over `value`. -/
structure Reads (m : Mem) (r : BufferReader) (value v : List UInt8) : Prop where
  result : r.readValue m value.length = some v
  into : r.readValueInto m value = (true, v)
  mark : r.readValueAndMark m value.length = (some v, r.marked value.length)
  markInto : r.readValueAndMarkInto m value = ((true, v), r.marked value.length)
  skip : r.readValueAndSkip m value.length = (some v, (r.marked value.length).discardToMark)
  skipInto : r.readValueAndSkipInto m value = ((true, v), (r.marked value.length).discardToMark)

/-- What they give when there are not enough bytes. -/
structure Fails (m : Mem) (r : BufferReader) (value : List UInt8) : Prop where
  result : r.readValue m value.length = none
  into : r.readValueInto m value = (false, value)
  mark : r.readValueAndMark m value.length = (none, r)
  markInto : r.readValueAndMarkInto m value = ((false, value), r)
  skip : r.readValueAndSkip m value.length = (none, r)
  skipInto : r.readValueAndSkipInto m value = ((false, value), r)

theorem reads_of_enough {m : Mem} {r : BufferReader} {value : List UInt8} (hv : r.buffer.Valid)
    (hpos : 0 < value.length) (h : value.length ≤ (r.unmarked m).length) :
    r.Reads m value ((r.unmarked m).take value.length) := by
  have got := readValue_some hv hpos h
  have copied := readValueInto_some hv hpos h
  constructor
  · exact got
  · exact copied
  · simp only [readValueAndMark, got, marked]
  · simp only [readValueAndMarkInto, copied, if_true, marked]
  · simp only [readValueAndSkip, got, marked, discardToMark]
  · simp only [readValueAndSkipInto, copied, if_true, marked, discardToMark]

theorem fails_of_short {m : Mem} {r : BufferReader} {value : List UInt8} (hv : r.buffer.Valid)
    (h : (r.unmarked m).length < value.length) : r.Fails m value := by
  have got := readValue_none hv h
  have copied := readValueInto_none hv h
  constructor
  · exact got
  · exact copied
  · simp only [readValueAndMark, got]
  · simp only [readValueAndMarkInto, copied, Bool.false_eq_true, if_false]
  · simp only [readValueAndSkip, got]
  · simp only [readValueAndSkipInto, copied, Bool.false_eq_true, if_false]

/-- Neither the cuts of the buffer nor the overload matters to what is read, and skipping is
marking and discarding. -/
theorem read_value_overloads_agree (m : Mem) {r : BufferReader} (hv : r.buffer.Valid)
    {value : List UInt8} (hpos : 0 < value.length) :
    (value.length ≤ r.buffer.size - r.mark →
        r.Reads m value (((r.buffer.content m).drop r.mark).take value.length) ∧
          (r.marked value.length).discardToMark.mark = 0 ∧
          (r.marked value.length).discardToMark.buffer.Valid ∧
          (r.marked value.length).discardToMark.buffer.content m =
            (r.buffer.content m).drop (r.mark + value.length)) ∧
      (r.buffer.size - r.mark < value.length → r.Fails m value) := by
  rw [← length_unmarked (m := m) hv]
  constructor
  · intro enough
    obtain ⟨valid, -, content⟩ := Buffer.skipBytes_spec hv (r.mark + value.length) true
    exact ⟨reads_of_enough hv hpos enough, rfl, valid, content m⟩
  · intro short
    exact fails_of_short hv short

/-- The bytes 10, 11, 22 and 33 in pieces, one of them empty. -/
def cut : BufferReader where
  buffer := ⟨[⟨⟨10, 2⟩, 10, 2⟩, ⟨⟨22, 1⟩, 22, 1⟩, ⟨⟨30, 3⟩, 33, 0⟩, ⟨⟨33, 1⟩, 33, 1⟩], 4⟩
  mark := 1

theorem cut_valid : cut.buffer.Valid := by
  refine ⟨rfl, ?_⟩
  simp [cut, Fragment.Inside, Fragment.tail, ByteBlob.stop]

theorem read_value_overloads_agree_cut : cut.mark = 1 ∧ cut.Reads Mem.addresses [0, 0, 0] [11, 22, 33] :=
  ⟨rfl, ((read_value_overloads_agree Mem.addresses cut_valid (by decide)).1 (by decide)).1⟩

@[simp] theorem unmarked_makeReader (m : Mem) (b : Buffer) :
    b.makeReader.unmarked m = b.content m := rfl

@[simp] theorem makeReader_buffer (b : Buffer) : b.makeReader.buffer = b := rfl

end BufferReader

end XiRuntime
