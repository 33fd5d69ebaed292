import XiRuntime.BufferContent

namespace XiRuntime

open ByteStore

/-- Buffers and fragments are named by their slot; a slot is emptied when its
owner gives the object up. -/
structure BufferWorld where
  mem : Mem
  buffers : List (Option Buffer)
  loose : List (Option Fragment)

inductive Side
  | front
  | back
deriving DecidableEq, Repr

inductive BufferOp
  | create
  | allocate (address size headroom : Nat)
  | writeFragment (k : Nat) (r : List UInt8)
  | wrap (k : Nat)
  | destroy (i : Nat)
  | pushFragment (side : Side) (i : Nat) (k : Option Nat)
  | pushBuffer (side : Side) (i : Nat) (j : Option Nat)
  | split (i sz : Nat)
  | write (i : Nat) (r : List UInt8)
  | skipBytes (i sz : Nat) (free : Bool)
  | ignoreBytesAtEnd (i sz : Nat) (free : Bool)
  | read (i n offset : Nat)
  | fillTail (i : Nat) (r : List UInt8)
  | reportWritten (i sz : Nat)
deriving DecidableEq, Repr

inductive BufferResult
  | done
  | handle (k : Option Nat)
  | count (n : Nat)
  | bytes (r : List UInt8) (n : Nat)
deriving DecidableEq, Repr

def Buffer.pushFragment : Side → Buffer → Option Fragment → Buffer
  | .front, b, p => b.pushFrontFragment p
  | .back, b, p => b.pushBackFragment p

def Buffer.pushBuffer : Side → Buffer → Option Buffer → Buffer
  | .front, b, p => b.pushFrontBuffer p
  | .back, b, p => b.pushBackBuffer p

namespace BufferWorld

def start (m : Mem) : BufferWorld := ⟨m, [], []⟩

def bufferAt (w : BufferWorld) (i : Nat) : Option Buffer := w.buffers[i]?.join
def looseAt (w : BufferWorld) (k : Nat) : Option Fragment := w.loose[k]?.join

def setBuffer (w : BufferWorld) (i : Nat) (b : Option Buffer) : BufferWorld :=
  { w with buffers := w.buffers.set i b }

/-- Every fragment that still has an owner. -/
def live (w : BufferWorld) : List Fragment :=
  w.buffers.flatMap Buffer.fragmentsOf ++ w.loose.flatMap Option.toList

/-- The allocator hands out addresses that no live blob uses. -/
def Free (w : BufferWorld) (address size : Nat) : Prop :=
  ∀ f ∈ w.live, Apart f.blob.bytes f.blob.size address size

instance (w : BufferWorld) (address size : Nat) : Decidable (w.Free address size) :=
  inferInstanceAs (Decidable (∀ f ∈ w.live, _))

/-- One call. `none` is a call on an object that is not there, a failed
assertion, or the dereference of a null pointer or an end iterator. -/
def exec (w : BufferWorld) : BufferOp → Option (BufferWorld × BufferResult)
  | .create =>
    some ({ w with buffers := w.buffers ++ [some Buffer.new] }, .handle (some w.buffers.length))
  | .allocate address size headroom =>
    if w.Free address size then do
      let (m, f) ← (Fragment.new ⟨address, size⟩).advance w.mem headroom
      some ({ w with mem := m, loose := w.loose ++ [some f] }, .handle (some w.loose.length))
    else none
  | .writeFragment k r => do
    let f ← w.looseAt k
    let (m, f', n) := f.write w.mem r
    some ({ w with mem := m, loose := w.loose.set k (some f') }, .count n)
  | .wrap k => do
    let f ← w.looseAt k
    some ({ w with loose := w.loose.set k none, buffers := w.buffers ++ [some (Buffer.ofFragment f)] },
      .handle (some w.buffers.length))
  | .destroy i => do
    let _ ← w.bufferAt i
    some (w.setBuffer i none, .done)
  | .pushFragment side i none => do
    let b ← w.bufferAt i
    some (w.setBuffer i (some (b.pushFragment side none)), .done)
  | .pushFragment side i (some k) => do
    let f ← w.looseAt k
    let b ← w.bufferAt i
    some ({ w with loose := w.loose.set k none }.setBuffer i (some (b.pushFragment side (some f))), .done)
  | .pushBuffer side i none => do
    let b ← w.bufferAt i
    some (w.setBuffer i (some (b.pushBuffer side none)), .done)
  | .pushBuffer side i (some j) => do
    let p ← w.bufferAt j
    let b ← (w.setBuffer j none).bufferAt i
    some ((w.setBuffer j none).setBuffer i (some (b.pushBuffer side (some p))), .done)
  | .split i sz => do
    let b ← w.bufferAt i
    let (ret, b') ← b.split sz
    match ret with
    | none => some (w.setBuffer i (some b'), .handle none)
    | some r =>
      some ({ w with buffers := w.buffers.set i (some b') ++ [some r] },
        .handle (some w.buffers.length))
  | .write i r => do
    let b ← w.bufferAt i
    let (m, b', n) := b.write w.mem r
    some ({ w with mem := m }.setBuffer i (some b'), .count n)
  | .skipBytes i sz free => do
    let b ← w.bufferAt i
    some (w.setBuffer i (some (b.skipBytes sz free)), .done)
  | .ignoreBytesAtEnd i sz free => do
    let b ← w.bufferAt i
    some (w.setBuffer i (some (b.ignoreBytesAtEnd sz free)), .done)
  | .read i n offset => do
    let b ← w.bufferAt i
    let (r, k) := b.read w.mem n offset
    some (w, .bytes r k)
  | .fillTail i r => do
    -- `readv` into the range that `fill_writable_iovec` names
    let b ← w.bufferAt i
    let f ← b.fragments.getLast?
    if r.length ≤ f.tailroom then some ({ w with mem := w.mem.store f.tail r }, .done) else none
  | .reportWritten i sz => do
    let b ← w.bufferAt i
    let b' ← b.reportWritten sz
    some (w.setBuffer i (some b'), .done)

/-- The worlds reached from nothing by any sequence of calls. -/
inductive Reachable : BufferWorld → Prop
  | start (m : Mem) : Reachable (start m)
  | next {w w' : BufferWorld} {op : BufferOp} {res : BufferResult} :
      Reachable w → w.exec op = some (w', res) → Reachable w'

/-- The tailroom that a write of this call goes to. -/
def room (w : BufferWorld) : BufferOp → Nat
  | .writeFragment k _ => (w.looseAt k).elim 0 Fragment.tailroom
  | .write i _ | .reportWritten i _ => (w.bufferAt i).elim 0 Buffer.tailroom
  | _ => 0

/-- The bytes that stand in the tail range of a buffer. -/
def tailBytes (w : BufferWorld) : BufferOp → List UInt8
  | .reportWritten i _ =>
    match (w.bufferAt i).bind (·.fragments.getLast?) with
    | none => []
    | some f => w.mem.load f.tail f.tailroom
  | _ => []

/-- The objects of the call are there and the assertions on its arguments hold. -/
def Admits (w : BufferWorld) : BufferOp → Prop
  | .create => True
  | .allocate address size headroom => w.Free address size ∧ headroom ≤ size
  | .writeFragment k _ | .wrap k => (w.looseAt k).isSome
  | .pushFragment _ i k => (w.bufferAt i).isSome ∧ ∀ k', k = some k' → (w.looseAt k').isSome
  | .pushBuffer _ i j => (w.bufferAt i).isSome ∧ ∀ j', j = some j' → j' ≠ i ∧ (w.bufferAt j').isSome
  | .split i _ | .write i _ | .skipBytes i _ _ | .ignoreBytesAtEnd i _ _ | .read i _ _ | .destroy i =>
    (w.bufferAt i).isSome
  | .fillTail i r => ∃ b f, w.bufferAt i = some b ∧ b.fragments.getLast? = some f ∧
    r.length ≤ f.tailroom
  | .reportWritten i sz => ∃ b, w.bufferAt i = some b ∧
    ∀ f, b.fragments.getLast? = some f → (sz + f.size) % 2 ^ 64 < 2 ^ 63

structure WellFormed (w : BufferWorld) : Prop where
  valid : ∀ b, some b ∈ w.buffers → b.Valid
  inside : ∀ f, some f ∈ w.loose → f.Inside
  separate : w.live.Pairwise Fragment.Separate

end BufferWorld

/-- What the component is for: named byte strings. -/
structure ByteStrings where
  buffers : List (Option (List UInt8))
  loose : List (Option (List UInt8))

def ByteStrings.setBuffer (s : ByteStrings) (i : Nat) (c : Option (List UInt8)) : ByteStrings :=
  { s with buffers := s.buffers.set i c }

def Side.join : Side → List UInt8 → List UInt8 → List UInt8
  | .front, c, d => d ++ c
  | .back, c, d => c ++ d

def BufferWorld.view (w : BufferWorld) : ByteStrings where
  buffers := w.buffers.map (Option.map (Buffer.content w.mem))
  loose := w.loose.map (Option.map (Fragment.data w.mem))

/-- The effect of a call on the byte strings. `room` is the tailroom of the
fragment that a write goes to and `tail` the bytes that stand there. -/
def ByteStrings.Allows (s : ByteStrings) (room : Nat) (tail : List UInt8) (s' : ByteStrings) :
    BufferOp → BufferResult → Prop
  | .create, res =>
    s' = { s with buffers := s.buffers ++ [some []] } ∧ res = .handle (some s.buffers.length)
  | .allocate _ _ _, res =>
    s' = { s with loose := s.loose ++ [some []] } ∧ res = .handle (some s.loose.length)
  | .writeFragment k r, res => ∃ c, s.loose[k]? = some (some c) ∧
    s' = { s with loose := s.loose.set k (some (c ++ r.take (min r.length room))) } ∧
    res = .count (min r.length room)
  | .wrap k, res => ∃ c, s.loose[k]? = some (some c) ∧ s'.loose = s.loose.set k none ∧
    s'.buffers = s.buffers ++ [some c] ∧ res = .handle (some s.buffers.length)
  | .destroy i, res => ∃ c, s.buffers[i]? = some (some c) ∧
    s' = s.setBuffer i none ∧ res = .done
  | .pushFragment side i k, res => ∃ c d, s.buffers[i]? = some (some c) ∧
    (match k with
      | none => d = [] ∧ s'.loose = s.loose
      | some k => s.loose[k]? = some (some d) ∧ s'.loose = s.loose.set k none) ∧
    s'.buffers = s.buffers.set i (some (side.join c d)) ∧ res = .done
  | .pushBuffer side i j, res => ∃ c d, s.buffers[i]? = some (some c) ∧ s'.loose = s.loose ∧
    (match j with
      | none => d = [] ∧ s'.buffers = s.buffers.set i (some (side.join c d))
      | some j => j ≠ i ∧ s.buffers[j]? = some (some d) ∧
        s'.buffers = (s.buffers.set j none).set i (some (side.join c d))) ∧ res = .done
  | .split i sz, res => ∃ c, s.buffers[i]? = some (some c) ∧ s'.loose = s.loose ∧
    ((res = .handle none ∧ c.take sz = [] ∧ s'.buffers = s.buffers.set i (some (c.drop sz))) ∨
      (res = .handle (some s.buffers.length) ∧
        s'.buffers = s.buffers.set i (some (c.drop sz)) ++ [some (c.take sz)]))
  | .write i r, res => ∃ c, s.buffers[i]? = some (some c) ∧
    s' = s.setBuffer i (some (c ++ r.take (min r.length room))) ∧
    res = .count (min r.length room)
  | .skipBytes i sz _, res => ∃ c, s.buffers[i]? = some (some c) ∧
    s' = s.setBuffer i (some (c.drop sz)) ∧ res = .done
  | .ignoreBytesAtEnd i sz _, res => ∃ c, s.buffers[i]? = some (some c) ∧
    s' = s.setBuffer i (some (c.take (c.length - sz))) ∧ res = .done
  | .read i n offset, res => ∃ c, s.buffers[i]? = some (some c) ∧ s' = s ∧
    res = .bytes ((c.drop offset).take n) (min n (c.length - offset))
  | .fillTail _ _, res => s' = s ∧ res = .done
  | .reportWritten i sz, res => ∃ c, s.buffers[i]? = some (some c) ∧
    s' = s.setBuffer i (some (c ++ tail.take (min sz room))) ∧ res = .done

end XiRuntime
