import XiRuntime.Memory

namespace XiRuntime

open ByteStore

/-- An object as it stands in the ring behind its size word: a multiple of the
word size, and not empty. -/
structure Record where
  payload : List UInt8
  aligned : payload.length % 8 = 0
  nonempty : 8 ≤ payload.length
  bounded : payload.length < 2 ^ 63
deriving DecidableEq

/-- The bytes of a `size_t`, lowest first. -/
def wordBytes (n : Nat) : List UInt8 :=
  (List.range 8).map (fun i => UInt8.ofNat (n / 256 ^ i))

def wordOf (bytes : List UInt8) : Nat := bytes.foldr (fun b n => b.toNat + 256 * n) 0

/-- `a - b` in `size_t`. -/
def subWord (a b : Nat) : Nat := (a + 2 ^ 64 - b) % 2 ^ 64

namespace Record

/-- `align_up(sizeof(pod), alignof(void*))`. -/
def size (rec : Record) : Nat := 8 + rec.payload.length

/-- The `pod` that is written. -/
def bytes (rec : Record) : List UInt8 := wordBytes rec.size ++ rec.payload

end Record

/-- `polymorphic_sp_sc_ring_buffer`; the data are a window of the memory that
begins at address 0. -/
structure Ring where
  size : Nat
  reserved : Nat
  writeIdx : Nat
  readIdx : Nat
  data : Memory UInt8

namespace Ring

def marker : Nat := 0xDEADBEEFFACEC0DE

def writeAvailable (writerIdx readerIdx size : Nat) : Nat :=
  let ret := subWord (subWord readerIdx writerIdx) 1
  if writerIdx ≥ readerIdx then (ret + size) % 2 ^ 64 else ret

/-- After a wrap-around `continue` leaves the loop, whose condition is false. -/
def nextReadableBlock (s : Ring) : Ring × Option Nat :=
  if s.readIdx = s.writeIdx then (s, none)
  else
    let size := wordOf (s.data.load s.readIdx 8)
    if marker = size ∨ subWord s.size s.readIdx ≤ 8 then ({ s with readIdx := 0 }, some 0)
    else (s, some s.readIdx)

/-- The end of `do_push`: the record goes to `adjusted`, behind the wrap marker if
there was a wrap-around and there is room to mark it. -/
def commit (s : Ring) (rec : Record) (force : Bool) (adjusted available : Nat) : Bool × Ring :=
  if !force && decide (available - rec.size < s.reserved) then (false, s)
  else
    let data :=
      if adjusted < s.writeIdx ∧ subWord s.size s.writeIdx > 8 then
        s.data.store s.writeIdx (wordBytes marker)
      else s.data
    (true, { s with
      data := data.store adjusted rec.bytes
      writeIdx := (adjusted + rec.size) % 2 ^ 64 })

def doPush (s : Ring) (rec : Record) (force : Bool) : Bool × Ring :=
  let available := writeAvailable s.writeIdx s.readIdx s.size
  if available < rec.size then (false, s)
  else if (s.writeIdx + rec.size) % 2 ^ 64 ≥ s.size then
    let available := writeAvailable 0 s.readIdx s.size
    if available < rec.size then (false, s) else s.commit rec force 0 available
  else s.commit rec force s.writeIdx available

def push (s : Ring) (rec : Record) : Bool × Ring := s.doPush rec false

def pushForced (s : Ring) (rec : Record) : Bool × Ring := s.doPush rec true

/-- The address of the object, behind its size word. -/
def next (s : Ring) : Ring × Option Nat :=
  let (s, block) := s.nextReadableBlock
  (s, block.map (· + 8))

def pop (s : Ring) : Ring :=
  if s.readIdx = s.writeIdx then s
  else
    let size := wordOf (s.data.load s.readIdx 8)
    if marker = size then { s with readIdx := 0 }
    else { s with readIdx := (s.readIdx + size) % 2 ^ 64 }

end Ring

/-- A ring in use; `armed` says that the last call of the consumer was a `next`
that returned an object, and `queue` has the records pushed and not yet popped. -/
structure RingRun where
  ring : Ring
  armed : Bool
  queue : List Record

inductive RingOp
  | push (rec : Record)
  | pushForced (rec : Record)
  | next
  | pop

namespace RingRun

def pushed (s : RingRun) (rec : Record) (out : Bool × Ring) : RingRun :=
  { s with ring := out.2, queue := if out.1 then s.queue ++ [rec] else s.queue }

def step (s : RingRun) : RingOp → Option RingRun
  | .push rec => some (s.pushed rec (s.ring.push rec))
  | .pushForced rec => some (s.pushed rec (s.ring.pushForced rec))
  | .next => some { s with ring := s.ring.next.1, armed := s.ring.next.2.isSome }
  | .pop =>
    if s.armed then some { ring := s.ring.pop, armed := false, queue := s.queue.tail } else none

/-- The constructor; a vector of more than `2 ^ 63 - 1` bytes cannot be made. -/
inductive Reachable : RingRun → Prop
  | start (size reserved : Nat) (data : Memory UInt8) : 1 ≤ size → size < 2 ^ 63 →
      Reachable ⟨⟨size, reserved, 0, 0, data⟩, false, []⟩
  | step {s s' : RingRun} (op : RingOp) : Reachable s → s.step op = some s' → Reachable s'

end RingRun

theorem length_wordBytes (n : Nat) : (wordBytes n).length = 8 := by simp [wordBytes]

theorem wordOf_wordBytes {n : Nat} (h : n < 2 ^ 64) : wordOf (wordBytes n) = n := by
  simp only [wordBytes, wordOf, List.range, List.range.loop, List.map, List.foldr, UInt8.toNat_ofNat']
  omega

namespace Record

theorem length_bytes (rec : Record) : rec.bytes.length = rec.size := by
  simp [bytes, size, length_wordBytes]

theorem size_lt (rec : Record) : rec.size < 2 ^ 64 := by
  have h := rec.bounded
  unfold size
  omega

theorem size_ge (rec : Record) : 16 ≤ rec.size := by
  have h := rec.nonempty
  unfold size
  omega

/-- The marker is not the size of any record. -/
theorem size_ne_marker (rec : Record) : rec.size ≠ Ring.marker := by
  have h := rec.aligned
  unfold size Ring.marker
  omega

end Record

theorem subWord_eq {a b : Nat} (h : b ≤ a) (ha : a < 2 ^ 64) : subWord a b = a - b := by
  unfold subWord
  omega

theorem Ring.writeAvailable_eq {w r size : Nat} (hw : w < size) (hr : r < size)
    (hs : size < 2 ^ 63) :
    writeAvailable w r size = if r ≤ w then size + r - w - 1 else r - w - 1 := by
  simp only [writeAvailable, subWord]
  split
  next h => omega
  next h => omega

end XiRuntime
