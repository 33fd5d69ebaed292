import XiRuntime.DataSocket
import XiRuntime.BufferRefinement

namespace XiRuntime

open ByteStore

namespace DataSink

/-- `client_pipe::data_sink` with what it tells its pipe. `deferred` counts the tasks that
will call `write_data`, and `closes` the calls of `_pipe->close()`. -/
structure State where
  writeBuf : Buffer
  scheduledWrite : Bool
  closing : Bool
  inlineWrites : Int
  deferred : Nat
  wire : Wire
  expectWrite : Bool
  closes : Nat
  cancelled : Bool
  forwarded : List IoError
deriving DecidableEq, Repr

def initial : State := ⟨Buffer.new, false, false, 0, 0, ⟨0, []⟩, false, 0, false, []⟩

inductive Action
  | write (b : Buffer) (valid : b.Valid)
  | writeData
  | writable
  | closing

/-- 100 MiB. -/
def maxQueued : Nat := 100 <<< 20

/-- `++_inline_writes`, an `i16`. -/
def countInline (s : State) : Int := Int.bmod (s.inlineWrites + 1) (2 ^ 16)

/-- `stream_client_socket::write_buffer`. -/
def writeBuffer (m : Mem) (kernel : Nat → SendReply) (w : Wire) (b : Buffer) :
    Option (Wire × Buffer × Except IoError Int) :=
  DataSocket.write m kernel (b.size + 1) w b

/-- What `write` does with a buffer that is not sent at once. -/
def enqueue (s : State) (b : Buffer) : State :=
  let s := { s with writeBuf := s.writeBuf.pushBackBuffer (some b) }
  if s.writeBuf.size > maxQueued then { s with closes := s.closes + 1 }
  else if !s.closing && !s.scheduledWrite then
    { s with deferred := s.deferred + 1, scheduledWrite := true }
  else s

/-- `write(own<buffer>)`. The counter moves only when no write is scheduled, and the result
of the inline attempt is dropped. -/
def write (m : Mem) (kernel : Nat → SendReply) (s : State) (b : Buffer) : Option State :=
  if s.scheduledWrite then some (enqueue s b)
  else
    let count := countInline s
    let s := { s with inlineWrites := count }
    if count < 1 then
      match writeBuffer m kernel s.wire b with
      | none => none
      | some (w, b, _) =>
        let s := { s with wire := w }
        if b.fragments = [] then some s else some (enqueue s b)
    else some (enqueue s b)

/-- How `write_data` takes the result of the socket. -/
def writeDataResult (s : State) : Except IoError Int → State
  | .ok _ => s
  | .error .retry => { s with expectWrite := true }
  | .error .eof => { s with closes := s.closes + 1 }
  | .error e => { s with closes := s.closes + 1, forwarded := s.forwarded ++ [e] }

def writeData (m : Mem) (kernel : Nat → SendReply) (s : State) : Option State :=
  let s := { s with scheduledWrite := false }
  if !s.closing && s.writeBuf.fragments ≠ [] then
    match writeBuffer m kernel s.wire s.writeBuf with
    | none => none
    | some (w, b, r) =>
      let s := writeDataResult { s with wire := w, writeBuf := b } r
      some { s with inlineWrites := 0 }
  else some { s with inlineWrites := 0 }

/-- `read(kWritable)`. -/
def writable (m : Mem) (kernel : Nat → SendReply) (s : State) : Option State :=
  if s.writeBuf.fragments ≠ [] then
    match writeBuffer m kernel s.wire s.writeBuf with
    | none => none
    | some (w, b, _) =>
      some { s with wire := w, writeBuf := b, expectWrite := decide (b.fragments ≠ []) }
  else some s

/-- A deferred `write_data` runs only when one was deferred. -/
def step (m : Mem) (kernel : Nat → SendReply) (s : State) : Action → Option State
  | .write b _ => write m kernel s b
  | .writeData =>
    if s.deferred = 0 then some s
    else writeData m kernel { s with deferred := s.deferred - 1 }
  | .writable => writable m kernel s
  | .closing => some { s with closing := true, cancelled := true }

def run (m : Mem) (kernel : Nat → SendReply) (acts : List Action) : Option State :=
  acts.foldlM (step m kernel) initial

/-- The bytes passed to `write`, in call order. -/
def passed (m : Mem) (acts : List Action) : List UInt8 :=
  acts.flatMap fun
    | .write b _ => b.content m
    | _ => []

/-- The inline attempt is made while earlier bytes are queued. -/
def Overtakes (s : State) : Action → Prop
  | .write b _ =>
    s.scheduledWrite = false ∧ countInline s < 1 ∧ s.writeBuf.size ≠ 0 ∧ b.size ≠ 0
  | _ => False

def InOrder (m : Mem) (kernel : Nat → SendReply) (acts : List Action) : Prop :=
  ∀ n a s, acts[n]? = some a → run m kernel (acts.take n) = some s → ¬ Overtakes s a

/-- The bytes that left or wait to leave. -/
def stream (m : Mem) (s : State) : List UInt8 := s.wire.accepted ++ s.writeBuf.content m

theorem enqueue_writeBuf (s : State) (b : Buffer) :
    (enqueue s b).writeBuf = s.writeBuf.pushBackBuffer (some b) := by
  unfold enqueue
  simp only
  split
  · rfl
  · split <;> rfl

theorem enqueue_wire (s : State) (b : Buffer) : (enqueue s b).wire = s.wire := by
  unfold enqueue
  simp only
  split
  · rfl
  · split <;> rfl

theorem enqueue_stream (m : Mem) {s : State} {b : Buffer} (hs : s.writeBuf.Valid) (hb : b.Valid) :
    (enqueue s b).writeBuf.Valid ∧ stream m (enqueue s b) = stream m s ++ b.content m := by
  obtain ⟨valid, -, content⟩ := Buffer.pushBuffer_spec .back hs hb
  have joined : (s.writeBuf.pushBackBuffer (some b)).content m =
      s.writeBuf.content m ++ b.content m := content m
  rw [stream, stream, enqueue_writeBuf, enqueue_wire, joined]
  exact ⟨valid, (List.append_assoc _ _ _).symm⟩

theorem writeBuffer_spec (m : Mem) (kernel : Nat → SendReply) {b : Buffer} (hb : b.Valid)
    (w : Wire) :
    ∃ w' b' r, writeBuffer m kernel w b = some (w', b', r) ∧ b'.Valid ∧
      ∃ sent, w'.accepted = w.accepted ++ sent ∧ b.content m = sent ++ b'.content m := by
  obtain ⟨w', b', r, eq, valid, sent, accepted, content, -⟩ :=
    DataSocket.write_spec m kernel hb (Nat.lt_succ_self b.size) w
  exact ⟨w', b', r, eq, valid, sent, accepted, content⟩

/-- A call that does not overtake sends nothing, or has nothing before it. -/
theorem sent_or_queued {m : Mem} {s : State} {b : Buffer} (hs : s.writeBuf.Valid) (hb : b.Valid)
    (idle : s.scheduledWrite = false) (inline : countInline s < 1)
    (ordered : ¬ Overtakes s (.write b hb)) : s.writeBuf.content m = [] ∨ b.content m = [] := by
  by_contra both
  apply ordered
  refine ⟨idle, inline, ?_, ?_⟩
  · intro zero
    exact both (.inl (List.eq_nil_of_length_eq_zero ((hs.length_content m).trans zero)))
  · intro zero
    exact both (.inr (List.eq_nil_of_length_eq_zero ((hb.length_content m).trans zero)))

theorem write_stream (m : Mem) (kernel : Nat → SendReply) {s : State} {b : Buffer}
    (hs : s.writeBuf.Valid) (hb : b.Valid) (ordered : ¬ Overtakes s (.write b hb)) :
    ∃ s', write m kernel s b = some s' ∧ s'.writeBuf.Valid ∧
      stream m s' = stream m s ++ b.content m := by
  unfold write
  split
  next => exact ⟨_, rfl, enqueue_stream m hs hb⟩
  next busy =>
    simp only
    split
    next inline =>
      obtain ⟨w, b', r, eq, valid, sent, accepted, content⟩ := writeBuffer_spec m kernel hb s.wire
      have moved : w.accepted ++ s.writeBuf.content m ++ b'.content m =
          stream m s ++ b.content m := by
        rw [stream, accepted, content]
        rcases sent_or_queued (m := m) hs hb (by simpa using busy) inline ordered with none | none
        · simp [none]
        · rw [content] at none
          simp [List.append_eq_nil_iff.mp none]
      simp only [eq]
      split
      next done =>
        refine ⟨_, rfl, hs, ?_⟩
        rw [← moved]
        simp [stream, Buffer.content, done]
      next =>
        refine ⟨_, rfl, ?_⟩
        rw [← moved]
        exact enqueue_stream m hs valid
    next => exact ⟨_, rfl, enqueue_stream m hs hb⟩

theorem writeDataResult_wire (s : State) (r : Except IoError Int) :
    (writeDataResult s r).wire = s.wire ∧ (writeDataResult s r).writeBuf = s.writeBuf := by
  cases r with
  | ok n => exact ⟨rfl, rfl⟩
  | error e => cases e <;> exact ⟨rfl, rfl⟩

theorem writeData_stream (m : Mem) (kernel : Nat → SendReply) {s : State} (hs : s.writeBuf.Valid) :
    ∃ s', writeData m kernel s = some s' ∧ s'.writeBuf.Valid ∧ stream m s' = stream m s := by
  unfold writeData
  simp only
  split
  next =>
    obtain ⟨w, b, r, eq, valid, sent, accepted, content⟩ := writeBuffer_spec m kernel hs s.wire
    simp only [eq]
    refine ⟨_, rfl, ?_⟩
    simp only [stream, (writeDataResult_wire _ r).1, (writeDataResult_wire _ r).2]
    refine ⟨valid, ?_⟩
    rw [accepted, content, List.append_assoc]
  next => exact ⟨_, rfl, hs, rfl⟩

theorem writable_stream (m : Mem) (kernel : Nat → SendReply) {s : State} (hs : s.writeBuf.Valid) :
    ∃ s', writable m kernel s = some s' ∧ s'.writeBuf.Valid ∧ stream m s' = stream m s := by
  unfold writable
  split
  next =>
    obtain ⟨w, b, r, eq, valid, sent, accepted, content⟩ := writeBuffer_spec m kernel hs s.wire
    simp only [eq]
    refine ⟨_, rfl, valid, ?_⟩
    rw [stream, stream, accepted, content, List.append_assoc]
  next => exact ⟨_, rfl, hs, rfl⟩

/-- Every step returns and adds what is passed to it at the end of the stream. -/
theorem step_stream (m : Mem) (kernel : Nat → SendReply) {s : State} {a : Action}
    (hs : s.writeBuf.Valid) (ordered : ¬ Overtakes s a) :
    ∃ s', step m kernel s a = some s' ∧ s'.writeBuf.Valid ∧
      stream m s' = stream m s ++ passed m [a] := by
  cases a with
  | write b valid =>
    have := write_stream m kernel hs valid ordered
    simpa [step, passed] using this
  | writeData =>
    simp only [step]
    split
    next => exact ⟨s, rfl, hs, by simp [passed]⟩
    next =>
      obtain ⟨s', eq, valid, same⟩ :=
        writeData_stream m kernel (s := { s with deferred := s.deferred - 1 }) hs
      exact ⟨s', eq, valid, by simpa [passed, stream] using same⟩
  | writable =>
    obtain ⟨s', eq, valid, same⟩ := writable_stream m kernel hs
    exact ⟨s', eq, valid, by simpa [passed] using same⟩
  | closing => exact ⟨_, rfl, hs, by simp [passed, stream]⟩

theorem run_snoc (m : Mem) (kernel : Nat → SendReply) (acts : List Action) (a : Action) :
    run m kernel (acts ++ [a]) = (run m kernel acts).bind (step m kernel · a) := by
  simp [run, List.foldlM_append]

theorem enqueue_inlineWrites (s : State) (b : Buffer) :
    (enqueue s b).inlineWrites = s.inlineWrites := by
  unfold enqueue
  simp only
  split
  · rfl
  · split <;> rfl

/-- Below the limit of an `i16` the counter of a call is the next number. -/
theorem countInline_eq {s : State} (low : 0 ≤ s.inlineWrites) (high : s.inlineWrites < 32767) :
    countInline s = s.inlineWrites + 1 := by
  unfold countInline
  apply Int.bmod_eq_of_le <;> omega

theorem step_inlineWrites {m : Mem} {kernel : Nat → SendReply} {s s' : State} {a : Action}
    (low : 0 ≤ s.inlineWrites) (high : s.inlineWrites < 32767) (h : step m kernel s a = some s') :
    0 ≤ s'.inlineWrites ∧ s'.inlineWrites ≤ s.inlineWrites + 1 := by
  cases a with
  | write b valid =>
    simp only [step, write, countInline_eq low high] at h
    split at h
    next =>
      cases h
      rw [enqueue_inlineWrites]
      omega
    next =>
      rw [if_neg (by omega)] at h
      cases h
      rw [enqueue_inlineWrites]
      exact ⟨by simp only; omega, by simp⟩
  | writeData =>
    simp only [step, writeData] at h
    split at h
    next =>
      cases h
      omega
    next =>
      have zero : s'.inlineWrites = 0 := by
        split at h
        next =>
          split at h
          · cases h
          · cases h
            rfl
        next =>
          cases h
          rfl
      omega
  | writable =>
    have same : s'.inlineWrites = s.inlineWrites := by
      simp only [step, writable] at h
      split at h
      next =>
        split at h
        · cases h
        · cases h
          rfl
      next =>
        cases h
        rfl
    omega
  | closing =>
    cases h
    simp only
    omega

/-- It takes a run as long as the counter's range to overtake. -/
theorem inOrder_of_length (m : Mem) (kernel : Nat → SendReply) {acts : List Action}
    (short : acts.length ≤ 32767) : InOrder m kernel acts := by
  have counter : ∀ n s, n ≤ acts.length → run m kernel (acts.take n) = some s →
      0 ≤ s.inlineWrites ∧ s.inlineWrites ≤ n := by
    intro n
    induction n with
    | zero =>
      intro s _ h
      cases h
      exact ⟨Int.le_refl 0, Int.le_refl 0⟩
    | succ n ih =>
      intro s bound h
      have ha : acts[n]? = some (acts.get ⟨n, by omega⟩) := List.getElem?_eq_getElem _
      rw [List.take_add_one, ha, Option.toList_some, run_snoc] at h
      obtain ⟨t, reached, h⟩ := Option.bind_eq_some_iff.mp h
      obtain ⟨low, high⟩ := ih t (by omega) reached
      have := step_inlineWrites low (by omega) h
      omega
  intro n a s ha reached overtakes
  have bound := (List.getElem?_eq_some_iff.mp ha).1
  obtain ⟨low, high⟩ := counter n s (by omega) reached
  cases a with
  | write b valid =>
    have next := overtakes.2.1
    rw [countInline_eq low (by omega)] at next
    omega
  | writeData => exact overtakes
  | writable => exact overtakes
  | closing => exact overtakes

/-- As long as no call overtakes queued bytes, the stream is what was passed, at every
moment of the run. -/
theorem data_sink_keeps_order (m : Mem) (kernel : Nat → SendReply) {acts : List Action}
    (ordered : InOrder m kernel acts) (n : Nat) :
    ∃ s, run m kernel (acts.take n) = some s ∧ s.writeBuf.Valid ∧
      s.wire.accepted ++ s.writeBuf.content m = passed m (acts.take n) := by
  induction n with
  | zero => exact ⟨initial, rfl, Buffer.valid_new, rfl⟩
  | succ n ih =>
    obtain ⟨s, reached, valid, whole⟩ := ih
    cases ha : acts[n]? with
    | none =>
      rw [List.take_add_one, ha, Option.toList_none, List.append_nil]
      exact ⟨s, reached, valid, whole⟩
    | some a =>
      obtain ⟨s', eq, valid', grown⟩ := step_stream m kernel valid (ordered n a s ha reached)
      rw [List.take_add_one, ha, Option.toList_some, run_snoc, reached, Option.bind_some]
      refine ⟨s', eq, valid', ?_⟩
      rw [stream, stream, whole] at grown
      rw [grown, passed, passed, passed, List.flatMap_append]

/-- A write is cut short, another one waits behind it, and both leave in order. -/
theorem data_sink_keeps_order_of_two :
    ∃ s, run Mem.addresses (fun call => if call = 0 then .accepts 3 else .accepts 9)
        [.write DataSocket.fiveBytes DataSocket.fiveBytes_valid, .writeData,
          .write DataSocket.fiveBytes DataSocket.fiveBytes_valid, .writable] = some s ∧
      s.wire.accepted ++ s.writeBuf.content Mem.addresses = [0, 1, 16, 17, 18, 0, 1, 16, 17, 18] := by
  have ordered : InOrder Mem.addresses (fun call => if call = 0 then .accepts 3 else .accepts 9)
      [.write DataSocket.fiveBytes DataSocket.fiveBytes_valid, .writeData,
        .write DataSocket.fiveBytes DataSocket.fiveBytes_valid, .writable] :=
    inOrder_of_length _ _ (by simp)
  obtain ⟨s, reached, -, whole⟩ := data_sink_keeps_order _ _ ordered 4
  exact ⟨s, reached, whole⟩

/-- One byte in a blob of its own. -/
def oneByte (i : Nat) : Buffer := ⟨[⟨⟨i, 1⟩, i, 1⟩], 1⟩

theorem oneByte_valid (i : Nat) : (oneByte i).Valid := by
  refine ⟨rfl, ?_⟩
  simp [oneByte, Fragment.Inside, Fragment.tail, ByteBlob.stop]

/-- Once the pipe is closing a queued buffer schedules nothing, so the counter goes on. -/
theorem write_closing (m : Mem) (kernel : Nat → SendReply) {s : State} {b : Buffer}
    (idle : s.scheduledWrite = false) (closing : s.closing = true) (count : ¬ countInline s < 1)
    (room : ¬ s.writeBuf.size + b.size > maxQueued) :
    write m kernel s b = some { s with
      inlineWrites := countInline s, writeBuf := s.writeBuf.pushBackBuffer (some b) } := by
  have size : (s.writeBuf.pushBackBuffer (some b)).size = s.writeBuf.size + b.size := rfl
  simp only [write, idle, Bool.false_eq_true, if_false, count, enqueue, size, room, closing,
    Bool.not_true, Bool.false_and]

/-- The sink after `kClosing` and `k` calls. -/
def closingAfter (k : Nat) : State :=
  { initial with
    writeBuf := ⟨List.replicate k ⟨⟨0, 1⟩, 0, 1⟩, k⟩, closing := true, cancelled := true,
    inlineWrites := k }

def closingWrites (k : Nat) : List Action :=
  .closing :: List.replicate k (.write (oneByte 0) (oneByte_valid 0))

theorem run_closingWrites (m : Mem) (kernel : Nat → SendReply) {k : Nat} (hk : k ≤ 32767) :
    run m kernel (closingWrites k) = some (closingAfter k) := by
  induction k with
  | zero => rfl
  | succ k ih =>
    have high : (closingAfter k).inlineWrites < 32767 := show (k : Int) < 32767 by omega
    have next : countInline (closingAfter k) = k + 1 := countInline_eq (Int.natCast_nonneg k) high
    have room : ¬ (closingAfter k).writeBuf.size + (oneByte 0).size > maxQueued := by
      simp only [closingAfter, oneByte, maxQueued, Nat.shiftLeft_eq]
      omega
    rw [closingWrites, List.replicate_succ', ← List.cons_append, run_snoc]
    rw [closingWrites] at ih
    rw [ih (by omega), Option.bind_some, step,
      write_closing m kernel rfl rfl (by rw [next]; omega) room, next]
    simp [closingAfter, Buffer.pushBackBuffer, oneByte, List.replicate_succ']

/-- The counter has wrapped, and the byte is sent past the queue. -/
theorem write_wrapped {s : State} (idle : s.scheduledWrite = false)
    (inline : countInline s < 1) (fresh : s.wire = ⟨0, []⟩) :
    write Mem.addresses (fun _ => .accepts 1) s (oneByte 1) =
      some { s with inlineWrites := countInline s, wire := ⟨1, [1]⟩ } := by
  have sent : writeBuffer Mem.addresses (fun _ => .accepts 1) ⟨0, []⟩ (oneByte 1) =
      some (⟨1, [1]⟩, ⟨[], 0⟩, .ok 1) := by decide +kernel
  simp only [write, idle, Bool.false_eq_true, if_false, inline, if_true, fresh, sent]

/-- The first bytes passed wait in the queue when the last one is on the wire. -/
theorem data_sink_overtakes :
    ∃ s, run Mem.addresses (fun _ => .accepts 1)
        (closingWrites 32767 ++ [.write (oneByte 1) (oneByte_valid 1)]) = some s ∧
      s.wire.accepted ++ s.writeBuf.content Mem.addresses ≠
        passed Mem.addresses (closingWrites 32767 ++ [.write (oneByte 1) (oneByte_valid 1)]) := by
  have wrapped : countInline (closingAfter 32767) < 1 := by decide
  refine ⟨{ closingAfter 32767 with
    inlineWrites := countInline (closingAfter 32767), wire := ⟨1, [1]⟩ }, ?_, ?_⟩
  · rw [run_snoc, run_closingWrites _ _ (Nat.le_refl _), Option.bind_some, step]
    exact write_wrapped rfl wrapped rfl
  · intro same
    have first := congrArg List.head? same
    rw [passed, List.flatMap_append, closingWrites, List.flatMap_cons,
      List.replicate_succ, List.flatMap_cons] at first
    revert first
    decide

end DataSink

end XiRuntime
