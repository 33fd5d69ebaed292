import XiRuntime.BufferRefinement
import XiRuntime.DataSocket

namespace XiRuntime

open ByteStore

namespace Buffer

/-- `iovec_adapter::fill_writable_iovec`. -/
def fillWritableIovec (b : Buffer) : Option Iovec :=
  match b.fragments.getLast? with
  | none => none
  | some f => if f.tailroom = 0 then none else some ⟨f.tail, f.tailroom⟩

end Buffer

/-- How the kernel answers a `recvmsg`. -/
inductive RecvReply
  | failed (errno : Nat)
  | gives (n : Nat)
deriving DecidableEq, Repr

namespace DataReader

/-- The first bytes that wait are given, no more than there is room for. -/
def recvmsg (waiting : List UInt8) (v : Iovec) : RecvReply → Except Nat (List UInt8)
  | .failed e => .error e
  | .gives n => .ok (waiting.take (min n (min v.len (2 ^ 31 - 1))))

/-- `read_iov` with one range. No bytes at all mean that the peer has closed. -/
def readIov (waiting : List UInt8) (v : Iovec) (reply : RecvReply) : Except IoError (List UInt8) :=
  match recvmsg waiting v reply with
  | .error e =>
    if e = eagain then .error .retry
    else if (e : Int) = econnreset then .error .eof
    else .error (.errno e)
  | .ok bytes => if bytes.length = 0 then .error .eof else .ok bytes

/-- `data_socket::read`; `none` is a range that was never filled in, or a failed assertion. -/
def read (m : Mem) (waiting : List UInt8) (reply : RecvReply) (b : Buffer) :
    Option (Mem × Buffer × Except IoError (List UInt8)) :=
  if b.tailroom = 0 then some (m, b, .ok [])
  else
    match b.fillWritableIovec with
    | none => none
    | some v =>
      match readIov waiting v reply with
      | .error e => some (m, b, .error e)
      | .ok bytes => (b.reportWritten bytes.length).map (m.store v.base bytes, ·, .ok bytes)

/-- `read_data` between two rounds of its loop. -/
structure Loop where
  buf : Buffer
  loops : Nat
  onIo : Bool
deriving DecidableEq, Repr

/-- What is handed to `defer`. -/
inductive Task
  | readData
  | closing
deriving DecidableEq, Repr

/-- What the next filter is told with `forward_read`. -/
inductive Told
  | data (bytes : List UInt8)
  | error (e : IoError)
deriving DecidableEq, Repr

/-- The reading half of `client_pipe::data_sink` and its handler. `behind` is what the handler
defers when `handle_read` returns, and `taken` the bytes that the kernel gave. -/
structure State where
  mem : Mem
  current : Option Loop
  behind : List Task
  closing : Bool
  deferred : List Task
  expectRead : Bool
  taken : List UInt8
  told : List Told

/-- The end of `read_data`, and of `handle` if there is one around it. -/
def leave (r : State) (b : Buffer) (tasks : List Task) : State :=
  { r with
    current := none
    behind := []
    deferred := r.deferred ++ tasks ++ r.behind
    told := r.told ++ if b.fragments = [] then [] else [.data (b.content r.mem)] }

/-- `read_data` up to the first round. -/
def enter (r : State) (onIo : Bool) : State :=
  if r.closing then leave r Buffer.new [] else { r with current := some ⟨Buffer.new, 0, onIo⟩ }

/-- What a round does with the result of `read_buffer`. -/
def after (r : State) (l : Loop) : Except IoError (List UInt8) → State
  | .error .retry => leave { r with expectRead := true } l.buf []
  | .error .eof => leave r l.buf [.closing]
  | .error e => leave { r with told := r.told ++ [.error e] } l.buf [.closing]
  | .ok _ =>
    if l.loops = 2 && l.onIo then leave r l.buf [.readData]
    else { r with current := some { l with loops := (l.loops + 1) % 2 ^ 8 } }

/-- A round of the loop; `blob` is what `malloc` returns for it. -/
def round (r : State) (l : Loop) (waiting : List UInt8) (blob : ByteBlob) (reply : RecvReply) :
    Option State :=
  match read r.mem waiting reply (l.buf.pushBackFragment (some (Fragment.new blob))) with
  | none => none
  | some (m, b, res) =>
    some (after { r with mem := m, taken := r.taken ++ res.toOption.getD [] } { l with buf := b } res)

inductive Action
  | event (read error close : Bool)
  | task
  | round (blob : ByteBlob) (reply : RecvReply)
  | close
deriving DecidableEq, Repr

/-- One step of the handler's thread, when the peer's kernel has accepted these bytes so far.
Events and tasks wait until `read_data` returns. -/
def step (accepted : List UInt8) (r : State) : Action → Option State
  | .event read error close =>
    if r.current.isSome then some r
    else
      let behind := (if error then [.closing] else []) ++ if close then [.closing] else []
      if read then some (enter { r with behind := behind } true)
      else some { r with deferred := r.deferred ++ behind }
  | .task =>
    if r.current.isSome then some r
    else
      match r.deferred with
      | [] => some r
      | .readData :: rest => some (enter { r with deferred := rest } false)
      | .closing :: rest => some { r with deferred := rest, closing := true }
  | .round blob reply =>
    match r.current with
    | none => some r
    | some l => round r l (accepted.drop r.taken.length) blob reply
  | .close => some { r with deferred := r.deferred ++ [.closing] }

/-- The bytes that the next filter was given. -/
def received (told : List Told) : List UInt8 :=
  told.flatMap fun
    | .data bytes => bytes
    | .error _ => []

/-- The bytes that `read_data` holds back until its loop ends. -/
def pending (r : State) : List UInt8 :=
  match r.current with
  | none => []
  | some l => l.buf.content r.mem

/-- `malloc` returns no memory of a fragment that is in use. -/
def Fresh (r : State) : Action → Prop
  | .round blob _ => ∀ l, r.current = some l → ∀ f ∈ l.buf.fragments,
      Apart f.blob.bytes f.blob.size blob.bytes blob.size
  | _ => True

/-- What was taken is a prefix of what the peer's kernel accepted, and was passed on or waits
to be. -/
structure Sound (accepted : List UInt8) (r : State) : Prop where
  buf : ∀ l, r.current = some l → l.buf.Valid
  taken : r.taken <+: accepted
  whole : received r.told ++ pending r = r.taken

def initial (m : Mem) : State := ⟨m, none, [], false, [], false, [], []⟩

theorem sound_initial (m : Mem) : Sound [] (initial m) := by
  refine ⟨?_, List.nil_prefix, rfl⟩
  intro l h
  cases h

theorem received_append (told more : List Told) :
    received (told ++ more) = received told ++ received more := List.flatMap_append

theorem received_leave (r : State) (b : Buffer) (tasks : List Task) :
    received (leave r b tasks).told = received r.told ++ b.content r.mem := by
  rw [leave, received_append]
  split
  next none' => simp [received, Buffer.content, none']
  next => simp [received]

theorem pushBackNew_spec {b : Buffer} (hb : b.Valid) (blob : ByteBlob) :
    (b.pushBackFragment (some (Fragment.new blob))).Valid ∧
      (b.pushBackFragment (some (Fragment.new blob))).fragments.getLast? =
        some (Fragment.new blob) ∧
      ∀ m, (b.pushBackFragment (some (Fragment.new blob))).content m = b.content m := by
  obtain ⟨valid, -, content⟩ :=
    Buffer.pushBuffer_spec .back hb (Buffer.valid_single (Fragment.new_inside blob))
  rw [← Buffer.pushFragment_eq] at valid
  refine ⟨valid, by simp [Buffer.pushBackFragment], fun m => ?_⟩
  have joined := content m
  rw [← Buffer.pushFragment_eq] at joined
  have none' : Buffer.content m ⟨[Fragment.new blob], (Fragment.new blob).size⟩ = [] := by
    simp [Buffer.content, Fragment.data_of_size_zero (Fragment.new_size blob)]
  rw [none'] at joined
  exact joined.trans (List.append_nil _)

/-- The bytes that `read_iov` returns are the first ones that wait, no more than fit. -/
theorem readIov_spec (waiting : List UInt8) (v : Iovec) (reply : RecvReply) {bytes : List UInt8}
    (h : readIov waiting v reply = .ok bytes) :
    bytes <+: waiting ∧ bytes.length ≤ v.len ∧ bytes.length < 2 ^ 31 ∧ bytes ≠ [] := by
  unfold readIov recvmsg at h
  cases reply with
  | failed e =>
    simp only at h
    split at h
    next => cases h
    next =>
      split at h
      next => cases h
      next => cases h
  | gives n =>
    simp only at h
    split at h
    next => cases h
    next some' =>
      cases h
      refine ⟨List.take_prefix _ _, ?_, ?_, ?_⟩
      · rw [List.length_take]
        omega
      · rw [List.length_take]
        omega
      · intro none'
        rw [none'] at some'
        exact some' rfl

/-- A fragment that was just pushed is read into, and the others keep their bytes. -/
theorem read_spec (m : Mem) (waiting : List UInt8) (reply : RecvReply) {b : Buffer} (hb : b.Valid)
    {blob : ByteBlob} (free : ∀ f ∈ b.fragments, Apart f.blob.bytes f.blob.size blob.bytes blob.size) :
    ∃ m' b' res, read m waiting reply (b.pushBackFragment (some (Fragment.new blob))) =
        some (m', b', res) ∧ b'.Valid ∧ res.toOption.getD [] <+: waiting ∧
      b'.content m' = b.content m ++ res.toOption.getD [] := by
  obtain ⟨valid, last, content⟩ := pushBackNew_spec hb blob
  have inside := Fragment.new_inside blob
  have size := Fragment.new_size blob
  have room : (b.pushBackFragment (some (Fragment.new blob))).tailroom =
      (Fragment.new blob).tailroom := by rw [Buffer.tailroom, last]
  unfold read
  split
  next =>
    refine ⟨m, _, .ok [], rfl, valid, List.nil_prefix, ?_⟩
    rw [content m]
    exact (List.append_nil _).symm
  next more =>
    rw [room] at more
    have filled : (b.pushBackFragment (some (Fragment.new blob))).fillWritableIovec =
        some ⟨(Fragment.new blob).tail, (Fragment.new blob).tailroom⟩ := by
      rw [Buffer.fillWritableIovec, last]
      exact if_neg more
    rw [filled]
    cases result : readIov waiting ⟨(Fragment.new blob).tail, (Fragment.new blob).tailroom⟩ reply with
    | error e =>
      refine ⟨m, _, .error e, by simp only [result], valid, List.nil_prefix, ?_⟩
      rw [content m]
      exact (List.append_nil _).symm
    | ok bytes =>
      obtain ⟨waits, fits, small, -⟩ := readIov_spec waiting _ reply result
      simp only at fits
      have recorded : (b.pushBackFragment (some (Fragment.new blob))).reportWritten bytes.length =
          some ⟨(b.pushBackFragment (some (Fragment.new blob))).fragments.dropLast ++
              [{ Fragment.new blob with size := (Fragment.new blob).size + bytes.length }],
            (b.pushBackFragment (some (Fragment.new blob))).size + bytes.length⟩ := by
        have record : (Fragment.new blob).recordBytes bytes.length =
            some ({ Fragment.new blob with size := (Fragment.new blob).size + bytes.length },
              bytes.length) := by
          rw [Fragment.recordBytes, if_pos (by omega), Nat.min_eq_left fits]
        rw [Buffer.reportWritten, last]
        simp only [record, Option.bind_eq_bind, Option.bind_some]
        rfl
      refine ⟨m.store (Fragment.new blob).tail bytes, _, .ok bytes, by simp only [result, recorded, Option.map_some],
        (Buffer.grow_last valid last fits).1, waits, ?_⟩
      rw [Buffer.content_grow_last _ bytes.length last, load_store_same]
      -- only the tailroom of the new fragment was written to
      have kept : (b.pushBackFragment (some (Fragment.new blob))).content
          (m.store (Fragment.new blob).tail bytes) = b.content m := by
        rw [content]
        refine List.flatMap_congr fun f hf => ?_
        refine Buffer.data_store_tail m inside fits (hb.inside f hf) ?_
        have apart : Fragment.Separate ⟨blob, blob.bytes, 0⟩ f := Apart.symm (free f hf)
        exact (Fragment.maybeRelease_within _).separate apart
      rw [kept]
      rfl

theorem after_spec (r : State) (l : Loop) (res : Except IoError (List UInt8)) :
    (after r l res).mem = r.mem ∧ (after r l res).taken = r.taken ∧
      received (after r l res).told ++ pending (after r l res) = received r.told ++ l.buf.content r.mem ∧
      ∀ l', (after r l res).current = some l' → l'.buf = l.buf := by
  have left : ∀ (s : State) (tasks : List Task), received s.told = received r.told → s.mem = r.mem →
      received (leave s l.buf tasks).told ++ pending (leave s l.buf tasks) =
        received r.told ++ l.buf.content r.mem := by
    intro s tasks told mem
    rw [received_leave, told, mem]
    exact List.append_nil _
  cases res with
  | ok bytes =>
    simp only [after]
    split
    next => exact ⟨rfl, rfl, left r _ rfl rfl, fun l' h => by cases h⟩
    next =>
      refine ⟨rfl, rfl, rfl, ?_⟩
      intro l' h
      cases h
      rfl
  | error e =>
    cases e with
    | retry => exact ⟨rfl, rfl, left _ _ rfl rfl, fun l' h => by cases h⟩
    | eof => exact ⟨rfl, rfl, left _ _ rfl rfl, fun l' h => by cases h⟩
    | errno e =>
      refine ⟨rfl, rfl, left _ _ ?_ rfl, fun l' h => by cases h⟩
      simp [received]

theorem enter_sound {accepted : List UInt8} {r : State} (h : Sound accepted r)
    (idle : r.current = none) (onIo : Bool) : Sound accepted (enter r onIo) := by
  have whole := h.whole
  rw [pending, idle] at whole
  unfold enter
  split
  next =>
    refine ⟨?_, h.taken, ?_⟩
    · intro l hl
      cases hl
    · rw [received_leave]
      exact (List.append_nil _).trans whole
  next =>
    refine ⟨?_, h.taken, whole⟩
    intro l hl
    cases hl
    exact Buffer.valid_new

theorem round_sound {accepted : List UInt8} {r : State} (h : Sound accepted r) {l : Loop}
    (reading : r.current = some l) {blob : ByteBlob} (reply : RecvReply)
    (free : ∀ f ∈ l.buf.fragments, Apart f.blob.bytes f.blob.size blob.bytes blob.size) :
    ∃ r', round r l (accepted.drop r.taken.length) blob reply = some r' ∧ Sound accepted r' := by
  obtain ⟨m, b, res, done, valid, waits, content⟩ :=
    read_spec r.mem (accepted.drop r.taken.length) reply (h.buf l reading) free
  obtain ⟨-, taken, whole, buf⟩ := after_spec
    { r with mem := m, taken := r.taken ++ res.toOption.getD [] } { l with buf := b } res
  refine ⟨_, by rw [round, done], ?_, ?_, ?_⟩
  · intro l' hl'
    rw [buf l' hl']
    exact valid
  · rw [taken]
    have front := List.prefix_iff_eq_take.mp h.taken
    obtain ⟨rest, split⟩ := waits
    refine ⟨rest, ?_⟩
    rw [List.append_assoc, split]
    conv => lhs; lhs; rw [front]
    exact List.take_append_drop _ _
  · have before := h.whole
    rw [pending, reading] at before
    rw [whole, taken]
    simp only
    rw [content, ← List.append_assoc, before]

theorem step_sound {accepted : List UInt8} {r : State} (h : Sound accepted r) {a : Action}
    (fresh : Fresh r a) : ∃ r', step accepted r a = some r' ∧ Sound accepted r' := by
  cases a with
  | event read error close =>
    simp only [step]
    split
    next => exact ⟨r, rfl, h⟩
    next idle =>
      split
      next =>
        refine ⟨_, rfl, enter_sound ?_ (by simpa using idle) true⟩
        exact ⟨h.buf, h.taken, h.whole⟩
      next => exact ⟨_, rfl, h.buf, h.taken, h.whole⟩
  | task =>
    simp only [step]
    split
    next => exact ⟨r, rfl, h⟩
    next idle =>
      split
      next => exact ⟨r, rfl, h⟩
      next =>
        refine ⟨_, rfl, enter_sound ?_ (by simpa using idle) false⟩
        exact ⟨h.buf, h.taken, h.whole⟩
      next => exact ⟨_, rfl, h.buf, h.taken, h.whole⟩
  | round blob reply =>
    cases reading : r.current with
    | none => exact ⟨r, by simp only [step, reading], h⟩
    | some l =>
      obtain ⟨r', done, sound⟩ := round_sound h reading reply (fresh l reading)
      exact ⟨r', by simp only [step, reading, done], sound⟩
  | close => exact ⟨_, rfl, h.buf, h.taken, h.whole⟩

end DataReader

end XiRuntime
