import XiRuntime.DataReader
import XiRuntime.DataSink
import XiRuntime.Runs

namespace XiRuntime

open ByteStore

namespace DataSink

theorem writeBuffer_accepted {m : Mem} {kernel : Nat → SendReply} {b b' : Buffer} {w w' : Wire}
    {r : Except IoError Int} (hb : b.Valid) (h : writeBuffer m kernel w b = some (w', b', r)) :
    w.accepted <+: w'.accepted := by
  obtain ⟨w₁, b₁, r₁, eq, -, sent, accepted, -⟩ := writeBuffer_spec m kernel hb w
  rw [h] at eq
  cases eq
  exact ⟨sent, accepted.symm⟩

/-- What the kernel has accepted stays accepted. -/
theorem step_accepted {m : Mem} {kernel : Nat → SendReply} {s s' : State} {a : Action}
    (hs : s.writeBuf.Valid) (h : step m kernel s a = some s') :
    s.wire.accepted <+: s'.wire.accepted := by
  cases a with
  | write b valid =>
    simp only [step, write] at h
    split at h
    next =>
      cases h
      exact ⟨[], by rw [List.append_nil, enqueue_wire]⟩
    next =>
      split at h
      next =>
        split at h
        next => cases h
        next w b' r sent =>
          have more := writeBuffer_accepted valid sent
          split at h
          next =>
            cases h
            exact more
          next =>
            cases h
            rw [enqueue_wire]
            exact more
      next =>
        cases h
        exact ⟨[], by rw [List.append_nil, enqueue_wire]⟩
  | writeData =>
    simp only [step, writeData] at h
    split at h
    next =>
      cases h
      exact List.prefix_rfl
    next =>
      split at h
      next =>
        split at h
        next => cases h
        next w b' r sent =>
          cases h
          simp only [(writeDataResult_wire _ r).1]
          exact writeBuffer_accepted hs sent
      next =>
        cases h
        exact List.prefix_rfl
  | writable =>
    simp only [step, writable] at h
    split at h
    next =>
      split at h
      next => cases h
      next w b' r sent =>
        cases h
        exact writeBuffer_accepted hs sent
    next =>
      cases h
      exact List.prefix_rfl
  | closing =>
    cases h
    exact List.prefix_rfl

end DataSink

/-- The two ends of a connection: one pipe's writing half and the other one's reading half.
Of the bytes that the writing side's kernel accepted the first `arrived` have reached the
reading side's; `finished` is set when the writing side has closed its descriptor. -/
structure StreamTransport where
  sender : DataSink.State
  reader : DataReader.State
  arrived : Nat
  finished : Bool

namespace StreamTransport

inductive Action
  | send (a : DataSink.Action)
  | arrive (n : Nat)
  | receive (a : DataReader.Action)
  | finish

def initial (m : Mem) : StreamTransport := ⟨DataSink.initial, DataReader.initial m, 0, false⟩

def arrivedBytes (t : StreamTransport) : List UInt8 := t.sender.wire.accepted.take t.arrived

/-- The halves share nothing but the bytes that one kernel accepts and the other one gives;
`m` and `kernel` are the writing side's. -/
def step (m : Mem) (kernel : Nat → SendReply) (t : StreamTransport) : Action → Option StreamTransport
  | .send a => (DataSink.step m kernel t.sender a).map ({ t with sender := · })
  | .arrive n => some { t with arrived := min (t.arrived + n) t.sender.wire.accepted.length }
  | .receive a => (DataReader.step t.arrivedBytes t.reader a).map ({ t with reader := · })
  | .finish => some { t with finished := true }

def run (m : Mem) (kernel : Nat → SendReply) (m' : Mem) (acts : List Action) :
    Option StreamTransport :=
  acts.foldlM (step m kernel) (initial m')

/-- The bytes passed to `write` on the one side. -/
def written (m : Mem) (acts : List Action) : List UInt8 :=
  acts.flatMap fun
    | .send a => DataSink.passed m [a]
    | _ => []

/-- The bytes on the way: in transit, or arrived and not yet read. -/
def inFlight (t : StreamTransport) : List UInt8 :=
  t.sender.wire.accepted.drop t.reader.taken.length

/-- The bytes that `recvmsg` can give. -/
def waiting (t : StreamTransport) : List UInt8 := t.arrivedBytes.drop t.reader.taken.length

def Admits (t : StreamTransport) : Action → Prop
  | .send a => t.finished = false ∧ ¬ DataSink.Overtakes t.sender a
  | .arrive _ => True
  | .receive a => DataReader.Fresh t.reader a
  | .finish => True

def Admitted (m : Mem) (kernel : Nat → SendReply) (m' : Mem) (acts : List Action) : Prop :=
  ∀ n a t, acts[n]? = some a → run m kernel m' (acts.take n) = some t → t.Admits a

structure Sound (m : Mem) (t : StreamTransport) (sent : List UInt8) : Prop where
  writeBuf : t.sender.writeBuf.Valid
  stream : DataSink.stream m t.sender = sent
  arrived : t.arrived ≤ t.sender.wire.accepted.length
  reader : DataReader.Sound t.arrivedBytes t.reader

/-- More bytes do not change those that were read. -/
theorem sound_of_prefix {accepted more : List UInt8} {r : DataReader.State}
    (h : DataReader.Sound accepted r) (grown : accepted <+: more) : DataReader.Sound more r :=
  ⟨h.buf, h.taken.trans grown, h.whole⟩

theorem Sound.step {m : Mem} {kernel : Nat → SendReply} {t : StreamTransport} {sent : List UInt8}
    (h : Sound m t sent) {a : Action} (admits : t.Admits a) :
    ∃ t', step m kernel t a = some t' ∧ Sound m t' (sent ++ written m [a]) := by
  cases a with
  | send a =>
    obtain ⟨s, done, valid, grown⟩ := DataSink.step_stream m kernel h.writeBuf admits.2
    obtain ⟨more, accepted⟩ := DataSink.step_accepted h.writeBuf done
    have longer := congrArg List.length accepted
    rw [List.length_append] at longer
    refine ⟨{ t with sender := s }, by rw [StreamTransport.step, done]; rfl, valid, ?_, ?_, ?_⟩
    · rw [grown, h.stream]
      simp [written]
    · exact h.arrived.trans (by simp only; omega)
    · have same : t.arrivedBytes = s.wire.accepted.take t.arrived := by
        rw [arrivedBytes, ← accepted, List.take_append_of_le_length h.arrived]
      exact sound_of_prefix h.reader (same ▸ List.prefix_rfl)
  | arrive n =>
    refine ⟨_, rfl, h.writeBuf, ?_, Nat.min_le_right _ _, sound_of_prefix h.reader ?_⟩
    · rw [h.stream]
      simp [written]
    · exact List.take_prefix_take_left (le_min (Nat.le_add_right _ _) h.arrived)
  | receive a =>
    obtain ⟨r, done, sound⟩ := DataReader.step_sound h.reader admits
    refine ⟨{ t with reader := r }, by rw [StreamTransport.step, done]; rfl, h.writeBuf, ?_,
      h.arrived, sound⟩
    rw [h.stream]
    simp [written]
  | finish =>
    refine ⟨_, rfl, h.writeBuf, ?_, h.arrived, h.reader⟩
    rw [h.stream]
    simp [written]

theorem run_sound {m : Mem} {kernel : Nat → SendReply} {m' : Mem} {acts : List Action}
    (admitted : Admitted m kernel m' acts) (n : Nat) :
    ∃ t, run m kernel m' (acts.take n) = some t ∧ Sound m t (written m (acts.take n)) := by
  induction n with
  | zero =>
    exact ⟨initial m', rfl, Buffer.valid_new, rfl, Nat.zero_le _, DataReader.sound_initial m'⟩
  | succ n ih =>
    obtain ⟨t, reached, sound⟩ := ih
    cases ha : acts[n]? with
    | none =>
      rw [List.take_add_one, ha, Option.toList_none, List.append_nil]
      exact ⟨t, reached, sound⟩
    | some a =>
      obtain ⟨t', done, sound'⟩ : ∃ t', step m kernel t a = some t' ∧
          Sound m t' (written m (acts.take n) ++ written m [a]) :=
        sound.step (admitted n a t ha reached)
      refine ⟨t', ?_, ?_⟩
      · rw [run, Runs.partial_take_succ ha]
        rw [run] at reached
        rw [reached, Option.bind_some, done]
      · rw [List.take_add_one, ha, Option.toList_some, written, List.flatMap_append]
        exact sound'

/-- What one side is given and what is still on its way is what the other side wrote, in
order, at every moment of a run. -/
theorem stream_arrives_as_written (m : Mem) (kernel : Nat → SendReply) (m' : Mem)
    (acts : List Action) (admitted : Admitted m kernel m' acts) (n : Nat) :
    ∃ t, run m kernel m' (acts.take n) = some t ∧
      DataReader.received t.reader.told ++ DataReader.pending t.reader ++ t.inFlight ++
        t.sender.writeBuf.content m = written m (acts.take n) := by
  obtain ⟨t, reached, sound⟩ := run_sound admitted n
  refine ⟨t, reached, ?_⟩
  rw [sound.reader.whole, inFlight, ← sound.stream, DataSink.stream]
  have front := List.prefix_iff_eq_take.mp (sound.reader.taken.trans (List.take_prefix _ _))
  conv => lhs; lhs; lhs; rw [front]
  rw [List.take_append_drop]

/-- Five bytes of which two arrive first, and the end of the stream behind the others. -/
def fiveBytesAndEnd : List Action :=
  [.send (.write DataSocket.fiveBytes DataSocket.fiveBytes_valid), .send .writeData, .arrive 2,
    .receive (.event true false false), .receive (.round ⟨100, 8⟩ (.gives 9)),
    .receive (.round ⟨200, 8⟩ (.failed eagain)), .finish, .arrive 3,
    .receive (.event true false true), .receive (.round ⟨300, 8⟩ (.gives 9)),
    .receive (.round ⟨400, 8⟩ (.gives 1)), .receive .task]

def runFive (n : Nat) : Option StreamTransport :=
  run Mem.addresses (fun _ => .accepts 9) Mem.addresses (fiveBytesAndEnd.take n)

/-- What an event or a round of reading finds: the loop, the bytes waiting, and whether the
writing side has closed with all its bytes arrived. -/
def found (t : StreamTransport) : Option DataReader.Loop × List UInt8 × Bool :=
  (t.reader.current, t.waiting,
    t.finished && decide (t.arrived = t.sender.wire.accepted.length))

theorem runFive_first : (runFive 4).map found =
    some (some ⟨Buffer.new, 0, true⟩, [0, 1], false) := by decide +kernel

theorem runFive_again : (runFive 5).map found =
    some (some ⟨⟨[⟨⟨100, 8⟩, 100, 2⟩], 2⟩, 1, true⟩, [], false) := by decide +kernel

theorem runFive_hangup : (runFive 8).map found = some (none, [16, 17, 18], true) := by
  decide +kernel

theorem runFive_second : (runFive 9).map found =
    some (some ⟨Buffer.new, 0, true⟩, [16, 17, 18], true) := by decide +kernel

theorem runFive_last : (runFive 10).map found =
    some (some ⟨⟨[⟨⟨300, 8⟩, 300, 3⟩], 3⟩, 1, true⟩, [], true) := by decide +kernel

theorem found_of_run {n : Nat} {t : StreamTransport} (reached : runFive n = some t)
    {x : Option DataReader.Loop × List UInt8 × Bool} (h : (runFive n).map found = some x) :
    found t = x := by
  rw [reached] at h
  exact Option.some.inj h

theorem fresh_of_found {t : StreamTransport} {l : DataReader.Loop} {x : List UInt8 × Bool}
    (h : found t = (some l, x)) {blob : ByteBlob} {reply : RecvReply}
    (apart : ∀ f ∈ l.buf.fragments, Apart f.blob.bytes f.blob.size blob.bytes blob.size) :
    t.Admits (.receive (.round blob reply)) := by
  intro l' reading
  have current : t.reader.current = some l := congrArg Prod.fst h
  rw [current] at reading
  cases reading
  exact apart

theorem admitted_fiveBytesAndEnd :
    Admitted Mem.addresses (fun _ => .accepts 9) Mem.addresses fiveBytesAndEnd := by
  intro n a t ha reached
  match n, ha with
  | 0, ha =>
    cases ha
    cases reached
    refine ⟨rfl, ?_⟩
    rintro ⟨-, -, none', -⟩
    exact none' rfl
  | 1, ha =>
    cases ha
    have open' : (runFive 1).map StreamTransport.finished = some false := by decide +kernel
    rw [runFive, reached] at open'
    exact ⟨Option.some.inj open', fun overtakes => overtakes⟩
  | 2, ha | 3, ha | 6, ha | 7, ha | 8, ha | 11, ha =>
    cases ha
    trivial
  | 4, ha =>
    cases ha
    exact fresh_of_found (found_of_run reached runFive_first) (by simp [Buffer.new])
  | 5, ha =>
    cases ha
    exact fresh_of_found (found_of_run reached runFive_again) (by decide)
  | 9, ha =>
    cases ha
    exact fresh_of_found (found_of_run reached runFive_second) (by simp [Buffer.new])
  | 10, ha =>
    cases ha
    exact fresh_of_found (found_of_run reached runFive_last) (by decide)

theorem stream_arrives_of_five :
    ∃ t, runFive 12 = some t ∧
      DataReader.received t.reader.told ++ DataReader.pending t.reader ++ t.inFlight ++
        t.sender.writeBuf.content Mem.addresses = [0, 1, 16, 17, 18] := by
  obtain ⟨t, reached, whole⟩ := stream_arrives_as_written _ _ _ _ admitted_fiveBytesAndEnd 12
  exact ⟨t, reached, whole⟩

/-- The writing side has closed, and the end of the stream has arrived behind all its bytes. -/
def Ended (t : StreamTransport) : Prop :=
  t.finished = true ∧ t.arrived = t.sender.wire.accepted.length

theorem ended_of_found {t : StreamTransport} {l : Option DataReader.Loop} {bytes : List UInt8}
    (h : found t = (l, bytes, true)) : t.Ended := by
  have ended : (t.finished && decide (t.arrived = t.sender.wire.accepted.length)) = true :=
    congrArg (fun x => x.2.2) h
  simpa [Ended] using ended

/-- A connection that is neither reset nor closed by the reading side. Its kernel reports
`EAGAIN` only when no byte that has arrived waits, which says nothing of bytes in transit. A
`recvmsg` without bytes, and `EPOLLRDHUP`, which comes with `EPOLLIN`, say that the stream has
ended; the first only when no byte waits. -/
def Orderly (t : StreamTransport) : Action → Prop
  | .receive (.event read error close) => error = false ∧ (close = true → read = true ∧ t.Ended)
  | .receive (.round _ (.failed e)) => e = eagain ∧ t.waiting = []
  | .receive (.round _ (.gives n)) => (t.waiting ≠ [] → 0 < n) ∧ (t.waiting = [] → t.Ended)
  | .receive .close => False
  | _ => True

/-- The deferred call of `read_data` that comes before the pipe is closed. -/
def ReadsFirst (deferred : List DataReader.Task) : Prop :=
  .readData ∈ deferred.takeWhile (· ≠ .closing)

/-- The pipe is closed only behind the last byte. -/
structure Drains (t : StreamTransport) : Prop where
  ended : (t.reader.closing = true ∨ .closing ∈ t.reader.deferred ∨ t.reader.behind ≠ []) →
    t.Ended
  queued : .closing ∈ t.reader.deferred →
    t.waiting = [] ∨ ReadsFirst t.reader.deferred ∨
      ∃ l, t.reader.current = some l ∧ l.onIo = false
  closed : t.reader.closing = true → t.waiting = [] ∧ t.reader.current = none
  behind : t.reader.current = none → t.reader.behind = []

theorem readsFirst_append {queue more : List DataReader.Task} (h : ReadsFirst queue) :
    ReadsFirst (queue ++ more) := by
  unfold ReadsFirst at *
  rw [List.takeWhile_append]
  split
  next => exact List.mem_append_left _ ((List.takeWhile_sublist _).subset h)
  next => exact h

theorem readsFirst_readData {queue more : List DataReader.Task} (h : .closing ∉ queue) :
    ReadsFirst (queue ++ .readData :: more) := by
  unfold ReadsFirst
  have all : ∀ x ∈ queue, decide (x ≠ .closing) = true := by
    intro x hx
    rw [decide_eq_true_eq]
    exact ne_of_mem_of_not_mem hx h
  rw [List.takeWhile_append_of_pos all]
  simp

theorem not_readsFirst_closing (rest : List DataReader.Task) : ¬ ReadsFirst (.closing :: rest) := by
  simp [ReadsFirst]

/-- Only when no byte waits does an error end the loop of `read_data`. -/
theorem Orderly.error {t : StreamTransport} {blob : ByteBlob} {reply : RecvReply}
    (orderly : t.Orderly (.receive (.round blob reply))) {m m' : Mem} {b b' : Buffer} {e : IoError}
    (h : DataReader.read m t.waiting reply b = some (m', b', .error e)) :
    t.waiting = [] ∧ (e = .retry ∨ (e = .eof ∧ t.Ended)) := by
  unfold DataReader.read at h
  split at h
  next => cases h
  next =>
    split at h
    next => cases h
    next v filled =>
      have room : 0 < v.len := by
        unfold Buffer.fillWritableIovec at filled
        split at filled
        next => cases filled
        next f _ =>
          split at filled
          next => cases filled
          next some' =>
            cases filled
            exact Nat.pos_of_ne_zero some'
      split at h
      next failed =>
        cases h
        unfold DataReader.readIov DataReader.recvmsg at failed
        cases reply with
        | failed code =>
          obtain ⟨again, none'⟩ := orderly
          simp only [again, if_true] at failed
          cases failed
          exact ⟨none', Or.inl rfl⟩
        | gives n =>
          obtain ⟨given, last⟩ := orderly
          simp only at failed
          split at failed
          next short =>
            cases failed
            have none' : t.waiting = [] := by
              by_contra waits
              have some' := given waits
              have long := List.length_pos_of_ne_nil waits
              rw [List.length_take] at short
              omega
            exact ⟨none', Or.inr ⟨rfl, last none'⟩⟩
          next => cases failed
      next =>
        obtain ⟨b'', -, eq⟩ := Option.map_eq_some_iff.mp h
        cases eq

theorem drains_initial (m : Mem) : Drains (initial m) := by
  constructor <;> simp [initial, DataReader.initial]

theorem Drains.send {t : StreamTransport} (h : Drains t) (open' : t.finished = false)
    (s : DataSink.State) : Drains { t with sender := s } := by
  have never : ∀ {p : Prop}, p → (p → t.Ended) → False := by
    intro p hp imp
    rw [(imp hp).1] at open'
    cases open'
  refine ⟨fun asked => (never asked h.ended).elim, fun queued => ?_, fun closed => ?_, h.behind⟩
  · exact (never (Or.inr (Or.inl queued)) h.ended).elim
  · exact (never (Or.inl closed) h.ended).elim

/-- Nothing arrives behind the end of the stream. -/
theorem Drains.arrive {t : StreamTransport} (h : Drains t) (n : Nat) :
    Drains { t with arrived := min (t.arrived + n) t.sender.wire.accepted.length } := by
  have all : t.Ended → min (t.arrived + n) t.sender.wire.accepted.length = t.arrived := by
    rintro ⟨-, arrived⟩
    omega
  by_cases asked : t.reader.closing = true ∨ .closing ∈ t.reader.deferred ∨ t.reader.behind ≠ []
  · rw [all (h.ended asked)]
    exact h
  · exact ⟨fun more => absurd more asked, fun queued => absurd (Or.inr (Or.inl queued)) asked,
      fun closed => absurd (Or.inl closed) asked, h.behind⟩

/-- `read_data` is entered with what keeps the last bytes from being lost. -/
theorem Drains.enter {t : StreamTransport} {r : DataReader.State} (onIo : Bool)
    (taken : r.taken = t.reader.taken)
    (ended : r.closing = true ∨ .closing ∈ r.deferred ∨ r.behind ≠ [] → t.Ended)
    (closed : r.closing = true → t.waiting = [])
    (queued : .closing ∈ r.deferred → t.waiting = [] ∨ ReadsFirst r.deferred ∨ onIo = false) :
    Drains { t with reader := DataReader.enter r onIo } := by
  have same : ∀ s : DataReader.State, s.taken = t.reader.taken → t.waiting = [] →
      waiting { t with reader := s } = [] := by
    intro s hs none'
    unfold waiting at *
    rw [hs]
    exact none'
  cases closing : r.closing with
  | true =>
    have left : DataReader.enter r onIo = DataReader.leave r Buffer.new [] := if_pos closing
    have empty := same (DataReader.leave r Buffer.new []) taken (closed closing)
    rw [left]
    exact ⟨fun _ => ended (Or.inl closing), fun _ => Or.inl empty, fun _ => ⟨empty, rfl⟩, fun _ => rfl⟩
  | false =>
    have entered : DataReader.enter r onIo =
        { r with current := some ⟨Buffer.new, 0, onIo⟩ } := if_neg (by simp [closing])
    rw [entered]
    refine ⟨ended, fun more => ?_, fun now => ?_, fun idle => by cases idle⟩
    · rcases queued more with none' | first | alone
      · exact Or.inl (same _ taken none')
      · exact Or.inr (Or.inl first)
      · exact Or.inr (Or.inr ⟨_, rfl, alone⟩)
    · have now : r.closing = true := now
      rw [closing] at now
      cases now

theorem Drains.event {t : StreamTransport} (h : Drains t) {read error close : Bool}
    (orderly : t.Orderly (.receive (.event read error close))) {r : DataReader.State}
    (done : DataReader.step t.sender.wire.accepted t.reader (.event read error close) = some r) :
    Drains { t with reader := r } := by
  obtain ⟨rfl, hangup⟩ := orderly
  simp only [DataReader.step] at done
  split at done
  next =>
    cases done
    exact h
  next idle =>
    have idle : t.reader.current = none := by simpa using idle
    split at done
    next =>
      cases done
      refine Drains.enter true rfl ?_ (fun closing => (h.closed closing).1) ?_
      · rintro (closing | queued | more)
        · exact h.ended (Or.inl closing)
        · exact h.ended (Or.inr (Or.inl queued))
        · cases close with
          | true => exact (hangup rfl).2
          | false => exact absurd rfl more
      · intro queued
        rcases h.queued queued with none' | first | ⟨l, reading, -⟩
        · exact Or.inl none'
        · exact Or.inr (Or.inl first)
        · rw [idle] at reading
          cases reading
    next quiet =>
      have alone : close = false := by
        cases close with
        | true => exact absurd (hangup rfl).1 quiet
        | false => rfl
      subst alone
      cases done
      simp only [Bool.false_eq_true, if_false, List.append_nil]
      exact h

theorem Drains.task {t : StreamTransport} (h : Drains t) {r : DataReader.State}
    (done : DataReader.step t.sender.wire.accepted t.reader .task = some r) :
    Drains { t with reader := r } := by
  simp only [DataReader.step] at done
  split at done
  next =>
    cases done
    exact h
  next idle =>
    have idle : t.reader.current = none := by simpa using idle
    split at done
    next =>
      cases done
      exact h
    next rest queue =>
      cases done
      have inside : .closing ∈ rest → .closing ∈ t.reader.deferred := by
        rw [queue]
        exact List.mem_cons_of_mem _
      refine Drains.enter false rfl ?_ (fun closing => (h.closed closing).1) fun _ => Or.inr (Or.inr rfl)
      rintro (closing | queued | more)
      · exact h.ended (Or.inl closing)
      · exact h.ended (Or.inr (Or.inl (inside queued)))
      · exact absurd (h.behind idle) more
    next rest queue =>
      cases done
      have first : DataReader.Task.closing ∈ t.reader.deferred := by
        rw [queue]
        exact List.mem_cons_self
      have empty : t.waiting = [] := by
        rcases h.queued first with none' | reads | ⟨l, reading, -⟩
        · exact none'
        · rw [queue] at reads
          exact absurd reads (not_readsFirst_closing rest)
        · rw [idle] at reading
          cases reading
      exact ⟨fun _ => h.ended (Or.inr (Or.inl first)), fun _ => Or.inl empty,
        fun _ => ⟨empty, idle⟩, h.behind⟩

/-- `read_data` leaves its loop with what keeps the last bytes from being lost. -/
theorem Drains.leave {t : StreamTransport} (h : Drains t) {l : DataReader.Loop}
    (reading : t.reader.current = some l) {r : DataReader.State} (b : Buffer)
    {tasks : List DataReader.Task} (deferred : r.deferred = t.reader.deferred)
    (behind : r.behind = t.reader.behind) (closing : r.closing = t.reader.closing)
    (less : t.waiting = [] → waiting { t with reader := r } = [])
    (asked : .closing ∈ tasks → t.Ended)
    (rest : waiting { t with reader := r } = [] ∨ (l.onIo = true ∧ tasks = [.readData])) :
    Drains { t with reader := DataReader.leave r b tasks } := by
  have flight : waiting { t with reader := DataReader.leave r b tasks } =
      waiting { t with reader := r } := rfl
  have open' : t.reader.closing = false := by
    cases now : t.reader.closing with
    | false => rfl
    | true =>
      have idle := (h.closed now).2
      rw [reading] at idle
      cases idle
  have queue : (DataReader.leave r b tasks).deferred =
      t.reader.deferred ++ tasks ++ t.reader.behind := by rw [← deferred, ← behind]; rfl
  refine ⟨?_, ?_, ?_, fun _ => rfl⟩
  · rintro (now | queued | more)
    · have now : r.closing = true := now
      rw [closing, open'] at now
      cases now
    · simp only [queue, List.mem_append] at queued
      rcases queued with (old | new) | last
      · exact h.ended (Or.inr (Or.inl old))
      · exact asked new
      · exact h.ended (Or.inr (Or.inr (List.ne_nil_of_mem last)))
    · exact absurd rfl more
  · intro _
    rw [flight]
    simp only [queue]
    rcases rest with none' | ⟨onIo, rfl⟩
    · exact Or.inl none'
    · by_cases old : .closing ∈ t.reader.deferred
      · rcases h.queued old with none' | first | ⟨l', reading', alone⟩
        · exact Or.inl (less none')
        · rw [List.append_assoc]
          exact Or.inr (Or.inl (readsFirst_append first))
        · rw [reading] at reading'
          cases reading'
          rw [onIo] at alone
          cases alone
      · rw [List.append_assoc]
        exact Or.inr (Or.inl (readsFirst_readData old))
  · intro now
    have now : r.closing = true := now
    rw [closing, open'] at now
    cases now

theorem Drains.round {t : StreamTransport} (h : Drains t) {l : DataReader.Loop}
    (reading : t.reader.current = some l) {blob : ByteBlob} {reply : RecvReply}
    (orderly : t.Orderly (.receive (.round blob reply))) {r : DataReader.State}
    (done : DataReader.round t.reader l t.waiting blob reply = some r) :
    Drains { t with reader := r } := by
  unfold DataReader.round at done
  split at done
  next => cases done
  next m b res result =>
    cases done
    have less : ∀ s : DataReader.State, s.taken = t.reader.taken ++ res.toOption.getD [] →
        t.waiting = [] → waiting { t with reader := s } = [] := by
      intro s hs none'
      have all := List.drop_eq_nil_iff.mp none'
      unfold waiting
      rw [hs, List.drop_eq_nil_iff, List.length_append]
      exact Nat.le_trans all (Nat.le_add_right _ _)
    cases res with
    | error e =>
      obtain ⟨none', rfl | ⟨rfl, ended⟩⟩ := orderly.error result
      · exact h.leave reading b rfl rfl rfl (less _ rfl) (by simp) (Or.inl (less _ rfl none'))
      · exact h.leave reading b rfl rfl rfl (less _ rfl) (fun _ => ended) (Or.inl (less _ rfl none'))
    | ok bytes =>
      simp only [DataReader.after]
      split
      next third =>
        have onIo : l.onIo = true := (Bool.and_eq_true _ _ ▸ third).2
        exact h.leave reading b rfl rfl rfl (less _ rfl) (by simp) (Or.inr ⟨onIo, rfl⟩)
      next =>
        refine ⟨h.ended, fun queued => ?_, fun now => ?_, fun idle => by cases idle⟩
        · rcases h.queued queued with none' | first | ⟨l', reading', alone⟩
          · exact Or.inl (less _ rfl none')
          · exact Or.inr (Or.inl first)
          · rw [reading] at reading'
            cases reading'
            exact Or.inr (Or.inr ⟨_, rfl, alone⟩)
        · have idle := (h.closed now).2
          rw [reading] at idle
          cases idle

theorem Drains.step {m : Mem} {kernel : Nat → SendReply} {t t' : StreamTransport} (h : Drains t)
    {a : Action} (admits : t.Admits a) (orderly : t.Orderly a) (done : step m kernel t a = some t') :
    Drains t' := by
  cases a with
  | send a =>
    obtain ⟨s, -, rfl⟩ := Option.map_eq_some_iff.mp done
    exact h.send admits.1 s
  | arrive n =>
    cases done
    exact h.arrive n
  | finish =>
    cases done
    exact ⟨fun asked => ⟨rfl, (h.ended asked).2⟩, h.queued, h.closed, h.behind⟩
  | receive a =>
    obtain ⟨r, taken, rfl⟩ := Option.map_eq_some_iff.mp done
    cases a with
    | event read error close => exact h.event orderly taken
    | task => exact h.task taken
    | close => exact orderly.elim
    | round blob reply =>
      simp only [DataReader.step] at taken
      split at taken
      next =>
        cases taken
        exact h
      next l reading => exact h.round reading orderly taken

/-- In an orderly connection the reading pipe is closed only when all that the other side's
kernel accepted was passed on. -/
theorem closes_behind_last_byte (m : Mem) (kernel : Nat → SendReply) (m' : Mem)
    (acts : List Action) (admitted : Admitted m kernel m' acts)
    (orderly : ∀ n a t, acts[n]? = some a → run m kernel m' (acts.take n) = some t → t.Orderly a)
    (n : Nat) (t : StreamTransport) (reached : run m kernel m' (acts.take n) = some t)
    (closing : t.reader.closing = true) :
    t.finished = true ∧ DataReader.received t.reader.told = t.sender.wire.accepted := by
  have drains : Drains t := by
    refine Runs.partial_invariant (P := Drains) (drains_initial m') ?_ n reached
    intro k a s s' ha before done holds
    exact holds.step (admitted k a s ha before) (orderly k a s ha before) done
  obtain ⟨t', reached', sound⟩ := run_sound admitted n
  rw [reached] at reached'
  cases reached'
  obtain ⟨empty, idle⟩ := drains.closed closing
  obtain ⟨finished, arrived⟩ := drains.ended (Or.inl closing)
  have whole := sound.reader.whole
  rw [DataReader.pending, idle, List.append_nil] at whole
  refine ⟨finished, ?_⟩
  rw [whole, List.prefix_iff_eq_take.mp sound.reader.taken,
    List.take_of_length_le (List.drop_eq_nil_iff.mp empty), arrivedBytes, arrived, List.take_length]

theorem closes_behind_five :
    ∃ t, runFive 12 = some t ∧ t.reader.closing = true ∧
      DataReader.received t.reader.told = t.sender.wire.accepted := by
  obtain ⟨t, reached, -⟩ := run_sound admitted_fiveBytesAndEnd 12
  have closing : (runFive 12).map (fun t => t.reader.closing) = some true := by decide +kernel
  rw [runFive, reached] at closing
  have closing := Option.some.inj closing
  refine ⟨t, reached, closing, ?_⟩
  refine (closes_behind_last_byte _ _ _ fiveBytesAndEnd admitted_fiveBytesAndEnd ?_ 12 t reached
    closing).2
  intro n a t ha before
  match n, ha with
  | 0, ha | 1, ha | 2, ha | 6, ha | 7, ha | 11, ha =>
    cases ha
    trivial
  | 3, ha =>
    cases ha
    exact ⟨rfl, fun hangup => by cases hangup⟩
  | 4, ha =>
    cases ha
    have waits : t.waiting = [0, 1] :=
      congrArg (fun x => x.2.1) (found_of_run before runFive_first)
    refine ⟨fun _ => by decide, fun none' => ?_⟩
    rw [waits] at none'
    cases none'
  | 5, ha =>
    cases ha
    -- three bytes are still in transit
    exact ⟨rfl, congrArg (fun x => x.2.1) (found_of_run before runFive_again)⟩
  | 8, ha =>
    cases ha
    exact ⟨rfl, fun _ => ⟨rfl, ended_of_found (found_of_run before runFive_hangup)⟩⟩
  | 9, ha =>
    cases ha
    exact ⟨fun _ => by decide, fun _ => ended_of_found (found_of_run before runFive_second)⟩
  | 10, ha =>
    cases ha
    exact ⟨fun _ => by decide, fun _ => ended_of_found (found_of_run before runFive_last)⟩

end StreamTransport

end XiRuntime
