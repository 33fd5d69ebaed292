import Mathlib.Data.List.Dedup
import XiRuntime.Runs

namespace XiRuntime

/-- `resumable::blocked::port::type`. -/
inductive PortType
  | read
  | write
deriving DecidableEq, Repr

/-- The bits of `epoll_event::events` that the netpoller sets. -/
structure EpollEvents where
  epollIn : Bool
  epollOut : Bool
  epollEt : Bool
  epollOneshot : Bool
deriving DecidableEq, Repr

/-- An entry of the interest list, with all 64 bits of `epoll_data_t`. It is disarmed once
an event of a one-shot registration was reported. -/
structure Registration where
  events : EpollEvents
  data : UInt64
  armed : Bool
deriving DecidableEq, Repr

inductive EpollCtl
  | add
  | mod
deriving DecidableEq, Repr

inductive Errno
  | enoent
  | eexist
deriving DecidableEq, Repr

/-- One registration for each file descriptor. -/
structure Epoll where
  interest : Int32 → Option Registration

namespace Epoll

def set (e : Epoll) (fd : Int32) (r : Registration) : Epoll :=
  ⟨fun g => if g = fd then some r else e.interest g⟩

def ctl (e : Epoll) (op : EpollCtl) (fd : Int32) (events : EpollEvents) (data : UInt64) :
    Except Errno Epoll :=
  match op, e.interest fd with
  | .mod, none => .error .enoent
  | .add, some _ => .error .eexist
  | _, _ => .ok (e.set fd ⟨events, data, true⟩)

def armed (e : Epoll) (fd : Int32) : Bool := (e.interest fd).any Registration.armed

/-- The descriptors that `epoll_wait` reports when some have become ready. -/
def reported (e : Epoll) (ready : List Int32) (maxEvents : Nat) : List Int32 :=
  (ready.filter e.armed).dedup.take maxEvents

def report (r : Registration) : Registration :=
  if r.events.epollOneshot then { r with armed := false } else r

def wait (e : Epoll) (ready : List Int32) (maxEvents : Nat) : List Registration × Epoll :=
  let fds := e.reported ready maxEvents
  (fds.filterMap e.interest,
    ⟨fun fd => if fd ∈ fds then (e.interest fd).map report else e.interest fd⟩)

end Epoll

namespace Netpoller

def maxEvents : Nat := 1024

def readEvents : EpollEvents := ⟨true, false, true, true⟩
def writeEvents : EpollEvents := ⟨false, true, true, true⟩

/-- `await_readable` and `await_writable` but for the events. -/
def await (events : EpollEvents) (e : Epoll) (r : UInt64) (fd : Int32) : Epoll :=
  match e.ctl .mod fd events r with
  | .ok e' => e'
  | .error .enoent =>
    match e.ctl .add fd events r with
    | .ok e' => e'
    | .error _ => e
  | .error .eexist => e

def awaitReadable (e : Epoll) (r : UInt64) (fd : Int32) : Epoll := await readEvents e r fd
def awaitWritable (e : Epoll) (r : UInt64) (fd : Int32) : Epoll := await writeEvents e r fd

/-- `data.fd`: the lower half of what was stored as `data.ptr`. -/
def dataFd (data : UInt64) : Int32 := data.toUInt32.toInt32

/-- The loop of `poll_into`: the eventfd's counter, and what is put in the worker queue. -/
def pollLoop (wakeupFd : Int32) (wakeups : Nat) : List Registration → Nat × List UInt64
  | [] => (wakeups, [])
  | ev :: events =>
    if dataFd ev.data = wakeupFd then pollLoop wakeupFd 0 events
    else
      let (wakeups, queue) := pollLoop wakeupFd wakeups events
      (wakeups, ev.data :: queue)

/-- A resumable that waits for its port. -/
structure Wait where
  task : UInt64
  fd : Int32
  type : PortType
deriving DecidableEq, Repr

/-- The netpoller, all that it put in worker queues, and the resumables that were handed to it
and not put there yet. -/
structure State where
  epoll : Epoll
  wakeupFd : Int32
  wakeups : Nat
  queue : List UInt64
  waiting : List Wait

namespace State

/-- The upper half of the wake-up descriptor's `data` is not initialised. -/
def start (wakeupFd : Int32) (upper : UInt64) : State where
  epoll := ⟨fun fd =>
    if fd = wakeupFd then
      some ⟨⟨true, false, true, false⟩, upper <<< 32 ||| wakeupFd.toUInt32.toUInt64, true⟩
    else none⟩
  wakeupFd := wakeupFd
  wakeups := 0
  queue := []
  waiting := []

/-- A task that a worker ran is blocked on a port. -/
def blocked (s : State) (type : PortType) (fd : Int32) (r : UInt64) : State :=
  { s with
    epoll := match type with
      | .read => awaitReadable s.epoll r fd
      | .write => awaitWritable s.epoll r fd
    waiting := s.waiting ++ [⟨r, fd, type⟩] }

def pollInto (s : State) (ready : List Int32) (n : Nat) : State :=
  let (events, epoll) := s.epoll.wait ready (min n maxEvents)
  let (wakeups, moved) := pollLoop s.wakeupFd s.wakeups events
  { s with
    epoll := epoll
    wakeups := wakeups
    queue := s.queue ++ moved
    waiting := s.waiting.filter (fun w => decide (w.task ∉ moved)) }

def unblockOne (s : State) : State := { s with wakeups := s.wakeups + 1 }

inductive Action
  | blocked (type : PortType) (fd : Int32) (r : UInt64)
  | pollInto (ready : List Int32) (n : Nat)
  | unblockOne
deriving DecidableEq, Repr

def step (s : State) : Action → State
  | .blocked type fd r => s.blocked type fd r
  | .pollInto ready n => s.pollInto ready n
  | .unblockOne => s.unblockOne

def run (wakeupFd : Int32) (upper : UInt64) (acts : List Action) : State :=
  runFrom step (start wakeupFd upper) acts

/-- A resumable has one owner, so one that waits is not handed over again. -/
def Admits (s : State) : Action → Prop
  | .blocked _ _ r => ∀ w ∈ s.waiting, w.task ≠ r
  | _ => True

end State

def portEvents : PortType → EpollEvents
  | .read => readEvents
  | .write => writeEvents

/-- The registration that a resumable waits for. -/
def Wait.registration (w : Wait) : Registration := ⟨portEvents w.type, w.task, true⟩

namespace State

/-- Every resumable still waiting is the one registered for its event. -/
def Registered (s : State) : Prop :=
  ∀ w ∈ s.waiting, s.epoll.interest w.fd = some w.registration

/-- Another resumable already waits on the descriptor, or a resumable is reported whose
address looks like the wake-up descriptor. -/
def Loses (s : State) : Action → Prop
  | .blocked _ fd _ => ∃ w ∈ s.waiting, w.fd = fd
  | .pollInto ready n =>
    ∃ w ∈ s.waiting, w.fd ∈ s.epoll.reported ready (min n maxEvents) ∧ dataFd w.task = s.wakeupFd
  | .unblockOne => False

end State

/-- Whatever was registered, the new resumable takes its place. -/
theorem await_eq (events : EpollEvents) (e : Epoll) (r : UInt64) (fd : Int32) :
    await events e r fd = e.set fd ⟨events, r, true⟩ := by
  unfold await Epoll.ctl
  cases e.interest fd with
  | none => rfl
  | some old => rfl

theorem pollLoop_moved (wakeupFd : Int32) (wakeups : Nat) (events : List Registration) :
    (pollLoop wakeupFd wakeups events).2 =
      (events.map Registration.data).filter (fun d => decide (dataFd d ≠ wakeupFd)) := by
  induction events generalizing wakeups with
  | nil => rfl
  | cons ev events ih =>
    unfold pollLoop
    by_cases here : dataFd ev.data = wakeupFd
    · simp [here, ih]
    · simp [here, ih]

namespace State

theorem blocked_eq (s : State) (type : PortType) (fd : Int32) (r : UInt64) :
    s.blocked type fd r = { s with
      epoll := s.epoll.set fd ⟨portEvents type, r, true⟩
      waiting := s.waiting ++ [⟨r, fd, type⟩] } := by
  cases type with
  | read => simp [blocked, awaitReadable, await_eq, portEvents]
  | write => simp [blocked, awaitWritable, await_eq, portEvents]

theorem blocked_registered {s : State} (h : s.Registered) {type : PortType} {fd : Int32} {r : UInt64}
    (admitted : s.Admits (.blocked type fd r)) :
    (s.blocked type fd r).Registered ↔ ¬ s.Loses (.blocked type fd r) := by
  rw [blocked_eq]
  constructor
  · rintro registered ⟨w, hw, rfl⟩
    have taken := registered w (List.mem_append_left _ hw)
    simp only [Epoll.set, if_true, Option.some.injEq, Wait.registration, Registration.mk.injEq] at taken
    exact admitted w hw taken.2.1.symm
  · intro alone w hw
    rcases List.mem_append.mp hw with old | new
    · have other : w.fd ≠ fd := fun same => alone ⟨w, old, same⟩
      show (if w.fd = fd then _ else s.epoll.interest w.fd) = _
      rw [if_neg other]
      exact h w old
    · rw [List.mem_singleton.mp new]
      show (if fd = fd then _ else s.epoll.interest fd) = _
      rw [if_pos rfl]
      rfl

theorem report_registration (w : Wait) : Epoll.report w.registration ≠ w.registration := by
  intro same
  have armed := congrArg Registration.armed same
  obtain ⟨task, fd, type⟩ := w
  cases type with
  | read => simp [Epoll.report, Wait.registration, portEvents, readEvents] at armed
  | write => simp [Epoll.report, Wait.registration, portEvents, writeEvents] at armed

/-- What `poll_into` puts in the queue. -/
def moved (s : State) (ready : List Int32) (n : Nat) : List UInt64 :=
  (((s.epoll.reported ready (min n maxEvents)).filterMap s.epoll.interest).map
    Registration.data).filter (fun d => decide (dataFd d ≠ s.wakeupFd))

theorem pollInto_waiting (s : State) (ready : List Int32) (n : Nat) :
    (s.pollInto ready n).waiting =
      s.waiting.filter (fun w => decide (w.task ∉ s.moved ready n)) := by
  show s.waiting.filter (fun w => decide (w.task ∉ (pollLoop s.wakeupFd s.wakeups
    (s.epoll.wait ready (min n maxEvents)).1).2)) = _
  rw [pollLoop_moved]
  rfl

theorem pollInto_interest (s : State) (ready : List Int32) (n : Nat) (fd : Int32) :
    (s.pollInto ready n).epoll.interest fd =
      if fd ∈ s.epoll.reported ready (min n maxEvents) then
        (s.epoll.interest fd).map Epoll.report
      else s.epoll.interest fd := rfl

theorem mem_moved {s : State} (h : s.Registered) {w : Wait} (hw : w ∈ s.waiting)
    {ready : List Int32} {n : Nat} (reported : w.fd ∈ s.epoll.reported ready (min n maxEvents)) :
    w.task ∈ s.moved ready n ↔ dataFd w.task ≠ s.wakeupFd := by
  have stored : w.task ∈ ((s.epoll.reported ready (min n maxEvents)).filterMap
      s.epoll.interest).map Registration.data := by
    refine List.mem_map.mpr ⟨w.registration, ?_, rfl⟩
    exact List.mem_filterMap.mpr ⟨w.fd, reported, h w hw⟩
  rw [moved, List.mem_filter, decide_eq_true_eq]
  exact and_iff_right stored

theorem pollInto_registered {s : State} (h : s.Registered) (ready : List Int32) (n : Nat) :
    (s.pollInto ready n).Registered ↔ ¬ s.Loses (.pollInto ready n) := by
  constructor
  · rintro registered ⟨w, hw, reported, wakeup⟩
    have stays : w ∈ (s.pollInto ready n).waiting := by
      rw [pollInto_waiting]
      refine List.mem_filter.mpr ⟨hw, decide_eq_true ?_⟩
      exact fun gone => (mem_moved h hw reported).mp gone wakeup
    have still := registered w stays
    rw [pollInto_interest, if_pos reported, h w hw, Option.map_some] at still
    exact report_registration w (Option.some.inj still)
  · intro sound w stays
    rw [pollInto_waiting] at stays
    obtain ⟨hw, unmoved⟩ := List.mem_filter.mp stays
    have unreported : w.fd ∉ s.epoll.reported ready (min n maxEvents) := by
      intro reported
      apply of_decide_eq_true unmoved
      apply (mem_moved h hw reported).mpr
      exact fun wakeup => sound ⟨w, hw, reported, wakeup⟩
    rw [pollInto_interest, if_neg unreported]
    exact h w hw

-- an address whose lower half is the wake-up descriptor: reported once and put nowhere
example : let s := run 16 0 [.blocked .read 7 0x7f0000000010, .pollInto [7] 10]
    s.waiting = [⟨0x7f0000000010, 7, .read⟩] ∧ s.queue = [] ∧ s.epoll.armed 7 = false := by
  decide

theorem step_registered {s : State} (h : s.Registered) {a : Action} (admitted : s.Admits a) :
    (s.step a).Registered ↔ ¬ s.Loses a := by
  cases a with
  | blocked type fd r => exact blocked_registered h admitted
  | pollInto ready n => exact pollInto_registered h ready n
  | unblockOne => exact iff_of_true h (fun lost => lost)

/-- Every resumable stays registered until it is put in a queue, as long as no descriptor gets
a second waiter and no waiter is taken for the wake-up descriptor. -/
theorem netpoller_keeps_waiters_iff (wakeupFd : Int32) (upper : UInt64) (acts : List Action)
    (owned : ∀ n a, acts[n]? = some a → (run wakeupFd upper (acts.take n)).Admits a) :
    (∀ n, (run wakeupFd upper (acts.take n)).Registered) ↔
      ∀ n a, acts[n]? = some a → ¬ (run wakeupFd upper (acts.take n)).Loses a := by
  apply Runs.invariant_iff
  · intro w hw
    cases hw
  · intro n a ha registered
    exact step_registered registered (owned n a ha)

def readerAndWriter : List Action :=
  [.blocked .read 7 0x1000, .blocked .write 8 0x2000, .pollInto [8] 10]

/-- A task waits to read and, on another descriptor, one waits to write. -/
theorem netpoller_keeps_waiters_apart :
    (run 4 0 readerAndWriter).Registered ∧ (run 4 0 readerAndWriter).queue = [0x2000] := by
  have owned : ∀ n a, readerAndWriter[n]? = some a → (run 4 0 (readerAndWriter.take n)).Admits a := by
    intro n a ha
    rcases n with _ | _ | _ | n
    · cases ha
      intro w hw
      cases hw
    · cases ha
      intro w hw
      rw [List.mem_singleton.mp (show w ∈ [⟨0x1000, 7, .read⟩] from hw)]
      decide
    · cases ha
      trivial
    · simp [readerAndWriter] at ha
  have kept : ∀ n a, readerAndWriter[n]? = some a → ¬ (run 4 0 (readerAndWriter.take n)).Loses a := by
    intro n a ha
    rcases n with _ | _ | _ | n
    · cases ha
      rintro ⟨w, hw, -⟩
      cases hw
    · cases ha
      rintro ⟨w, hw, same⟩
      rw [List.mem_singleton.mp (show w ∈ [⟨0x1000, 7, .read⟩] from hw)] at same
      exact absurd same (by decide)
    · cases ha
      rintro ⟨w, hw, -, wakeup⟩
      rcases List.mem_pair.mp (show w ∈ [⟨0x1000, 7, .read⟩, ⟨0x2000, 8, .write⟩] from hw) with rfl | rfl
      · exact absurd wakeup (by decide)
      · exact absurd wakeup (by decide)
    · simp [readerAndWriter] at ha
  exact ⟨(netpoller_keeps_waiters_iff 4 0 readerAndWriter owned).mpr kept 3, by decide⟩

/-- One task reads and another writes on the same socket: the reader is no longer
registered. -/
theorem netpoller_forgets_reader :
    (run 4 0 [.blocked .read 7 0x1000]).Admits (.blocked .write 7 0x2000) ∧
      ¬ (run 4 0 [.blocked .read 7 0x1000, .blocked .write 7 0x2000]).Registered := by
  constructor
  · intro w hw
    rw [List.mem_singleton.mp (show w ∈ [⟨0x1000, 7, .read⟩] from hw)]
    decide
  · intro registered
    have reader := registered ⟨0x1000, 7, .read⟩ List.mem_cons_self
    exact absurd reader (by decide)

end State

end Netpoller

end XiRuntime
