import Mathlib.Algebra.Order.Ring.Int
import XiRuntime.IntrusiveSet
import XiRuntime.Netpoller
import XiRuntime.Runs

namespace XiRuntime

open IntrusiveSet

/-- A descriptor that a task waits for, with the address of the task. All registrations are one-shot, so one that was reported
is as good as none until it is modified. -/
structure Await where
  fd : Int32
  type : PortType
  task : UInt64
deriving DecidableEq, Repr

/-- What `epoll_pwait` finds ready. -/
inductive ReadySource
  | wakeup
  | timer
  | port (fd : Int32)
deriving DecidableEq, Repr

/-- An entry of `events`. -/
inductive ReactorEvent
  | wakeup
  | timer
  | task (r : UInt64)
deriving DecidableEq, Repr

/-- The tasks of a batch. -/
def ReactorEvent.resumables : List ReactorEvent → List UInt64
  | [] => []
  | .task r :: batch => r :: resumables batch
  | _ :: batch => resumables batch

/-- `reactor::epoll`. The eventfd and the timerfd are registered edge-triggered: the eventfd is
reported once after a write, if its counter is not zero by then, and the timerfd once after it
has expired. -/
structure EpollReactor where
  wakeupFd : Int32
  timerFd : Int32
  counter : Nat
  edge : Bool
  timer : Option Int
  awaits : List Await
deriving DecidableEq, Repr

namespace EpollReactor

def start (wakeupFd timerFd : Int32) : EpollReactor := ⟨wakeupFd, timerFd, 0, false, none, []⟩

/-- `data.fd` of an event. Behind a task it is the lower half of the task's address. -/
def dataFd (e : EpollReactor) : ReactorEvent → Int32
  | .wakeup => e.wakeupFd
  | .timer => e.timerFd
  | .task r => Netpoller.dataFd r

/-- What the events of the reactor itself are told by. -/
def Own (e : EpollReactor) (fd : Int32) : Prop := fd = e.wakeupFd ∨ fd = e.timerFd

instance (e : EpollReactor) (fd : Int32) : Decidable (e.Own fd) :=
  inferInstanceAs (Decidable (_ ∨ _))

/-- The largest value of an eventfd. -/
def maxCounter : Nat := 2 ^ 64 - 2

/-- The write does not block: at the largest value it fails, and nothing looks at the result. -/
def maybeWakeup (e : EpollReactor) : EpollReactor :=
  if e.counter + 1 ≤ maxCounter then { e with counter := e.counter + 1, edge := true } else e

/-- `eventfd_read`. -/
def eventfdRead (e : EpollReactor) : EpollReactor := { e with counter := 0 }

/-- `timerfd_settime`, for one expiration. -/
def settime (e : EpollReactor) (expiration : Int) : EpollReactor := { e with timer := some expiration }

/-- `await_readable` and `await_writable`: what the descriptor was registered for is overwritten. -/
def await (e : EpollReactor) (fd : Int32) (type : PortType) (r : UInt64) : EpollReactor :=
  { e with awaits := ⟨fd, type, r⟩ :: e.awaits.filter (fun a => a.fd ≠ fd) }

def report (e : EpollReactor) (now : Int) : ReadySource → Option (ReactorEvent × EpollReactor)
  | .wakeup =>
    if e.edge = true ∧ 0 < e.counter then some (.wakeup, { e with edge := false }) else none
  | .timer =>
    match e.timer with
    | none => none
    | some t => if t ≤ now then some (.timer, { e with timer := none }) else none
  | .port fd =>
    match e.awaits.find? (fun a => a.fd = fd) with
    | none => none
    | some a => some (.task a.task, { e with awaits := e.awaits.erase a })

/-- The events of one call of `epoll_pwait`. -/
def reports (e : EpollReactor) (now : Int) :
    List ReadySource → Option (List ReactorEvent × EpollReactor)
  | [] => some ([], e)
  | source :: sources =>
    match e.report now source with
    | none => none
    | some (event, e) =>
      match e.reports now sources with
      | none => none
      | some (batch, e) => some (event :: batch, e)

/-- The wait has neither the eventfd nor the timerfd to report. -/
def Silent (e : EpollReactor) (now : Int) : Prop :=
  e.report now .wakeup = none ∧ e.report now .timer = none

instance (e : EpollReactor) (now : Int) : Decidable (e.Silent now) :=
  inferInstanceAs (Decidable (_ ∧ _))

end EpollReactor

/-- Where a worker stands in `worker::run` and in `pop`. A wait that blocks is one behind
`timerfd_settime`; it notes how long after the clock was read the timer was set. A task that
is `blocking` has entered a queue, and has still to yield. -/
inductive IsolatedPhase
  | drainExternal
  | drainSleep
  | pollReactor
  | settime (read : Int) (ns : Int)
  | wait (blocks : Option Int)
  | events (batch : List ReactorEvent)
  | running (r : UInt64)
  | blocking (r : UInt64)
deriving DecidableEq, Repr

/-- `worker_data` of one worker. -/
structure IsolatedWorker where
  readyQueue : List UInt64
  sleepQueue : List UInt64
  externalQueue : List UInt64
  reactor : EpollReactor
  nextWakeup : Int
  phase : IsolatedPhase

/-- `time_point::max()`, in nanoseconds. -/
def steadyMax : Int := 2 ^ 63 - 1

namespace IsolatedWorker

def start (wakeupFd timerFd : Int32) : IsolatedWorker :=
  ⟨[], [], [], .start wakeupFd timerFd, steadyMax, .drainExternal⟩

def goTo (w : IsolatedWorker) (phase : IsolatedPhase) : IsolatedWorker := { w with phase := phase }

def pushInternally (w : IsolatedWorker) (r : UInt64) : IsolatedWorker :=
  { w with readyQueue := w.readyQueue ++ [r] }

/-- The loop of `_drain_sleep_queue`. -/
def drainSleepLoop (wakeupTime : UInt64 → Int) (now : Int) (w : IsolatedWorker) : List UInt64 → IsolatedWorker
  | [] => { w with sleepQueue := [], nextWakeup := steadyMax }
  | i :: rest =>
    if wakeupTime i ≤ now then drainSleepLoop wakeupTime now (w.pushInternally i) rest
    else { w with sleepQueue := i :: rest, nextWakeup := wakeupTime i }

def drainSleepQueue (wakeupTime : UInt64 → Int) (now : Int) (w : IsolatedWorker) : IsolatedWorker :=
  if now + 100000 ≥ w.nextWakeup then w.drainSleepLoop wakeupTime (now + 100000) w.sleepQueue else w

/-- `sleep_for`, for a task with its new wake-up time. -/
def sleepUntil (wakeupTime : UInt64 → Int) (w : IsolatedWorker) (r : UInt64) : IsolatedWorker :=
  { w with
    readyQueue := w.readyQueue.erase r
    sleepQueue := insertUnique wakeupTime r w.sleepQueue
    nextWakeup := if w.nextWakeup > wakeupTime r then wakeupTime r else w.nextWakeup }

/-- `poll_for`: the timer is set when the time is not over yet, and nothing else ends the wait. -/
def pollFor (now ns : Int) : IsolatedPhase := if ns > 0 then .settime now ns else .wait none

/-- The task that the next event of the batch stands for, and the events behind it. -/
def reported (w : IsolatedWorker) : Option (UInt64 × List ReactorEvent) :=
  match w.phase with
  | .events (.task r :: batch) =>
    if w.reactor.Own (Netpoller.dataFd r) then none else some (r, batch)
  | _ => none

/-- The task of the next event, when its address makes it pass for one of the reactor's own. -/
def dropped (w : IsolatedWorker) : Option UInt64 :=
  match w.phase with
  | .events (.task r :: _) =>
    if w.reactor.Own (Netpoller.dataFd r) then some r else none
  | _ => none

/-- The steps of `pop` that ask nothing of the others. -/
def advance (wakeupTime : UInt64 → Int) (now : Int) (w : IsolatedWorker) : Option IsolatedWorker :=
  match w.phase with
  | .drainExternal =>
    match w.externalQueue with
    | [] => some (w.goTo .drainSleep)
    | r :: rest => some { w.pushInternally r with externalQueue := rest }
  | .drainSleep => some ((w.drainSleepQueue wakeupTime now).goTo .pollReactor)
  | .pollReactor =>
    some (w.goTo (pollFor now (if w.readyQueue = [] then w.nextWakeup - now else 0)))
  | .settime read ns =>
    some ({ w with reactor := w.reactor.settime (now + ns) }.goTo (.wait (some (now - read))))
  | .events (event :: batch) =>
    if w.reactor.dataFd event = w.reactor.wakeupFd then
      some ({ w with reactor := w.reactor.eventfdRead }.goTo (.events batch))
    else if w.reactor.dataFd event = w.reactor.timerFd then some (w.goTo (.events batch))
    else none
  | .events [] =>
    match w.readyQueue with
    | [] => some (w.goTo .drainExternal)
    | r :: rest => some ({ w with readyQueue := rest }.goTo (.running r))
  | _ => none

/-- `MAX_EVENTS`. -/
def maxEvents : Nat := 1024

/-- `epoll_pwait` returns: without an event it does so at once or not at all. -/
def waited (now : Int) (w : IsolatedWorker) (sources : List ReadySource) : Option IsolatedWorker :=
  match w.phase with
  | .wait blocks =>
    if (blocks.isSome = true ∧ sources = []) ∨ sources.length > maxEvents then none
    else
      match w.reactor.reports now sources with
      | none => none
      | some (batch, e) => some ({ w with reactor := e }.goTo (.events batch))
  | _ => none

/-- The tasks in a worker's hands. -/
def handled : IsolatedPhase → List UInt64
  | .events batch => ReactorEvent.resumables batch
  | .running r => [r]
  | _ => []

def tasks (w : IsolatedWorker) : List UInt64 :=
  w.externalQueue ++ w.readyQueue ++ w.sleepQueue ++ w.reactor.awaits.map Await.task ++
    handled w.phase

end IsolatedWorker

/-- The threads that schedule tasks. -/
inductive ScheduleThread
  | worker (i : Nat)
  | outside (i : Nat)
deriving DecidableEq, Repr

/-- A task that a thread has pushed into the external queue of a worker, and how often the thread
has still to write into the eventfd. -/
structure PushedTask where
  worker : Nat
  task : UInt64
  writes : Nat
deriving DecidableEq, Repr

/-- A `coordinator` over `size` isolated workers, with the fields of the resumables and the queues
of the channels, in which `blocked` ones wait. A thread is `pushing` until it has written. -/
structure Coordinator where
  now : Int
  size : Nat
  nextWorker : Nat
  workers : Nat → IsolatedWorker
  pushing : ScheduleThread → Option PushedTask
  blocked : List UInt64
  worker : UInt64 → Option Nat
  wakeupTime : UInt64 → Int

/-- `resumable::resume_result`. -/
inductive TurnResult
  | blocked
  | resumeLater
  | done
deriving DecidableEq, Repr

inductive CoordinatorAction
  | tick (ns : Nat)
  | schedule (t : ScheduleThread) (r : UInt64)
  | wakeup (t : ScheduleThread)
  | unblock (t : ScheduleThread) (r : UInt64)
  | advance (i : Nat)
  | waited (i : Nat) (sources : List ReadySource)
  | interrupted (i : Nat)
  | spawn (i : Nat) (r : UInt64)
  | await (i : Nat) (fd : Int32) (type : PortType)
  | sleepFor (i : Nat) (ns : Int)
  | enterQueue (i : Nat)
  | turnEnds (i : Nat) (result : TurnResult)
deriving DecidableEq, Repr

namespace Coordinator

def start (size : Nat) (now : Int) (wakeupFd timerFd : Nat → Int32) : Coordinator where
  now := now
  size := size
  nextWorker := 0
  workers i := IsolatedWorker.start (wakeupFd i) (timerFd i)
  pushing _ := none
  blocked := []
  worker _ := none
  wakeupTime _ := steadyMax

def setWorker (s : Coordinator) (i : Nat) (w : IsolatedWorker) : Coordinator :=
  { s with workers := Function.update s.workers i w }

/-- `push_externally`, but for the writes. -/
def pushExternally (s : Coordinator) (t : ScheduleThread) (i : Nat) (r : UInt64) (writes : Nat) :
    Coordinator :=
  let w := s.workers i
  { s.setWorker i { w with externalQueue := w.externalQueue ++ [r] } with
    pushing := Function.update s.pushing t (some ⟨i, r, writes⟩) }

/-- `worker::schedule`. -/
def scheduleOn (s : Coordinator) (t : ScheduleThread) (i : Nat) (r : UInt64) : Coordinator :=
  if t = .worker i then s.setWorker i ((s.workers i).pushInternally r) else s.pushExternally t i r 1

/-- `resumable::unblock`. -/
def unblock (s : Coordinator) (t : ScheduleThread) (r : UInt64) : Option Coordinator :=
  match s.worker r with
  | none => none
  | some i =>
    let w := s.workers i
    some ((s.setWorker i { w with
      sleepQueue := w.sleepQueue.erase r
      readyQueue := w.readyQueue.erase r }).scheduleOn t i r)

/-- `central_schedule`; behind `push_externally` the eventfd is written once more. -/
def centralSchedule (s : Coordinator) (t : ScheduleThread) (r : UInt64) : Coordinator :=
  let i := s.nextWorker % s.size
  { s with
    nextWorker := (s.nextWorker + 1) % 2 ^ 64
    worker := Function.update s.worker r (some i) }.pushExternally t i r 2

/-- The task that a worker resumes. -/
def current (s : Coordinator) (i : Nat) : Option UInt64 :=
  match (s.workers i).phase with
  | .running r => some r
  | _ => none

/-- A thread schedules tasks one at a time, and a worker only from inside of a task. -/
def Acts (s : Coordinator) (t : ScheduleThread) : Prop :=
  s.pushing t = none ∧
    match t with
    | .worker i => (s.current i).isSome = true
    | .outside _ => True

instance (s : Coordinator) (t : ScheduleThread) : Decidable (s.Acts t) :=
  match t with
  | .worker _ => inferInstanceAs (Decidable (_ ∧ _))
  | .outside _ => inferInstanceAs (Decidable (_ ∧ True))

/-- What the task that is running at a worker does, before it yields. -/
def turn (s : Coordinator) (i : Nat) (act : UInt64 → IsolatedWorker → Option Coordinator) :
    Option Coordinator :=
  if s.pushing (.worker i) = none then
    match s.current i with
    | none => none
    | some r => act r (s.workers i)
  else none

def step (s : Coordinator) : CoordinatorAction → Option Coordinator
  | .tick ns => some { s with now := s.now + ns }
  | .schedule t r => if s.Acts t ∧ 0 < s.size then some (s.centralSchedule t r) else none
  | .wakeup t =>
    match s.pushing t with
    | none => none
    | some ⟨i, r, writes⟩ =>
      let w := s.workers i
      some { s.setWorker i { w with reactor := w.reactor.maybeWakeup } with
        pushing := Function.update s.pushing t
          (if writes ≤ 1 then none else some ⟨i, r, writes - 1⟩) }
  | .unblock t r =>
    if s.Acts t ∧ r ∈ s.blocked then { s with blocked := s.blocked.erase r }.unblock t r else none
  | .advance i =>
    if i < s.size ∧ s.pushing (.worker i) = none then
      let w := s.workers i
      match w.reported with
      | some (r, batch) => (s.setWorker i (w.goTo (.events batch))).unblock (.worker i) r
      | none => (w.advance s.wakeupTime s.now).map (s.setWorker i)
    else none
  | .waited i sources => ((s.workers i).waited s.now sources).map (s.setWorker i)
  | .interrupted i =>
    match (s.workers i).phase with
    | .wait _ => some (s.setWorker i ((s.workers i).goTo (.events [])))
    | _ => none
  | .spawn i r =>
    s.turn i fun _ w =>
      some { s.setWorker i (w.pushInternally r) with
        worker := Function.update s.worker r (some i) }
  | .await i fd type =>
    s.turn i fun r w =>
      some (s.setWorker i ({ w with reactor := w.reactor.await fd type r }.goTo (.blocking r)))
  | .sleepFor i ns =>
    s.turn i fun r w =>
      let wakeupTime := Function.update s.wakeupTime r (s.now + ns)
      some { s.setWorker i ((w.sleepUntil wakeupTime r).goTo (.blocking r)) with
        wakeupTime := wakeupTime }
  | .enterQueue i =>
    s.turn i fun r w =>
      some { s.setWorker i (w.goTo (.blocking r)) with blocked := s.blocked ++ [r] }
  | .turnEnds i result =>
    let w := s.workers i
    if s.pushing (.worker i) = none then
      match w.phase, result with
      | .blocking _, .blocked => some (s.setWorker i (w.goTo .drainExternal))
      | .running r, .resumeLater => some (s.setWorker i ((w.pushInternally r).goTo .drainExternal))
      | .running r, .done =>
        some { s.setWorker i (w.goTo .drainExternal) with
          worker := Function.update s.worker r none }
      | _, _ => none
    else none

def run (size : Nat) (now : Int) (wakeupFd timerFd : Nat → Int32) (acts : List CoordinatorAction) :
    Option Coordinator :=
  acts.foldlM step (start size now wakeupFd timerFd)

/-- A task that is scheduled for the first time is a new object, and the reactor keeps its
descriptors to itself. -/
def Admits (s : Coordinator) : CoordinatorAction → Prop
  | .schedule _ r => s.worker r = none
  | .spawn _ r => s.worker r = none
  | .await i fd _ => ¬ (s.workers i).reactor.Own fd
  | _ => True

instance (s : Coordinator) : (a : CoordinatorAction) → Decidable (s.Admits a)
  | .schedule _ _ => inferInstanceAs (Decidable (_ = _))
  | .spawn _ _ => inferInstanceAs (Decidable (_ = _))
  | .await _ _ _ => inferInstanceAs (Decidable (¬ _))
  | .tick _ | .wakeup _ | .unblock _ _ | .advance _ | .waited _ _ | .interrupted _ | .sleepFor _ _
  | .enterQueue _ | .turnEnds _ _ => inferInstanceAs (Decidable True)

def Admitted (size : Nat) (now : Int) (wakeupFd timerFd : Nat → Int32)
    (acts : List CoordinatorAction) : Prop :=
  ∀ n a s, acts[n]? = some a → run size now wakeupFd timerFd (acts.take n) = some s → s.Admits a

end Coordinator

end XiRuntime
