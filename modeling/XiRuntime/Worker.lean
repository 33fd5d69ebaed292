import Mathlib.Data.Int.Order.Basic
import XiRuntime.ExecutionBudget
import XiRuntime.Netpoller
import XiRuntime.SleepQueue

namespace XiRuntime

open Netpoller

/-- A time point some nanoseconds later, in 64 bits. -/
def TimePoint.plus (t : TimePoint) (ns : Int64) : TimePoint where
  count := (t.count + ns.toInt).bmod (2 ^ 64)
  min_le := by
    have low := @Int.le_bmod (t.count + ns.toInt) (2 ^ 64) (by decide)
    omega
  le_max := by
    have high := @Int.bmod_lt (t.count + ns.toInt) (2 ^ 64) (by decide)
    omega

/-- `resumable::result`. -/
inductive ResumeResult
  | port (fd : Int32) (type : PortType)
  | sleep (duration : Int64)
  | reschedule
  | done
deriving DecidableEq, Repr

/-- `worker::config`. -/
structure WorkerLimits extends WorkerConfig where
  netpollMax : UInt64
  schedulerDequeueMax : UInt64
  isolationBudgetAllocation : UInt64
  nrSpinsBeforeIdle : UInt64
  upperBoundReadyQueue : Int64
deriving DecidableEq, Repr

/-- `worker::DEFAULT_CONFIG`. -/
def WorkerLimits.default : WorkerLimits :=
  ⟨WorkerConfig.default, UInt64.ofNat (2 ^ 64 - 1), 100, 10000000, 1000, 50000⟩

/-- Where a worker stands in `worker::run`: at the head of the outer loop, in `idle_worker`, at
the head of the hot loop, and in the loops over its two queues. -/
inductive WorkerPhase
  | centralSchedule
  | idle
  | poll
  | ports
  | ready
deriving DecidableEq, Repr

/-- A worker with its netpoller, whose `queue` is `_port_queue`, and the scheduler's queue for
it. A builder is named by the resumable that it builds. -/
structure Worker where
  phase : WorkerPhase
  schedulerQueue : List UInt64
  netpoller : Netpoller.State
  readyQueue : List UInt64
  localSleepQueue : LocalSleepQueue UInt64
  spins : UInt64
  loopBudgetAllocation : UInt64
  isolBudget : ExecutionBudget
  loopBudget : ExecutionBudget

/-- What a step of the worker finds outside of it: the time stamp counter when a budget is made
and when it is adjusted, the clock, the descriptors that are ready, and the result of the task
that is resumed. -/
structure Reading where
  startTsc : UInt64
  currTsc : UInt64
  now : TimePoint
  ready : List Int32
  result : ResumeResult

/-- Whatever is armed is so for a task that waits, or for the wake-up descriptor. -/
def Netpoller.State.Armed (s : Netpoller.State) : Prop :=
  ∀ fd r, s.epoll.interest fd = some r → r.armed = true →
    dataFd r.data = s.wakeupFd ∨ ∃ w ∈ s.waiting, w.fd = fd ∧ w.registration = r

namespace Worker

def start (c : WorkerLimits) (wakeupFd : Int32) (upper : UInt64) : Worker where
  phase := .centralSchedule
  schedulerQueue := []
  netpoller := State.start wakeupFd upper
  readyQueue := []
  localSleepQueue := ⟨fun _ => ⊤, [], ⊤⟩
  spins := 0
  loopBudgetAllocation := c.loopBudgetAllocation
  isolBudget := ExecutionBudget.create 0 0 0
  loopBudget := ExecutionBudget.create 0 0 0

/-- `shared_queue::dequeue_into` on the ready queue. -/
def dequeueInto (w : Worker) (n : Nat) : Worker :=
  { w with
    schedulerQueue := w.schedulerQueue.drop n
    readyQueue := w.readyQueue ++ w.schedulerQueue.take n }

/-- `_block_resumable_on_sleep`. -/
def blockOnSleep (c : WorkerLimits) (w : Worker) (now : TimePoint) (r : UInt64) (ns : Int64) : Worker :=
  if ns < c.upperBoundReadyQueue then { w with readyQueue := w.readyQueue ++ [r] }
  else { w with localSleepQueue := w.localSleepQueue.enqueue (now.plus ns) r }

/-- The visitor in `_run_task_from_queue`, for the task that was resumed. -/
def visit (c : WorkerLimits) (w : Worker) (now : TimePoint) (r : UInt64) : ResumeResult → Worker
  | .done => w
  | .reschedule => { w with readyQueue := w.readyQueue ++ [r] }
  | .sleep duration => w.blockOnSleep c now r duration
  | .port fd type => { w with netpoller := w.netpoller.blocked type fd r }

/-- Behind each task the loop budget is adjusted, and the loop is left once it is expended. -/
def adjustLoop (w : Worker) (tsc : UInt64) : Worker :=
  let adjusted := w.loopBudget.adjustSpent tsc
  { w with loopBudget := adjusted.2, phase := if adjusted.1 then w.phase else .poll }

/-- The end of the hot loop's body: unspent budget is carried over. -/
def endRound (c : WorkerLimits) (w : Worker) : Worker :=
  if w.loopBudget.isExpended = false then
    { w with
      loopBudgetAllocation :=
        max c.maxLoopBudgetAllocation (w.loopBudgetAllocation + w.loopBudget.remainder)
      phase := .centralSchedule }
  else { w with loopBudgetAllocation := c.loopBudgetAllocation, phase := .poll }

/-- The head of the outer loop. -/
def scheduleCentrally (c : WorkerLimits) (w : Worker) (tsc : UInt64) : Worker :=
  let hot := fun (w : Worker) =>
    { w with isolBudget := ExecutionBudget.create c.isolationBudgetAllocation 0 tsc, phase := .poll }
  let next := w.dequeueInto c.schedulerDequeueMax.toNat
  if w.schedulerQueue.take c.schedulerDequeueMax.toNat = [] ∧ w.localSleepQueue.queue = [] then
    if w.spins + 1 > c.nrSpinsBeforeIdle then { next with spins := 0, phase := .idle }
    else hot { next with spins := w.spins + 1 }
  else hot next

/-- The head of the hot loop's body: both pollers are asked before the budget is made. -/
def pollQueues (c : WorkerLimits) (w : Worker) (e : Reading) : Worker :=
  let netpoller := w.netpoller.pollInto e.ready c.netpollMax.toNat
  let woken := w.localSleepQueue.dequeueInto w.readyQueue e.now
  { w with
    netpoller := netpoller
    localSleepQueue := woken.1
    readyQueue := woken.2
    loopBudget := ExecutionBudget.create w.loopBudgetAllocation 0 e.startTsc
    spins := if netpoller.queue ≠ [] ∨ woken.2 ≠ [] then 0 else w.spins
    phase := .ports }

def advance (c : WorkerLimits) (w : Worker) (e : Reading) : Worker :=
  match w.phase with
  | .centralSchedule => w.scheduleCentrally c e.startTsc
  | .idle =>
    { w with netpoller := w.netpoller.pollInto e.ready 1, phase := .centralSchedule }
  | .poll =>
    let adjusted := w.isolBudget.adjustSpent e.currTsc
    if adjusted.1 then { w with isolBudget := adjusted.2 }.pollQueues c e
    else { w with isolBudget := adjusted.2, phase := .centralSchedule }
  | .ports =>
    match w.netpoller.queue with
    | [] => { w with phase := .ready }
    | r :: queue =>
      let w := { w with netpoller := { w.netpoller with queue := queue }, spins := 0 }
      (w.visit c e.now r e.result).adjustLoop e.currTsc
  | .ready =>
    match w.readyQueue with
    | [] => w.endRound c
    | r :: queue =>
      ({ w with readyQueue := queue }.visit c e.now r e.result).adjustLoop e.currTsc

/-- The task that the next step resumes. -/
def current (w : Worker) : Option UInt64 :=
  match w.phase with
  | .ports => w.netpoller.queue.head?
  | .ready => w.readyQueue.head?
  | _ => none

/-- All the places where a worker keeps a task. -/
def tasks (w : Worker) : List UInt64 :=
  w.schedulerQueue ++ w.netpoller.queue ++ w.readyQueue ++ w.localSleepQueue.queue ++
    w.netpoller.waiting.map Wait.task

/-- Each task that is alive is in one place of the worker: in one of the three queues, asleep,
or waiting for a port on which it is registered. -/
structure Keeps (w : Worker) (alive : List UInt64) : Prop where
  once : ∀ r, w.tasks.count r = if r ∈ alive then 1 else 0
  asleep : w.localSleepQueue.Valid
  registered : w.netpoller.Registered
  armed : w.netpoller.Armed

end Worker

/-- A worker with the tasks that were spawned on it and are not done. -/
structure WorkerRun where
  worker : Worker
  alive : List UInt64

/-- `spawn` is `central_enqueue` choosing this worker. -/
inductive WorkerEvent
  | spawn (r : UInt64)
  | advance (e : Reading)

namespace WorkerRun

def step (c : WorkerLimits) (s : WorkerRun) : WorkerEvent → WorkerRun
  | .spawn r =>
    { worker := { s.worker with schedulerQueue := s.worker.schedulerQueue ++ [r] }
      alive := s.alive ++ [r] }
  | .advance e =>
    { worker := s.worker.advance c e
      alive := if e.result = .done then s.alive.filter (fun r => s.worker.current ≠ some r)
        else s.alive }

def run (c : WorkerLimits) (wakeupFd : Int32) (upper : UInt64) (events : List WorkerEvent) : WorkerRun :=
  runFrom (step c) ⟨Worker.start c wakeupFd upper, []⟩ events

/-- A resumable that is built is a new object. -/
def Admits (s : WorkerRun) : WorkerEvent → Prop
  | .spawn r => r ∉ s.alive
  | .advance _ => True

/-- Two tasks sleep until the same time, two wait for one descriptor, or a task is reported
whose address looks like the wake-up descriptor. -/
def Loses (c : WorkerLimits) (s : WorkerRun) : WorkerEvent → Prop
  | .spawn _ => False
  | .advance e =>
    match s.worker.phase with
    | .centralSchedule => False
    | .idle => s.worker.netpoller.Loses (.pollInto e.ready 1)
    | .poll => (s.worker.isolBudget.adjustSpent e.currTsc).1 = true ∧
        s.worker.netpoller.Loses (.pollInto e.ready c.netpollMax.toNat)
    | .ports | .ready =>
      match s.worker.current, e.result with
      | some r, .port fd type => s.worker.netpoller.Loses (.blocked type fd r)
      | some _, .sleep duration => ¬ duration < c.upperBoundReadyQueue ∧
          ∃ x ∈ s.worker.localSleepQueue.queue,
            s.worker.localSleepQueue.wakeupTime x = e.now.plus duration
      | _, _ => False

end WorkerRun

end XiRuntime
