import Mathlib.Algebra.Order.Ring.Nat

namespace XiRuntime

inductive WorkerState
  | running
  | parkedNetpoll
  | parkedThread
  | spinning
deriving DecidableEq, Repr

/-- Where a worker stands in `worker::run` and in `_park`. `hot` is at the head of the
loop that polls and `tasks` past its poll; `hotRead` and `wakeRead` were told of the
wakeup and are about to read the eventfd; `blocked` is inside `blocking_poll_into`. -/
inductive WorkerPc
  | dequeue (cnt : Nat)
  | hot
  | hotRead
  | tasks
  | setBit
  | setParked
  | blocked
  | wakeRead
  | setRunning
  | clearBit
deriving DecidableEq, Repr

/-- A `worker_control_block` with the worker's own `spins`; `wakeups` is the counter of
the poller's eventfd. -/
structure WorkerBlock where
  inputQueue : List Nat
  state : WorkerState
  wakeups : Nat
  spins : Nat
  pc : WorkerPc
deriving DecidableEq, Repr

/-- What a step of a worker depends on besides its block: whether tasks sleep on it,
whether ports or tasks were ready, whether its budgets keep it in the loop, and
whether a port woke it up. -/
structure Round where
  sleeping : Bool
  busy : Bool
  again : Bool
  port : Bool
deriving DecidableEq, Repr

/-- No tasks at all, and no budget left. -/
def Round.idle : Round := ⟨false, false, false, false⟩

/-- `DEFAULT_SCHEDULER_DEQUEUE_MAX`. -/
def schedulerDequeueMax : Nat := 100

/-- `DEFAULT_SPINS_BEFORE_IDLE`. -/
def spinsBeforeIdle : Nat := 1000

namespace WorkerBlock

/-- `dequeue_into` has returned `cnt`: whether to report as idle. -/
def dequeued (w : WorkerBlock) (cnt : Nat) (r : Round) : WorkerBlock :=
  if cnt = 0 && !r.sleeping then
    if w.spins + 1 > spinsBeforeIdle then { w with spins := 0, pc := .setBit }
    else { w with spins := w.spins + 1, pc := .hot }
  else { w with pc := .hot }

/-- What the next step of a worker does to its own block. -/
def advance (w : WorkerBlock) (r : Round) : Option WorkerBlock :=
  match w.pc with
  | .dequeue cnt =>
    if cnt = schedulerDequeueMax then some (w.dequeued cnt r)
    else
      match w.inputQueue with
      | [] => some (w.dequeued cnt r)
      | _ :: rest => some { w with inputQueue := rest, pc := .dequeue (cnt + 1) }
  | .hot =>
    if r.again then some { w with pc := if w.wakeups > 0 then .hotRead else .tasks }
    else some { w with pc := .dequeue 0 }
  | .hotRead => some { w with wakeups := 0, pc := .tasks }
  | .tasks =>
    let spins := if r.busy then 0 else w.spins
    some { w with spins := spins, pc := if r.again then .hot else .dequeue 0 }
  | .setBit => some { w with pc := .setParked }
  | .setParked => some { w with state := .parkedNetpoll, pc := .blocked }
  | .blocked =>
    if r.port then some { w with pc := .setRunning }
    else if w.wakeups > 0 then some { w with pc := .wakeRead }
    else none
  | .wakeRead => some { w with wakeups := 0, pc := .setRunning }
  | .setRunning => some { w with state := .running, pc := .clearBit }
  | .clearBit => some { w with pc := .dequeue 0 }

end WorkerBlock

/-- Where a producer stands in `central_enqueue`. -/
inductive ProducerPc
  | idle
  | load (job : Nat)
  | fetchAnd (job : Nat) (parked : BitVec 64)
  | chosen (job w : Nat)
  | pushed (job w : Nat)
  | waking (job w : Nat)
deriving DecidableEq, Repr

/-- A thread that enqueues jobs, with its `ROUND_ROBIN`. -/
structure Producer where
  pc : ProducerPc
  roundRobin : Nat
deriving DecidableEq, Repr

/-- Jobs are owned, so each call of `central_enqueue` has one of its own. -/
structure Scheduler (P : Type) where
  count : Nat
  workers : Nat → WorkerBlock
  parkedWorkers : BitVec 64
  producers : P → Producer
  nextJob : Nat

inductive SchedulerAction (P : Type)
  | centralEnqueue (p : P)
  | produce (p : P)
  | work (i : Nat) (r : Round)
deriving DecidableEq, Repr

def countTrailingZeroes (m : BitVec 64) : Nat :=
  ((List.range 64).find? (fun i => m.getLsbD i)).getD 64

/-- The place of the bit of worker `i`. A shift by 64 and more is undefined; on x86-64
it goes by the index modulo 64. -/
def parkBit (i : Nat) : Nat := i % 64

def parkIdx (i : Nat) : BitVec 64 := 1#64 <<< parkBit i

namespace Scheduler

variable {P : Type} [DecidableEq P]

def setWorker (s : Scheduler P) (i : Nat) (w : WorkerBlock) : Scheduler P :=
  { s with workers := Function.update s.workers i w }

def setPc (s : Scheduler P) (p : P) (pc : ProducerPc) : Scheduler P :=
  { s with producers := Function.update s.producers p { s.producers p with pc := pc } }

def setParkedWorkers (s : Scheduler P) (mask : BitVec 64) : Scheduler P :=
  { s with parkedWorkers := mask }

/-- `_least_loaded_worker`. -/
def leastLoadedWorker (s : Scheduler P) (p : P) (job : Nat) : Scheduler P :=
  let rr := (s.producers p).roundRobin
  let pr : Producer := ⟨.chosen job (rr % s.count), (rr + 1) % 2 ^ 64⟩
  { s with producers := Function.update s.producers p pr }

/-- The next step of `central_enqueue`; `none` also where an assertion fails. -/
def produce (s : Scheduler P) (p : P) : Option (Scheduler P) :=
  match (s.producers p).pc with
  | .idle => none
  | .load job =>
    if s.parkedWorkers = 0 then some (s.leastLoadedWorker p job)
    else some (s.setPc p (.fetchAnd job s.parkedWorkers))
  | .fetchAnd job parked =>
    let idx := countTrailingZeroes parked
    let old := s.parkedWorkers
    let s' := s.setParkedWorkers (old &&& ~~~ (parkIdx idx))
    if parked ≠ old then some (s'.setPc p (.load job))
    else if idx < s.count then some (s'.setPc p (.chosen job idx))
    else none
  | .chosen job i =>
    let w := s.workers i
    some ((s.setWorker i { w with inputQueue := w.inputQueue ++ [job] }).setPc p (.pushed job i))
  | .pushed job i =>
    some (s.setPc p (if (s.workers i).state = .parkedNetpoll then .waking job i else .idle))
  | .waking _ i =>
    let w := s.workers i
    some ((s.setWorker i { w with wakeups := w.wakeups + 1 }).setPc p .idle)

/-- The next step of worker `i`, which in `_park` also sets and resets its bit. -/
def work (s : Scheduler P) (i : Nat) (r : Round) : Option (Scheduler P) :=
  let parked := match (s.workers i).pc with
    | .setBit => s.parkedWorkers ||| parkIdx i
    | .clearBit => s.parkedWorkers &&& ~~~ (parkIdx i)
    | _ => s.parkedWorkers
  ((s.workers i).advance r).map (fun w => (s.setParkedWorkers parked).setWorker i w)

def step (s : Scheduler P) : SchedulerAction P → Option (Scheduler P)
  | .centralEnqueue p =>
    if (s.producers p).pc = .idle ∧ 0 < s.count then
      some ({ s with nextJob := s.nextJob + 1 }.setPc p (.load s.nextJob))
    else none
  | .produce p => s.produce p
  | .work i r => if i < s.count then s.work i r else none

/-- After `start`: every worker is about to look into its queue. -/
def start (count : Nat) : Scheduler P where
  count := count
  workers := fun _ => ⟨[], .running, 0, 0, .dequeue 0⟩
  parkedWorkers := 0
  producers := fun _ => ⟨.idle, 0⟩
  nextJob := 0

inductive Reachable (count : Nat) : Scheduler P → Prop
  | start : Reachable count (start count)
  | step {s s' : Scheduler P} (a : SchedulerAction P) : Reachable count s → s.step a = some s' →
      Reachable count s'

/-- Worker `i` sleeps with work queued for it, and nobody is about to wake it up: no
producer is between its push and the end of its wakeup decision, and no wakeup is pending. -/
def Stranded (s : Scheduler P) (i : Nat) : Prop :=
  (s.workers i).pc = .blocked ∧ (s.workers i).inputQueue ≠ [] ∧
    (∀ p job, (s.producers p).pc ≠ .pushed job i ∧ (s.producers p).pc ≠ .waking job i) ∧
    (s.workers i).wakeups = 0

end Scheduler

theorem countTrailingZeroes_eq {m : BitVec 64} {i : Nat} (h : m ≠ 0) :
    countTrailingZeroes m = i ↔
      i < 64 ∧ m.getLsbD i = true ∧ ∀ j < i, m.getLsbD j = false := by
  unfold countTrailingZeroes
  cases hf : (List.range 64).find? (fun i => m.getLsbD i) with
  | some k =>
    rw [Option.getD_some]
    obtain ⟨hset, hmem, hbelow⟩ := List.find?_range_eq_some.mp hf
    have hlt := List.mem_range.mp hmem
    constructor
    · rintro rfl
      exact ⟨hlt, hset, fun j hj => by simpa using hbelow j hj⟩
    · rintro ⟨-, hi, hmin⟩
      rcases Nat.lt_trichotomy k i with hlt | heq | hgt
      · rw [hmin k hlt] at hset
        cases hset
      · exact heq
      · have hclear := hbelow i hgt
        rw [hi] at hclear
        cases hclear
  | none =>
    refine absurd ?_ h
    apply BitVec.eq_of_getLsbD_eq
    intro i hi
    have hclear := List.find?_eq_none.mp hf i (List.mem_range.mpr hi)
    simpa using hclear

theorem countTrailingZeroes_lt {m : BitVec 64} (h : m ≠ 0) : countTrailingZeroes m < 64 :=
  ((countTrailingZeroes_eq h).mp rfl).1

theorem countTrailingZeroes_set {m : BitVec 64} (h : m ≠ 0) :
    m.getLsbD (countTrailingZeroes m) = true :=
  ((countTrailingZeroes_eq h).mp rfl).2.1

theorem countTrailingZeroes_below {m : BitVec 64} (h : m ≠ 0) :
    ∀ i < countTrailingZeroes m, m.getLsbD i = false :=
  ((countTrailingZeroes_eq h).mp rfl).2.2

end XiRuntime
