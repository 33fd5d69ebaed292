import Mathlib.Data.List.Basic
import XiRuntime.Runs

namespace XiRuntime

/-- What a function called on the thread of a shard does: the tasks it posts to the
shard, the world it leaves, and whether it ends with an exception. -/
structure CallOutcome (T W : Type) where
  tasks : List T
  world : W
  throws : Bool

/-- The code of the functions, all of one type: tasks, pollers, and those that
`initiate_shutdown` calls. Each sees whatever the world has become. `first` says whether
the shard is `_shards[0]`. -/
structure ShardEnv (T W : Type) where
  first : Bool
  call : T → W → CallOutcome T W

inductive CallRole
  | own
  | poller
  | task
  | inbound
  | beforeShutdown
deriving DecidableEq, Repr

structure Call (T : Type) where
  role : CallRole
  function : T
deriving DecidableEq, Repr

namespace ShardEnv

variable {T W : Type} (env : ShardEnv T W)

/-- What one call after the other does, from a world on. -/
def outcomes : W → List (Call T) → List (CallOutcome T W)
  | _, [] => []
  | w, c :: cs => env.call c.function w :: outcomes (env.call c.function w).world cs

def worldAfter (w : W) (cs : List (Call T)) : W :=
  cs.foldl (fun w c => (env.call c.function w).world) w

/-- All the tasks that the calls post. -/
def posts (w : W) (cs : List (Call T)) : List T := (env.outcomes w cs).flatMap CallOutcome.tasks

theorem outcomes_append (w : W) (cs cs' : List (Call T)) :
    env.outcomes w (cs ++ cs') = env.outcomes w cs ++ env.outcomes (env.worldAfter w cs) cs' := by
  induction cs generalizing w with
  | nil => rfl
  | cons c cs ih =>
    rw [List.cons_append, outcomes, outcomes, ih]
    rfl

theorem posts_append (w : W) (cs cs' : List (Call T)) :
    env.posts w (cs ++ cs') = env.posts w cs ++ env.posts (env.worldAfter w cs) cs' := by
  rw [posts, outcomes_append, List.flatMap_append]
  rfl

theorem worldAfter_append (w : W) (cs cs' : List (Call T)) :
    env.worldAfter w (cs ++ cs') = env.worldAfter (env.worldAfter w cs) cs' :=
  List.foldl_append

end ShardEnv

/-- A shard as its own thread sees it. The deferred poller is registered once, by
`init`; `early` and `late` are the pollers before and behind it. In `_before_shutdown`
a function that has been moved out is `none`. The calls are kept in the order they come. -/
structure Shard (T W : Type) where
  early : List T
  late : List T
  taskQueue : List T
  deferred : List T
  running : Bool
  beforeShutdown : List (Option T)
  world : W
  calls : List (Call T)

inductive ShardAction (T : Type)
  | own (f : T)
  | registerPoller (p : T)
  | beforeShutdown (f : T)
  | initiateShutdown
  | poll (inbound : List T)

namespace Shard

variable {T W : Type}

def start (early : List T) (world : W) : Shard T W where
  early := early
  late := []
  taskQueue := []
  deferred := []
  running := true
  beforeShutdown := []
  world := world
  calls := []

/-- `_post_task` from the shard's own thread, for each of the tasks. -/
def post (s : Shard T W) (ts : List T) : Shard T W := { s with deferred := s.deferred ++ ts }

/-- A call of `f`; the flag says whether it throws. -/
def call (env : ShardEnv T W) (role : CallRole) (f : T) (s : Shard T W) : Shard T W × Bool :=
  let out := env.call f s.world
  ({ s.post out.tasks with world := out.world, calls := s.calls ++ [⟨role, f⟩] }, out.throws)

/-- `poll` of a poller is `noexcept`. -/
def runPollers (env : ShardEnv T W) : List T → Shard T W → Shard T W
  | [], s => s
  | p :: ps, s => runPollers env ps (s.call env .poller p).1

/-- `deferred_poller::poll`. -/
def deferredPoll (s : Shard T W) : Shard T W :=
  { s with taskQueue := s.taskQueue ++ s.deferred, deferred := [] }

/-- `_deque.front()->run()` and the `pop_front` at the end of the scope, which is
done also when the task throws. -/
def runFront (env : ShardEnv T W) (t : T) (s : Shard T W) : Shard T W × Bool :=
  let out := s.call env .task t
  ({ out.1 with taskQueue := out.1.taskQueue.tail }, out.2)

/-- The flag says whether the exception of a task has ended the loop. -/
def processTasks (env : ShardEnv T W) (s : Shard T W) : Shard T W × Bool :=
  match _h : s.taskQueue with
  | [] => (s, false)
  | t :: _ =>
    if (s.runFront env t).2 then ((s.runFront env t).1, true)
    else processTasks env (s.runFront env t).1
termination_by s.taskQueue.length
decreasing_by simp [runFront, call, post, _h]

/-- `consume_all` on the tasks that other threads have pushed. -/
def consumeInbound (env : ShardEnv T W) : List T → Shard T W → Shard T W × Bool
  | [], s => (s, false)
  | t :: rest, s =>
    let out := s.call env .inbound t
    if out.2 then (out.1, true) else consumeInbound env rest out.1

def moveOut (s : Shard T W) (i : Nat) : Shard T W :=
  { s with beforeShutdown := s.beforeShutdown.set i none }

/-- `_shards[0]->dispatch` with a function moved out of `_before_shutdown`: elsewhere
than on that shard it goes to the inbound queue there. -/
def dispatch (env : ShardEnv T W) (handleException : Shard T W → Option (Shard T W))
    (f : Option T) (s : Shard T W) : Option (Shard T W) :=
  if env.first then
    match f with
    | none => handleException s -- bad_function_call
    | some f =>
      let out := s.call env .beforeShutdown f
      if out.2 then handleException out.1 else some out.1
  else some s

/-- The loop of `_initiate_shutdown` over `_before_shutdown`, from the `i`-th function on. -/
def runBeforeShutdown (env : ShardEnv T W) (handleException : Shard T W → Option (Shard T W)) :
    Nat → Nat → Shard T W → Option (Shard T W)
  | _, 0, s => some s
  | i, n + 1, s =>
    (dispatch env handleException (s.beforeShutdown[i]?.join) (s.moveOut i)).bind
      (runBeforeShutdown env handleException (i + 1) n)

/-- `_before_shutdown.clear()` and `shutdown`. -/
def shutdown (s : Shard T W) : Shard T W := { s with beforeShutdown := [], running := false }

/-- `initiate_shutdown`, and so `_handle_exception`, which calls it; `dispatch` in its loop
comes back to `_handle_exception`. No result: the calls nest more than `depth` deep. -/
def initiateShutdown (env : ShardEnv T W) : Nat → Shard T W → Option (Shard T W)
  | 0, _ => none
  | depth + 1, s =>
    (runBeforeShutdown env (initiateShutdown env depth) 0 s.beforeShutdown.length s).map shutdown

/-- The `try` block of `poll`; the flag says whether an exception has left it. -/
def tryPoll (env : ShardEnv T W) (inbound : List T) (s : Shard T W) : Shard T W × Bool :=
  let s := (runPollers env s.early s).deferredPoll
  let out := (runPollers env s.late s).processTasks env
  if out.2 then out else consumeInbound env inbound out.1

def poll (env : ShardEnv T W) (depth : Nat) (inbound : List T) (s : Shard T W) :
    Option (Shard T W) :=
  let out := s.tryPoll env inbound
  if out.2 then initiateShutdown env depth out.1 else some out.1

def step (env : ShardEnv T W) (depth : Nat) (s : Shard T W) :
    ShardAction T → Option (Shard T W)
  | .own f => some (s.call env .own f).1
  | .registerPoller p => some { s with late := s.late ++ [p] }
  | .beforeShutdown f => some { s with beforeShutdown := some f :: s.beforeShutdown }
  | .initiateShutdown => initiateShutdown env depth s
  | .poll inbound => s.poll env depth inbound

def run (env : ShardEnv T W) (depth : Nat) (early : List T) (world : W)
    (acts : List (ShardAction T)) : Option (Shard T W) :=
  acts.foldlM (step env depth) (start early world)

def pollerCalls (ps : List T) : List (Call T) := ps.map (⟨.poller, ·⟩)

def taskCalls (ts : List T) : List (Call T) := ts.map (⟨.task, ·⟩)

/-- The tasks that `process_tasks` has run. -/
def tasksRun (cs : List (Call T)) : List T :=
  (cs.filter (fun c => c.role = .task)).map Call.function

/-- The tasks left over, and those deferred when the deferred poller is polled. -/
def due (env : ShardEnv T W) (s : Shard T W) : List T :=
  s.taskQueue ++ (s.deferred ++ env.posts s.world (pollerCalls s.early))

/-- Every task that any call since the start has posted was run, or is due, in the order
of posting. -/
def InOrder (env : ShardEnv T W) (world : W) (s : Shard T W) : Prop :=
  s.world = env.worldAfter world s.calls ∧
    env.posts world s.calls = tasksRun s.calls ++ (s.taskQueue ++ s.deferred)

/-- What the tasks of a poll do. -/
def runOutcomes (env : ShardEnv T W) (s : Shard T W) (runs : List T) : List (CallOutcome T W) :=
  env.outcomes (env.worldAfter s.world (pollerCalls (s.early ++ s.late))) (taskCalls runs)

/-- One poll: `runs` are its tasks, and `rest` what is called behind them. -/
structure Polled (env : ShardEnv T W) (s s' : Shard T W) (runs : List T) (rest : List (Call T)) :
    Prop where
  calls : s'.calls = s.calls ++ (pollerCalls (s.early ++ s.late) ++ (taskCalls runs ++ rest))
  world : s'.world = env.worldAfter s.world
    (pollerCalls (s.early ++ s.late) ++ (taskCalls runs ++ rest))
  others : ∀ c ∈ rest, c.role ≠ .task
  due : s.due env = runs ++ s'.taskQueue
  deferred : s'.deferred = env.posts (env.worldAfter s.world (pollerCalls s.early))
    (pollerCalls s.late ++ (taskCalls runs ++ rest))
  before : ∀ out ∈ (runOutcomes env s runs).dropLast, out.throws = false
  last : s'.taskQueue ≠ [] → ∃ out, (runOutcomes env s runs).getLast? = some out ∧ out.throws = true

variable {env : ShardEnv T W}

/-- Other functions than tasks were called. -/
structure Extends (env : ShardEnv T W) (s s' : Shard T W) (cs : List (Call T)) : Prop where
  early : s'.early = s.early
  late : s'.late = s.late
  taskQueue : s'.taskQueue = s.taskQueue
  calls : s'.calls = s.calls ++ cs
  world : s'.world = env.worldAfter s.world cs
  deferred : s'.deferred = s.deferred ++ env.posts s.world cs
  others : ∀ c ∈ cs, c.role ≠ .task

namespace Extends

theorem refl (s : Shard T W) : Extends env s s [] :=
  ⟨rfl, rfl, rfl, by simp, rfl, by simp [ShardEnv.posts, ShardEnv.outcomes], by simp⟩

theorem trans {s s' s'' : Shard T W} {cs cs' : List (Call T)} (h : Extends env s s' cs)
    (h' : Extends env s' s'' cs') : Extends env s s'' (cs ++ cs') where
  early := h'.early.trans h.early
  late := h'.late.trans h.late
  taskQueue := h'.taskQueue.trans h.taskQueue
  calls := by rw [h'.calls, h.calls, List.append_assoc]
  world := by rw [h'.world, h.world, env.worldAfter_append]
  deferred := by rw [h'.deferred, h.deferred, h.world, env.posts_append, List.append_assoc]
  others := by
    intro c hc
    rcases List.mem_append.mp hc with hc | hc
    · exact h.others c hc
    · exact h'.others c hc

end Extends

theorem tasksRun_append (cs cs' : List (Call T)) :
    tasksRun (cs ++ cs') = tasksRun cs ++ tasksRun cs' := by
  simp [tasksRun]

theorem tasksRun_others {cs : List (Call T)} (h : ∀ c ∈ cs, c.role ≠ .task) : tasksRun cs = [] := by
  have hnone : cs.filter (fun c => c.role = .task) = [] := by
    rw [List.filter_eq_nil_iff]
    intro c hc
    simpa using h c hc
  rw [tasksRun, hnone, List.map_nil]

theorem tasksRun_taskCalls (ts : List T) : tasksRun (taskCalls ts) = ts := by
  induction ts with
  | nil => rfl
  | cons t ts ih =>
    rw [taskCalls, List.map_cons, tasksRun, List.filter_cons_of_pos (by simp), List.map_cons]
    exact congrArg (t :: ·) ih

@[simp] theorem pollerCalls_append (ps ps' : List T) :
    pollerCalls (ps ++ ps') = pollerCalls ps ++ pollerCalls ps' := List.map_append

theorem pollerCalls_others (ps : List T) : ∀ c ∈ pollerCalls ps, c.role ≠ .task := by
  intro c hc
  obtain ⟨p, -, rfl⟩ := List.mem_map.mp hc
  simp

theorem Extends.inOrder {w : W} {s s' : Shard T W} {cs : List (Call T)} (h : Extends env s s' cs)
    (hs : s.InOrder env w) : s'.InOrder env w := by
  obtain ⟨hworld, hposts⟩ := hs
  refine ⟨?_, ?_⟩
  · rw [h.world, h.calls, env.worldAfter_append, ← hworld]
  · rw [h.calls, env.posts_append, hposts, ← hworld, tasksRun_append, tasksRun_others h.others,
      h.taskQueue, h.deferred]
    simp

/-- What `process_tasks` does: `runs` are its tasks. -/
structure Drained (env : ShardEnv T W) (s s' : Shard T W) (runs : List T) : Prop where
  calls : s'.calls = s.calls ++ taskCalls runs
  world : s'.world = env.worldAfter s.world (taskCalls runs)
  taskQueue : s.taskQueue = runs ++ s'.taskQueue
  deferred : s'.deferred = s.deferred ++ env.posts s.world (taskCalls runs)
  before : ∀ out ∈ (env.outcomes s.world (taskCalls runs)).dropLast, out.throws = false
  last : s'.taskQueue ≠ [] →
    ∃ out, (env.outcomes s.world (taskCalls runs)).getLast? = some out ∧ out.throws = true

theorem Polled.inOrder {w : W} {s s' : Shard T W} {runs : List T} {rest : List (Call T)}
    (h : Polled env s s' runs rest) (hs : s.InOrder env w) : s'.InOrder env w := by
  obtain ⟨hworld, hposts⟩ := hs
  have hrun : tasksRun s'.calls = tasksRun s.calls ++ runs := by
    rw [h.calls, tasksRun_append, tasksRun_append, tasksRun_append, tasksRun_taskCalls,
      tasksRun_others (pollerCalls_others _), tasksRun_others h.others]
    simp
  refine ⟨?_, ?_⟩
  · rw [h.world, h.calls, env.worldAfter_append w, ← hworld]
  · have hdue : env.posts w s.calls ++ env.posts s.world (pollerCalls s.early) =
        tasksRun s.calls ++ (runs ++ s'.taskQueue) := by
      rw [← h.due, hposts, Shard.due]
      simp
    rw [hrun, h.calls, env.posts_append, ← hworld, pollerCalls_append, List.append_assoc,
      env.posts_append s.world, ← List.append_assoc, hdue, h.deferred]
    simp

end Shard

end XiRuntime
