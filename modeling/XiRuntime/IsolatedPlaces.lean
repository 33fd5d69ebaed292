import Mathlib.Data.List.Count
import XiRuntime.IsolatedWorker

namespace XiRuntime

open IntrusiveSet

namespace EpollReactor

theorem count_report {e e' : EpollReactor} {now : Int} {source : ReadySource} {event : ReactorEvent}
    (h : e.report now source = some (event, e')) (batch : List ReactorEvent) (r : UInt64) :
    (ReactorEvent.resumables (event :: batch)).count r + (e'.awaits.map Await.task).count r =
      (ReactorEvent.resumables batch).count r + (e.awaits.map Await.task).count r := by
  cases source with
  | wakeup =>
    simp only [report] at h
    split at h
    next =>
      cases h
      rfl
    next => cases h
  | timer =>
    simp only [report] at h
    split at h
    next => cases h
    next =>
      split at h
      next =>
        cases h
        rfl
      next => cases h
  | port fd =>
    simp only [report] at h
    split at h
    next => cases h
    next a found =>
      cases h
      have perm := (List.perm_cons_erase (List.mem_of_find?_eq_some found)).map Await.task
      rw [perm.count_eq, List.map_cons, ReactorEvent.resumables, List.count_cons, List.count_cons]
      simp only
      omega

/-- The waits that are over are those that were reported. -/
theorem count_reports {now : Int} {sources : List ReadySource} {e e' : EpollReactor}
    {batch : List ReactorEvent} (h : e.reports now sources = some (batch, e')) (r : UInt64) :
    (ReactorEvent.resumables batch).count r + (e'.awaits.map Await.task).count r =
      (e.awaits.map Await.task).count r := by
  induction sources generalizing e batch with
  | nil =>
    cases h
    rw [ReactorEvent.resumables, List.count_nil, Nat.zero_add]
  | cons source sources ih =>
    simp only [reports] at h
    split at h
    next => cases h
    next event e₁ reported =>
      split at h
      next => cases h
      next batch₁ e₂ rest =>
        cases h
        have first := count_report reported batch₁ r
        have later := ih rest
        omega

end EpollReactor

namespace IsolatedWorker

theorem handled_running {w : IsolatedWorker} {r : UInt64} (running : w.phase = .running r) :
    r ∈ handled w.phase := by
  rw [running]
  exact List.mem_cons_self

theorem handled_pollFor (now ns : Int) : handled (pollFor now ns : IsolatedPhase) = [] := by
  unfold pollFor
  split
  next => rfl
  next => rfl

theorem count_tasks (w : IsolatedWorker) (r : UInt64) :
    w.tasks.count r = w.externalQueue.count r + w.readyQueue.count r + w.sleepQueue.count r +
      (w.reactor.awaits.map Await.task).count r + (handled w.phase).count r := by
  simp only [tasks, List.count_append]

theorem count_goTo (w : IsolatedWorker) (phase : IsolatedPhase) (r : UInt64) :
    (w.goTo phase).tasks.count r + (handled w.phase).count r =
      w.tasks.count r + (handled phase).count r := by
  rw [count_tasks, count_tasks]
  simp only [goTo]
  omega

theorem count_pushInternally (w : IsolatedWorker) (x r : UInt64) :
    (w.pushInternally x).tasks.count r = w.tasks.count r + if x = r then 1 else 0 := by
  simp only [count_tasks, pushInternally, List.count_append, List.count_cons, List.count_nil,
    beq_iff_eq]
  omega

theorem count_pushed (w : IsolatedWorker) (x r : UInt64) :
    { w with externalQueue := w.externalQueue ++ [x] }.tasks.count r =
      w.tasks.count r + if x = r then 1 else 0 := by
  simp only [count_tasks, List.count_append, List.count_cons, List.count_nil, beq_iff_eq]
  omega

theorem drainSleepLoop_frame (wakeupTime : UInt64 → Int) (now : Int) (w : IsolatedWorker) (xs : List UInt64) :
    (w.drainSleepLoop wakeupTime now xs).externalQueue = w.externalQueue ∧
      (w.drainSleepLoop wakeupTime now xs).reactor = w.reactor ∧
      (w.drainSleepLoop wakeupTime now xs).phase = w.phase := by
  induction xs generalizing w with
  | nil => exact ⟨rfl, rfl, rfl⟩
  | cons x xs ih =>
    unfold drainSleepLoop
    split
    next => exact ih (w.pushInternally x)
    next => exact ⟨rfl, rfl, rfl⟩

theorem count_drainSleepLoop (wakeupTime : UInt64 → Int) (now : Int) (w : IsolatedWorker) (xs : List UInt64)
    (r : UInt64) :
    (w.drainSleepLoop wakeupTime now xs).readyQueue.count r +
        (w.drainSleepLoop wakeupTime now xs).sleepQueue.count r =
      w.readyQueue.count r + xs.count r := by
  induction xs generalizing w with
  | nil => rfl
  | cons x xs ih =>
    unfold drainSleepLoop
    split
    next =>
      have later := ih (w.pushInternally x)
      simp only [pushInternally, List.count_append, List.count_cons, List.count_nil] at later ⊢
      omega
    next => rfl

theorem drainSleepLoop_suffix (wakeupTime : UInt64 → Int) (now : Int) (w : IsolatedWorker) (xs : List UInt64) :
    (w.drainSleepLoop wakeupTime now xs).sleepQueue <:+ xs := by
  induction xs generalizing w with
  | nil => exact List.suffix_rfl
  | cons x xs ih =>
    unfold drainSleepLoop
    split
    next => exact (ih (w.pushInternally x)).trans (List.suffix_cons x xs)
    next => exact List.suffix_rfl

theorem count_drainSleepQueue (wakeupTime : UInt64 → Int) (now : Int) (w : IsolatedWorker) (r : UInt64) :
    (w.drainSleepQueue wakeupTime now).tasks.count r = w.tasks.count r := by
  unfold drainSleepQueue
  split
  next =>
    obtain ⟨external, reactor, phase⟩ := drainSleepLoop_frame wakeupTime (now + 100000) w w.sleepQueue
    have moved := count_drainSleepLoop wakeupTime (now + 100000) w w.sleepQueue r
    rw [count_tasks, count_tasks, external, reactor, phase]
    omega
  next => rfl

theorem drainSleepQueue_phase (wakeupTime : UInt64 → Int) (now : Int) (w : IsolatedWorker) :
    (w.drainSleepQueue wakeupTime now).phase = w.phase := by
  unfold drainSleepQueue
  split
  next => exact (drainSleepLoop_frame wakeupTime (now + 100000) w w.sleepQueue).2.2
  next => rfl

theorem dropped_of_idle {w : IsolatedWorker} (idle : handled w.phase = []) : w.dropped = none := by
  unfold dropped
  split
  next r batch phase =>
    rw [phase] at idle
    cases idle
  next => rfl

theorem of_reported {w : IsolatedWorker} {r : UInt64} {batch : List ReactorEvent}
    (h : w.reported = some (r, batch)) : w.phase = .events (.task r :: batch) ∧ w.dropped = none := by
  unfold reported at h
  split at h
  next x rest phase =>
    split at h
    next => cases h
    next other =>
      cases h
      refine ⟨phase, ?_⟩
      rw [dropped, phase]
      exact if_neg other
  next => cases h

/-- An event that is told for one of the reactor's own: when a task is behind it, the task is in no
hands any more. -/
theorem count_own {w : IsolatedWorker} {event : ReactorEvent} {batch : List ReactorEvent}
    (phase : w.phase = .events (event :: batch)) (own : w.reactor.Own (w.reactor.dataFd event))
    (r : UInt64) : (w.goTo (.events batch)).tasks.count r + (if w.dropped = some r then 1 else 0) =
      w.tasks.count r := by
  have moved := count_goTo w (.events batch) r
  rw [phase] at moved
  cases event with
  | wakeup =>
    have kept : w.dropped = none := by rw [dropped, phase]
    rw [kept, if_neg (Option.some_ne_none r).symm]
    exact Nat.add_right_cancel moved
  | timer =>
    have kept : w.dropped = none := by rw [dropped, phase]
    rw [kept, if_neg (Option.some_ne_none r).symm]
    exact Nat.add_right_cancel moved
  | task x =>
    have lost : w.dropped = some x := by
      rw [dropped, phase]
      exact if_pos own
    rw [lost]
    simp only [handled, ReactorEvent.resumables, List.count_cons, beq_iff_eq] at moved
    simp only [Option.some.injEq]
    omega

/-- A worker moves its tasks about: it doubles none, and loses one at most. -/
theorem count_advance {wakeupTime : UInt64 → Int} {now : Int} {w w' : IsolatedWorker}
    (h : w.advance wakeupTime now = some w') (r : UInt64) :
    w'.tasks.count r + (if w.dropped = some r then 1 else 0) = w.tasks.count r := by
  have kept : handled w.phase = [] → w'.tasks.count r = w.tasks.count r →
      w'.tasks.count r + (if w.dropped = some r then 1 else 0) = w.tasks.count r := by
    intro idle same
    rw [dropped_of_idle idle, if_neg (Option.some_ne_none r).symm]
    exact same
  unfold advance at h
  split at h
  next phase =>
    refine kept (congrArg handled phase) ?_
    split at h
    next empty =>
      cases h
      have moved := count_goTo w .drainSleep r
      rw [phase] at moved
      exact Nat.add_right_cancel moved
    next x rest external =>
      cases h
      simp only [count_tasks, pushInternally, external, List.count_append, List.count_cons,
        List.count_nil]
      omega
  next phase =>
    refine kept (congrArg handled phase) ?_
    cases h
    have moved := count_goTo (w.drainSleepQueue wakeupTime now) .pollReactor r
    rw [count_drainSleepQueue, drainSleepQueue_phase, phase] at moved
    exact Nat.add_right_cancel moved
  next phase =>
    refine kept (congrArg handled phase) ?_
    cases h
    have moved := count_goTo w (pollFor now (if w.readyQueue = [] then w.nextWakeup - now else 0)) r
    rw [phase, handled_pollFor] at moved
    exact Nat.add_right_cancel moved
  next read ns phase =>
    refine kept (congrArg handled phase) ?_
    cases h
    simp only [count_tasks, goTo, phase, handled, EpollReactor.settime]
  next event batch phase =>
    split at h
    next wakeup =>
      cases h
      exact count_own phase (Or.inl wakeup) r
    next =>
      split at h
      next timer =>
        cases h
        exact count_own phase (Or.inr timer) r
      next => cases h
  next phase =>
    refine kept (congrArg handled phase) ?_
    split at h
    next empty =>
      cases h
      have moved := count_goTo w .drainExternal r
      rw [phase] at moved
      exact Nat.add_right_cancel moved
    next x rest ready =>
      cases h
      simp only [count_tasks, goTo, phase, ready, handled, ReactorEvent.resumables, List.count_cons,
        List.count_nil]
      omega
  next => cases h

theorem count_waited {now : Int} {w w' : IsolatedWorker} {sources : List ReadySource}
    (h : w.waited now sources = some w') (r : UInt64) : w'.tasks.count r = w.tasks.count r := by
  unfold waited at h
  split at h
  next phase =>
    split at h
    next => cases h
    next =>
      split at h
      next => cases h
      next batch e reported =>
        cases h
        have moved := EpollReactor.count_reports reported r
        simp only [count_tasks, goTo, phase, handled, List.count_nil]
        omega
  next => cases h

end IsolatedWorker

namespace Coordinator

theorem setWorker_self (s : Coordinator) (i : Nat) : s.setWorker i (s.workers i) = s := by
  unfold setWorker
  rw [Function.update_eq_self]

theorem scheduleOn_worker (s : Coordinator) (t : ScheduleThread) (j : Nat) (x : UInt64) :
    (s.scheduleOn t j x).worker = s.worker := by
  unfold scheduleOn
  split
  next => rfl
  next => rfl

theorem scheduleOn_blocked (s : Coordinator) (t : ScheduleThread) (j : Nat) (x : UInt64) :
    (s.scheduleOn t j x).blocked = s.blocked := by
  unfold scheduleOn
  split
  next => rfl
  next => rfl

theorem turn_some {s s' : Coordinator} {i : Nat} {act : UInt64 → IsolatedWorker → Option Coordinator}
    (h : s.turn i act = some s') :
    s.pushing (.worker i) = none ∧ ∃ r, (s.workers i).phase = .running r ∧
      act r (s.workers i) = some s' := by
  unfold turn current at h
  split at h
  next idle =>
    split at h
    next => cases h
    next r running =>
      split at running
      next x phase =>
        cases running
        exact ⟨idle, r, phase, h⟩
      next => cases running
  next => cases h

/-- How often a task is at a worker, with the channels' queues counted for the task's own one. -/
def places (s : Coordinator) (i : Nat) (r : UInt64) : Nat :=
  (s.workers i).tasks.count r + if s.worker r = some i then s.blocked.count r else 0

def owns (s : Coordinator) (i : Nat) (r : UInt64) : Nat := if s.worker r = some i then 1 else 0

/-- No task is in two places, or at a worker that it is not attached to. -/
structure Placed (s : Coordinator) : Prop where
  once : ∀ i r, s.places i r ≤ s.owns i r
  owned : ∀ r ∈ s.blocked, s.worker r ≠ none
  ordered : ∀ i, Ordered s.wakeupTime (s.workers i).sleepQueue

/-- Each task that is attached to a worker is in exactly one place. -/
def Keeps (s : Coordinator) : Prop := ∀ i r, s.places i r = s.owns i r

/-- The task waits for a descriptor that another one waits for, or until the time that another
one sleeps until, or its event passes for one of the reactor's own. In the first case the other
task is gone; in the second one the assertion in `sleep_for` fails. -/
def Loses (s : Coordinator) : CoordinatorAction → Prop
  | .advance i => (s.workers i).dropped.isSome = true
  | .await i fd _ => ∃ a ∈ (s.workers i).reactor.awaits, a.fd = fd
  | .sleepFor i ns => ∃ x ∈ (s.workers i).sleepQueue, s.wakeupTime x = s.now + ns
  | _ => False

instance (s : Coordinator) : (a : CoordinatorAction) → Decidable (s.Loses a)
  | .advance _ => inferInstanceAs (Decidable (_ = _))
  | .await i fd _ => inferInstanceAs (Decidable (∃ a ∈ (s.workers i).reactor.awaits, a.fd = fd))
  | .sleepFor i ns =>
    inferInstanceAs (Decidable (∃ x ∈ (s.workers i).sleepQueue, s.wakeupTime x = s.now + ns))
  | .tick _ | .schedule _ _ | .wakeup _ | .unblock _ _ | .waited _ _ | .interrupted _ | .spawn _ _
  | .enterQueue _ | .turnEnds _ _ => inferInstanceAs (Decidable False)

def lost (s : Coordinator) (a : CoordinatorAction) (i : Nat) (r : UInt64) : Nat :=
  match a with
  | .advance j => if i = j ∧ (s.workers j).dropped = some r then 1 else 0
  | .await j fd _ =>
    if i = j then
      (((s.workers j).reactor.awaits.filter (fun a => a.fd = fd)).map Await.task).count r
    else 0
  | .sleepFor j ns =>
    if i = j ∧ s.current j = some r ∧ ∃ x ∈ (s.workers j).sleepQueue, s.wakeupTime x = s.now + ns
    then 1 else 0
  | _ => 0

theorem Placed.owner {s : Coordinator} (h : s.Placed) {i : Nat} {r : UInt64}
    (here : 0 < (s.workers i).tasks.count r) :
    s.worker r = some i ∧ (s.workers i).tasks.count r = 1 ∧ r ∉ s.blocked := by
  have once := h.once i r
  unfold places owns at once
  have own : s.worker r = some i := by
    by_contra other
    rw [if_neg other, if_neg other] at once
    omega
  rw [if_pos own, if_pos own] at once
  refine ⟨own, by omega, ?_⟩
  exact List.count_eq_zero.mp (by omega)

theorem Placed.fresh {s : Coordinator} (h : s.Placed) {r : UInt64} (fresh : s.worker r = none) :
    r ∉ s.blocked ∧ ∀ i, (s.workers i).tasks.count r = 0 := by
  refine ⟨fun blocked => h.owned r blocked fresh, ?_⟩
  intro i
  by_contra here
  have own := (h.owner (Nat.pos_of_ne_zero here)).1
  rw [fresh] at own
  cases own

theorem tasks_setWorker (s : Coordinator) (j : Nat) (w : IsolatedWorker) (i : Nat) (r : UInt64) :
    ((s.setWorker j w).workers i).tasks.count r + (if i = j then (s.workers j).tasks.count r else 0) =
      (s.workers i).tasks.count r + if i = j then w.tasks.count r else 0 := by
  rcases eq_or_ne i j with rfl | other
  · simp only [setWorker, Function.update_self, if_true]
    omega
  · simp only [setWorker, Function.update_of_ne other, if_neg other]

theorem places_setWorker (s : Coordinator) (j : Nat) (w : IsolatedWorker) (i : Nat) (r : UInt64) :
    (s.setWorker j w).places i r + (if i = j then (s.workers j).tasks.count r else 0) =
      s.places i r + if i = j then w.tasks.count r else 0 := by
  have counted := tasks_setWorker s j w i r
  unfold places
  simp only [show (s.setWorker j w).worker = s.worker from rfl,
    show (s.setWorker j w).blocked = s.blocked from rfl]
  omega

theorem places_dropped {s : Coordinator} {j : Nat} {w : IsolatedWorker} {dropped : Option UInt64}
    (counted : ∀ r, w.tasks.count r + (if dropped = some r then 1 else 0) =
      (s.workers j).tasks.count r) (i : Nat) (r : UInt64) :
    (s.setWorker j w).places i r + (if i = j ∧ dropped = some r then 1 else 0) = s.places i r := by
  have moved := places_setWorker s j w i r
  rw [← counted r] at moved
  by_cases here : i = j
  · simp only [here, true_and, if_true] at moved ⊢
    omega
  · simp only [here, false_and, if_false] at moved ⊢
    exact moved

theorem places_kept {s : Coordinator} {j : Nat} {w : IsolatedWorker}
    (kept : ∀ r, w.tasks.count r = (s.workers j).tasks.count r) (i : Nat) (r : UInt64) :
    (s.setWorker j w).places i r = s.places i r := by
  have moved := places_setWorker s j w i r
  rw [kept r] at moved
  exact Nat.add_right_cancel moved

theorem tasks_scheduleOn (s : Coordinator) (t : ScheduleThread) (j : Nat) (x : UInt64) (i : Nat) (r : UInt64) :
    ((s.scheduleOn t j x).workers i).tasks.count r =
      (s.workers i).tasks.count r + if i = j ∧ x = r then 1 else 0 := by
  have moved : ∀ w : IsolatedWorker,
      w.tasks.count r = (s.workers j).tasks.count r + (if x = r then 1 else 0) →
      ((s.setWorker j w).workers i).tasks.count r =
        (s.workers i).tasks.count r + if i = j ∧ x = r then 1 else 0 := by
    intro w pushed
    have counted := tasks_setWorker s j w i r
    rw [pushed] at counted
    by_cases here : i = j
    · simp only [here, true_and, if_true] at counted ⊢
      omega
    · simp only [here, false_and, if_false] at counted ⊢
      omega
  unfold scheduleOn
  split
  next => exact moved _ (IsolatedWorker.count_pushInternally _ x r)
  next => exact moved _ (IsolatedWorker.count_pushed _ x r)

/-- A task that is not linked is only scheduled: the hooks of another worker's queues are left
alone. -/
theorem unblock_unlinked {s s' : Coordinator} {t : ScheduleThread} {x : UInt64}
    (h : s.unblock t x = some s')
    (unlinked : ∀ i, x ∉ (s.workers i).sleepQueue ∧ x ∉ (s.workers i).readyQueue) :
    ∃ j, s.worker x = some j ∧ s' = s.scheduleOn t j x := by
  unfold unblock at h
  split at h
  next => cases h
  next j own =>
    cases h
    refine ⟨j, own, ?_⟩
    rw [List.erase_of_not_mem (unlinked j).1, List.erase_of_not_mem (unlinked j).2]
    exact congrArg (fun s => s.scheduleOn t j x) (setWorker_self s j)

/-- A task in a queue of a worker is not in anyone's hands. -/
theorem Placed.linked {s : Coordinator} (h : s.Placed) {i : Nat} {r : UInt64}
    (linked : r ∈ (s.workers i).sleepQueue ∨ r ∈ (s.workers i).readyQueue) :
    s.worker r = some i ∧ r ∉ s.blocked ∧ r ∉ IsolatedWorker.handled (s.workers i).phase := by
  have counted := IsolatedWorker.count_tasks (s.workers i) r
  have positive : 0 < (s.workers i).sleepQueue.count r + (s.workers i).readyQueue.count r := by
    rcases linked with here | here
    · exact Nat.add_pos_left (List.count_pos_iff.mpr here) _
    · exact Nat.add_pos_right _ (List.count_pos_iff.mpr here)
  obtain ⟨own, once, free⟩ := h.owner (i := i) (r := r) (by omega)
  refine ⟨own, free, ?_⟩
  exact List.count_eq_zero.mp (by omega)

theorem Placed.unlinked_blocked {s : Coordinator} (h : s.Placed) {r : UInt64} (blocked : r ∈ s.blocked)
    (i : Nat) : r ∉ (s.workers i).sleepQueue ∧ r ∉ (s.workers i).readyQueue :=
  ⟨fun linked => (h.linked (Or.inl linked)).2.1 blocked,
    fun linked => (h.linked (Or.inr linked)).2.1 blocked⟩

theorem Placed.handled_owner {s : Coordinator} (h : s.Placed) {j : Nat} {r : UInt64}
    (handled : r ∈ IsolatedWorker.handled (s.workers j).phase) :
    s.worker r = some j ∧ (s.workers j).tasks.count r = 1 ∧ r ∉ s.blocked := by
  have counted := IsolatedWorker.count_tasks (s.workers j) r
  have here := List.count_pos_iff.mpr handled
  exact h.owner (by omega)

theorem Placed.unlinked_handled {s : Coordinator} (h : s.Placed) {j : Nat} {r : UInt64}
    (handled : r ∈ IsolatedWorker.handled (s.workers j).phase) (i : Nat) :
    r ∉ (s.workers i).sleepQueue ∧ r ∉ (s.workers i).readyQueue := by
  have own := (h.handled_owner handled).1
  have away : ¬ (r ∈ (s.workers i).sleepQueue ∨ r ∈ (s.workers i).readyQueue) := by
    intro linked
    obtain ⟨own', -, free⟩ := h.linked linked
    rw [own] at own'
    cases own'
    exact free handled
  exact ⟨fun linked => away (Or.inl linked), fun linked => away (Or.inr linked)⟩

/-- Nor when the worker has gone on to the other events. -/
theorem Placed.unlinked_reported {s : Coordinator} (h : s.Placed) {i : Nat} {r : UInt64}
    (handled : r ∈ IsolatedWorker.handled (s.workers i).phase) {batch : List ReactorEvent} (k : Nat) :
    r ∉ ((s.setWorker i ((s.workers i).goTo (.events batch))).workers k).sleepQueue ∧
      r ∉ ((s.setWorker i ((s.workers i).goTo (.events batch))).workers k).readyQueue := by
  have away := h.unlinked_handled handled k
  rcases eq_or_ne k i with rfl | other
  · simp only [setWorker, Function.update_self]
    exact away
  · simp only [setWorker, Function.update_of_ne other]
    exact away

/-- A new task is put into one queue of the worker that it is attached to. -/
theorem Placed.attach_balance {s s' : Coordinator} (h : s.Placed) {x : UInt64} (fresh : s.worker x = none)
    {j : Nat} {w : IsolatedWorker}
    (pushed : ∀ r, w.tasks.count r = (s.workers j).tasks.count r + if x = r then 1 else 0)
    (workers : s'.workers = (s.setWorker j w).workers) (blocked : s'.blocked = s.blocked)
    (worker : s'.worker = Function.update s.worker x (some j)) (i : Nat) (r : UInt64) :
    s'.places i r + s.owns i r = s.places i r + s'.owns i r := by
  obtain ⟨free, absent⟩ := h.fresh fresh
  have counted := tasks_setWorker s j w i r
  rw [pushed r] at counted
  unfold places owns
  rw [workers, blocked, worker]
  rcases eq_or_ne r x with rfl | other
  · rw [Function.update_self, fresh, List.count_eq_zero.mpr free]
    rw [absent i, absent j] at counted
    rw [absent i]
    simp only [if_true, Option.some.injEq] at counted ⊢
    by_cases here : i = j
    · simp only [here, if_true] at counted ⊢
      simp only [counted]
      rfl
    · rw [if_neg here, if_neg here] at counted
      simp only [if_neg (Ne.symm here), if_neg (Option.some_ne_none i).symm]
      omega
  · rw [Function.update_of_ne other]
    rw [if_neg (Ne.symm other), Nat.add_zero] at counted
    omega

theorem Placed.schedule_balance {s : Coordinator} (h : s.Placed) (t : ScheduleThread) {x : UInt64}
    (fresh : s.worker x = none) (i : Nat) (r : UInt64) :
    (s.centralSchedule t x).places i r + s.owns i r =
      s.places i r + (s.centralSchedule t x).owns i r := by
  refine h.attach_balance fresh (IsolatedWorker.count_pushed (s.workers (s.nextWorker % s.size)) x)
    ?_ ?_ ?_ i r
  · rfl
  · rfl
  · rfl

/-- What a step can do, in a state in which the hooks of a task that is unblocked are not linked. -/
inductive Takes (s : Coordinator) : CoordinatorAction → Coordinator → Prop
  | tick (ns : Nat) : Takes s (.tick ns) { s with now := s.now + ns }
  | schedule (t : ScheduleThread) (r : UInt64) (acts : s.Acts t) :
    Takes s (.schedule t r) (s.centralSchedule t r)
  | wakeup (t : ScheduleThread) (i : Nat) (r : UInt64) (writes : Nat)
    (pushing : s.pushing t = some ⟨i, r, writes⟩) :
    Takes s (.wakeup t)
      { s.setWorker i { s.workers i with reactor := (s.workers i).reactor.maybeWakeup } with
        pushing := Function.update s.pushing t
          (if writes ≤ 1 then none else some ⟨i, r, writes - 1⟩) }
  | unblock (t : ScheduleThread) (r : UInt64) (i : Nat) (acts : s.Acts t) (blocked : r ∈ s.blocked)
    (own : s.worker r = some i) :
    Takes s (.unblock t r) ({ s with blocked := s.blocked.erase r }.scheduleOn t i r)
  | report (i : Nat) (r : UInt64) (batch : List ReactorEvent)
    (phase : (s.workers i).phase = .events (.task r :: batch))
    (kept : (s.workers i).dropped = none) :
    Takes s (.advance i) (s.setWorker i (((s.workers i).goTo (.events batch)).pushInternally r))
  | advance (i : Nat) (w : IsolatedWorker)
    (done : (s.workers i).advance s.wakeupTime s.now = some w) : Takes s (.advance i) (s.setWorker i w)
  | waited (i : Nat) (sources : List ReadySource) (w : IsolatedWorker)
    (done : (s.workers i).waited s.now sources = some w) :
    Takes s (.waited i sources) (s.setWorker i w)
  | interrupted (i : Nat) (blocks : Option Int) (phase : (s.workers i).phase = .wait blocks) :
    Takes s (.interrupted i) (s.setWorker i ((s.workers i).goTo (.events [])))
  | spawn (i : Nat) (r x : UInt64) (running : (s.workers i).phase = .running x) :
    Takes s (.spawn i r)
      { s.setWorker i ((s.workers i).pushInternally r) with
        worker := Function.update s.worker r (some i) }
  | await (i : Nat) (fd : Int32) (type : PortType) (x : UInt64) (running : (s.workers i).phase = .running x) :
    Takes s (.await i fd type)
      (s.setWorker i
        ({ s.workers i with reactor := (s.workers i).reactor.await fd type x }.goTo (.blocking x)))
  | sleepFor (i : Nat) (ns : Int) (x : UInt64) (running : (s.workers i).phase = .running x) :
    Takes s (.sleepFor i ns)
      { s.setWorker i
          (((s.workers i).sleepUntil (Function.update s.wakeupTime x (s.now + ns)) x).goTo (.blocking x)) with
        wakeupTime := Function.update s.wakeupTime x (s.now + ns) }
  | enterQueue (i : Nat) (x : UInt64) (running : (s.workers i).phase = .running x) :
    Takes s (.enterQueue i)
      { s.setWorker i ((s.workers i).goTo (.blocking x)) with blocked := s.blocked ++ [x] }
  | yields (i : Nat) (x : UInt64) (blocking : (s.workers i).phase = .blocking x) :
    Takes s (.turnEnds i .blocked) (s.setWorker i ((s.workers i).goTo .drainExternal))
  | resumeLater (i : Nat) (x : UInt64) (running : (s.workers i).phase = .running x) :
    Takes s (.turnEnds i .resumeLater)
      (s.setWorker i (((s.workers i).pushInternally x).goTo .drainExternal))
  | destroy (i : Nat) (x : UInt64) (running : (s.workers i).phase = .running x) :
    Takes s (.turnEnds i .done)
      { s.setWorker i ((s.workers i).goTo .drainExternal) with
        worker := Function.update s.worker x none }

theorem Placed.takes {s s' : Coordinator} (h : s.Placed) {a : CoordinatorAction}
    (done : s.step a = some s') : s.Takes a s' := by
  cases a with
  | tick ns =>
    cases done
    exact .tick ns
  | schedule t r =>
    simp only [step] at done
    split at done
    next acts =>
      cases done
      exact .schedule t r acts.1
    next => cases done
  | wakeup t =>
    simp only [step] at done
    split at done
    next => cases done
    next i r writes pushing =>
      cases done
      exact .wakeup t i r writes pushing
  | unblock t r =>
    simp only [step] at done
    split at done
    next acts =>
      obtain ⟨i, own, rfl⟩ := unblock_unlinked done (h.unlinked_blocked acts.2)
      exact .unblock t r i acts.1 acts.2 own
    next => cases done
  | advance i =>
    simp only [step] at done
    split at done
    next =>
      split at done
      next r batch reported =>
        obtain ⟨phase, kept⟩ := IsolatedWorker.of_reported reported
        have handled : r ∈ IsolatedWorker.handled (s.workers i).phase := by
          rw [phase]
          exact List.mem_cons_self
        obtain ⟨j, own, rfl⟩ := unblock_unlinked done (h.unlinked_reported handled)
        have own' := (h.handled_owner handled).1
        rw [show s.worker r = some j from own] at own'
        cases own'
        have pushed := Takes.report i r batch phase kept
        simp only [scheduleOn, if_true, setWorker, Function.update_self, Function.update_idem]
        exact pushed
      next =>
        obtain ⟨w, advanced, rfl⟩ := Option.map_eq_some_iff.mp done
        exact .advance i w advanced
    next => cases done
  | waited i sources =>
    obtain ⟨w, waited, rfl⟩ := Option.map_eq_some_iff.mp done
    exact .waited i sources w waited
  | interrupted i =>
    simp only [step] at done
    split at done
    next blocks phase =>
      cases done
      exact .interrupted i blocks phase
    next => cases done
  | spawn i r =>
    simp only [step] at done
    obtain ⟨-, x, running, turn⟩ := turn_some done
    cases turn
    exact .spawn i r x running
  | await i fd type =>
    simp only [step] at done
    obtain ⟨-, x, running, turn⟩ := turn_some done
    cases turn
    exact .await i fd type x running
  | sleepFor i ns =>
    simp only [step] at done
    obtain ⟨-, x, running, turn⟩ := turn_some done
    cases turn
    exact .sleepFor i ns x running
  | enterQueue i =>
    simp only [step] at done
    obtain ⟨-, x, running, turn⟩ := turn_some done
    cases turn
    exact .enterQueue i x running
  | turnEnds i result =>
    simp only [step] at done
    split at done
    next =>
      split at done
      next _ x blocking =>
        cases done
        exact .yields i x blocking
      next _ x running =>
        cases done
        exact .resumeLater i x running
      next _ x running =>
        cases done
        exact .destroy i x running
      next => cases done
    next => cases done

end Coordinator

end XiRuntime
