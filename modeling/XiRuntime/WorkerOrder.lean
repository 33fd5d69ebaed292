import XiRuntime.WorkerKeeps

namespace XiRuntime

open Netpoller

namespace Worker

/-- The task that the next step takes from the ready queue. -/
def currentReady (w : Worker) : Option UInt64 :=
  if w.phase = .ready then w.readyQueue.head? else none

/-- Tasks of the ready queue are only resumed when there is none at a port. -/
def PortsFirst (w : Worker) : Prop := w.phase = .ready → w.netpoller.queue = []

variable {c : WorkerLimits} {w : Worker}

theorem blocked_queue (s : Netpoller.State) (type : PortType) (fd : Int32) (r : UInt64) :
    (s.blocked type fd r).queue = s.queue := by
  rw [State.blocked_eq]

/-- A visited task may go behind the ready ones, and touches neither ports nor phase. -/
theorem visit_ready (c : WorkerLimits) (w : Worker) (now : TimePoint) (r : UInt64)
    (result : ResumeResult) :
    ∃ added, (w.visit c now r result).readyQueue = w.readyQueue ++ added ∧
      (w.visit c now r result).netpoller.queue = w.netpoller.queue ∧
      (w.visit c now r result).phase = w.phase := by
  cases result with
  | port fd type => exact ⟨[], (List.append_nil _).symm, blocked_queue _ type fd r, rfl⟩
  | sleep duration =>
    simp only [visit, blockOnSleep]
    split
    next => exact ⟨[r], rfl, rfl, rfl⟩
    next => exact ⟨[], (List.append_nil _).symm, rfl, rfl⟩
  | reschedule => exact ⟨[r], rfl, rfl, rfl⟩
  | done => exact ⟨[], (List.append_nil _).symm, rfl, rfl⟩

/-- The early return leaves the queue alone, and the scan only adds to it. -/
theorem dequeueInto_added (s : LocalSleepQueue UInt64) (q : List UInt64) (cutoff : TimePoint) :
    ∃ added, (s.dequeueInto q cutoff).2 = q ++ added := by
  unfold LocalSleepQueue.dequeueInto
  split
  next => exact ⟨[], (List.append_nil _).symm⟩
  next =>
    generalize s.wakeupTime = wakeupTime
    induction s.queue generalizing q wakeupTime with
    | nil => exact ⟨[], (List.append_nil _).symm⟩
    | cons i rest ih =>
      unfold LocalSleepQueue.drain
      split
      next => exact ⟨[], (List.append_nil _).symm⟩
      next =>
        obtain ⟨added, more⟩ := ih (q ++ [i]) (Function.update wakeupTime i ⊤)
        exact ⟨i :: added, by rw [more, List.append_assoc, List.singleton_append]⟩

/-- A step takes its task off the front of the ready queue, and adds at its end. -/
theorem advance_ready (c : WorkerLimits) (w : Worker) (e : Reading) :
    ∃ added, w.currentReady.toList ++ (w.advance c e).readyQueue = w.readyQueue ++ added := by
  have none : ∀ {p}, w.phase = p → p ≠ .ready → w.currentReady.toList = [] := by
    intro p phase other
    rw [currentReady, phase, if_neg other, Option.toList_none]
  cases phase : w.phase with
  | centralSchedule =>
    rw [none phase (by decide), List.nil_append]
    simp only [advance, phase]
    refine ⟨w.schedulerQueue.take c.schedulerDequeueMax.toNat, ?_⟩
    unfold scheduleCentrally
    split
    next => split <;> rfl
    next => rfl
  | idle =>
    rw [none phase (by decide), List.nil_append]
    simp only [advance, phase]
    exact ⟨[], (List.append_nil _).symm⟩
  | poll =>
    rw [none phase (by decide), List.nil_append]
    simp only [advance, phase]
    split
    next => exact dequeueInto_added w.localSleepQueue w.readyQueue e.now
    next => exact ⟨[], (List.append_nil _).symm⟩
  | ports =>
    rw [none phase (by decide), List.nil_append]
    cases queue : w.netpoller.queue with
    | nil =>
      simp only [advance, phase, queue]
      exact ⟨[], (List.append_nil _).symm⟩
    | cons r rest =>
      rw [advance_port e phase queue]
      obtain ⟨added, ready, -, -⟩ := visit_ready c
        { w with netpoller := { w.netpoller with queue := rest }, spins := 0 } e.now r e.result
      exact ⟨added, ready⟩
  | ready =>
    cases queue : w.readyQueue with
    | nil =>
      have same : (w.advance c e).readyQueue = w.readyQueue := by
        simp only [advance, phase, queue, endRound]
        split
        next => rfl
        next => rfl
      rw [same, currentReady, if_pos phase, queue]
      exact ⟨[], rfl⟩
    | cons r rest =>
      rw [advance_task e phase queue, currentReady, if_pos phase, queue]
      obtain ⟨added, ready, -, -⟩ := visit_ready c { w with readyQueue := rest } e.now r e.result
      exact ⟨added, congrArg (r :: ·) ready⟩

theorem adjustLoop_phase (w : Worker) (tsc : UInt64) :
    (w.adjustLoop tsc).phase = w.phase ∨ (w.adjustLoop tsc).phase = .poll := by
  simp only [adjustLoop]
  split
  next => exact .inl rfl
  next => exact .inr rfl

theorem scheduleCentrally_phase (c : WorkerLimits) (w : Worker) (tsc : UInt64) :
    (w.scheduleCentrally c tsc).phase ≠ .ready := by
  unfold scheduleCentrally
  split
  next =>
    split
    next => exact fun same => by cases same
    next => exact fun same => by cases same
  next => exact fun same => by cases same

theorem endRound_phase (c : WorkerLimits) (w : Worker) : (w.endRound c).phase ≠ .ready := by
  unfold endRound
  split
  next => exact fun same => by cases same
  next => exact fun same => by cases same

/-- The loop over the ready queue is reached when the port queue is empty, and only a poll fills
that one again. -/
theorem advance_portsFirst (h : w.PortsFirst) (e : Reading) : (w.advance c e).PortsFirst := by
  intro next
  cases phase : w.phase with
  | centralSchedule =>
    simp only [advance, phase] at next
    exact absurd next (scheduleCentrally_phase c w e.startTsc)
  | idle =>
    simp only [advance, phase] at next
    cases next
  | poll =>
    simp only [advance, phase] at next
    split at next
    next => cases next
    next => cases next
  | ports =>
    cases queue : w.netpoller.queue with
    | nil =>
      simp only [advance, phase, queue]
    | cons r rest =>
      rw [advance_port e phase queue] at next
      obtain ⟨-, -, -, same⟩ := visit_ready c
        { w with netpoller := { w.netpoller with queue := rest }, spins := 0 } e.now r e.result
      rcases adjustLoop_phase _ e.currTsc with stays | leaves
      · rw [stays, same] at next
        exact absurd (phase.symm.trans next) (by decide)
      · rw [leaves] at next
        cases next
  | ready =>
    cases queue : w.readyQueue with
    | nil =>
      simp only [advance, phase, queue] at next
      exact absurd next (endRound_phase c w)
    | cons r rest =>
      rw [advance_task e phase queue]
      obtain ⟨-, -, ports, -⟩ := visit_ready c { w with readyQueue := rest } e.now r e.result
      exact ports.trans (h phase)

end Worker

namespace WorkerRun

/-- The tasks that a run resumes from the ready queue. -/
def resumedReady (c : WorkerLimits) (s : WorkerRun) : List WorkerEvent → List UInt64
  | [] => []
  | .spawn r :: events => (s.step c (.spawn r)).resumedReady c events
  | .advance e :: events =>
    s.worker.currentReady.toList ++ (s.step c (.advance e)).resumedReady c events

theorem resumedReady_queue (c : WorkerLimits) (s : WorkerRun) (events : List WorkerEvent) :
    ∃ added, s.resumedReady c events ++ (runFrom (step c) s events).worker.readyQueue =
      s.worker.readyQueue ++ added := by
  induction events generalizing s with
  | nil => exact ⟨[], (List.append_nil _).symm⟩
  | cons event events ih =>
    obtain ⟨later, rest⟩ := ih (s.step c event)
    cases event with
    | spawn r => exact ⟨later, rest⟩
    | advance e =>
      obtain ⟨added, now⟩ := s.worker.advance_ready c e
      refine ⟨added ++ later, ?_⟩
      have worker : (s.step c (.advance e)).worker = s.worker.advance c e := rfl
      rw [worker] at rest
      show s.worker.currentReady.toList ++ (s.step c (.advance e)).resumedReady c events ++
        (runFrom (step c) (s.step c (.advance e)) events).worker.readyQueue = _
      rw [List.append_assoc, rest, ← List.append_assoc, now, List.append_assoc]

theorem run_portsFirst (c : WorkerLimits) (wakeupFd : Int32) (upper : UInt64)
    (events : List WorkerEvent) : (run c wakeupFd upper events).worker.PortsFirst := by
  have all : ∀ n, (run c wakeupFd upper (events.take n)).worker.PortsFirst := by
    apply Runs.invariant (P := fun s : WorkerRun => s.worker.PortsFirst)
    · intro _
      rfl
    · intro n event _ first
      cases event with
      | spawn r => exact first
      | advance e => exact Worker.advance_portsFirst first e
  have last := all events.length
  rwa [List.take_length] at last

/-- However tasks arrive, wake up and are put back, the tasks of the ready queue are resumed in
the order in which they stand there, each while no task is at a port. -/
theorem ready_served_in_order (c : WorkerLimits) (wakeupFd : Int32) (upper : UInt64)
    (before after : List WorkerEvent) :
    (∀ k, k < ((run c wakeupFd upper before).resumedReady c after).length →
      ∀ r, (run c wakeupFd upper before).worker.readyQueue[k]? = some r →
        ((run c wakeupFd upper before).resumedReady c after)[k]? = some r) ∧
      ((run c wakeupFd upper before).worker.currentReady ≠ none →
        (run c wakeupFd upper before).worker.netpoller.queue = []) := by
  constructor
  · intro k resumed r queued
    obtain ⟨added, order⟩ := resumedReady_queue c (run c wakeupFd upper before) after
    obtain ⟨inside, -⟩ := List.getElem?_eq_some_iff.mp queued
    rw [← List.getElem?_append_left resumed, order, List.getElem?_append_left inside]
    exact queued
  · intro current
    apply run_portsFirst c wakeupFd upper before
    by_contra other
    rw [Worker.currentReady, if_neg other] at current
    exact current rfl

end WorkerRun

end XiRuntime
