import XiRuntime.Worker

namespace XiRuntime

open Netpoller

namespace Netpoller.State

variable {s : Netpoller.State}

end Netpoller.State

namespace Worker

variable {c : WorkerLimits} {w w' : Worker} {alive left : List UInt64} {r : UInt64}

/-- The two kinds of step that resume a task. -/
theorem advance_port (e : Reading) {rest : List UInt64} (phase : w.phase = .ports)
    (queue : w.netpoller.queue = r :: rest) :
    w.advance c e =
      ({ w with netpoller := { w.netpoller with queue := rest }, spins := 0 }.visit c e.now r
        e.result).adjustLoop e.currTsc := by
  simp only [advance, phase, queue]

theorem advance_task (e : Reading) {rest : List UInt64} (phase : w.phase = .ready)
    (queue : w.readyQueue = r :: rest) :
    w.advance c e = ({ w with readyQueue := rest }.visit c e.now r e.result).adjustLoop e.currTsc := by
  simp only [advance, phase, queue]

theorem count_tasks (w : Worker) (r : UInt64) :
    w.tasks.count r = w.schedulerQueue.count r + w.netpoller.queue.count r + w.readyQueue.count r +
      w.localSleepQueue.queue.count r + (w.netpoller.waiting.map Wait.task).count r := by
  simp only [tasks, List.count_append]

/-- What the worker keeps depends on where its tasks are. -/
theorem Keeps.moved (h : w.Keeps left) (count : ∀ x, w'.tasks.count x = if x ∈ alive then 1 else 0)
    (asleep : w'.localSleepQueue = w.localSleepQueue) (epoll : w'.netpoller.epoll = w.netpoller.epoll)
    (waiting : w'.netpoller.waiting = w.netpoller.waiting)
    (wakeupFd : w'.netpoller.wakeupFd = w.netpoller.wakeupFd) : w'.Keeps alive := by
  refine ⟨count, asleep ▸ h.asleep, ?_, ?_⟩
  · unfold State.Registered
    rw [waiting, epoll]
    exact h.registered
  · unfold State.Armed
    rw [waiting, epoll, wakeupFd]
    exact h.armed

/-- The task that is resumed is in no place while it runs. -/
theorem Keeps.dequeue (h : w.Keeps alive)
    (count : ∀ x, w.tasks.count x = w'.tasks.count x + if r = x then 1 else 0)
    (asleep : w'.localSleepQueue = w.localSleepQueue) (epoll : w'.netpoller.epoll = w.netpoller.epoll)
    (waiting : w'.netpoller.waiting = w.netpoller.waiting)
    (wakeupFd : w'.netpoller.wakeupFd = w.netpoller.wakeupFd) :
    r ∈ alive ∧ w'.Keeps (alive.filter (fun x => x ≠ r)) := by
  have mem : r ∈ alive := by
    by_contra dead
    have here := count r
    rw [h.once r, if_neg dead, if_pos rfl] at here
    omega
  refine ⟨mem, h.moved ?_ asleep epoll waiting wakeupFd⟩
  intro x
  have here := count x
  rw [h.once x] at here
  by_cases same : r = x
  · subst same
    rw [if_pos mem, if_pos rfl] at here
    rw [if_neg (by simp)]
    omega
  · rw [if_neg same] at here
    simp only [List.mem_filter, decide_eq_true_eq, Ne.symm same, ne_eq, not_false_eq_true, and_true]
    omega

/-- A task that was resumed is put somewhere. -/
theorem Keeps.count_put (h : w.Keeps (alive.filter (fun x => x ≠ r))) (mem : r ∈ alive)
    (count : ∀ x, w'.tasks.count x = w.tasks.count x + if r = x then 1 else 0) (x : UInt64) :
    w'.tasks.count x = if x ∈ alive then 1 else 0 := by
  rw [count x, h.once x]
  by_cases same : r = x
  · subst same
    simp [mem]
  · simp [same, Ne.symm same]

theorem Keeps.ready (h : w.Keeps (alive.filter (fun x => x ≠ r))) (mem : r ∈ alive) :
    { w with readyQueue := w.readyQueue ++ [r] }.Keeps alive := by
  refine h.moved (h.count_put mem ?_) rfl rfl rfl rfl
  intro x
  simp only [count_tasks, List.count_append, List.count_singleton, beq_iff_eq]
  omega

theorem Keeps.absent (h : w.Keeps (alive.filter (fun x => x ≠ r))) :
    r ∉ w.localSleepQueue.queue ∧ r ∉ w.netpoller.waiting.map Wait.task := by
  have none := h.once r
  rw [count_tasks, if_neg (by simp)] at none
  exact ⟨List.count_eq_zero.mp (by omega), List.count_eq_zero.mp (by omega)⟩

theorem Keeps.dequeueInto (h : w.Keeps alive) (n : Nat) : (w.dequeueInto n).Keeps alive := by
  refine h.moved ?_ rfl rfl rfl rfl
  intro x
  have parts : w.schedulerQueue.count x =
      (w.schedulerQueue.take n).count x + (w.schedulerQueue.drop n).count x := by
    rw [← List.count_append, List.take_append_drop]
  rw [← h.once x, count_tasks, count_tasks, parts]
  simp only [Worker.dequeueInto, List.count_append]
  omega

theorem Keeps.scheduleCentrally (h : w.Keeps alive) (tsc : UInt64) :
    (w.scheduleCentrally c tsc).Keeps alive := by
  have next := h.dequeueInto c.schedulerDequeueMax.toNat
  unfold Worker.scheduleCentrally
  split
  next =>
    split
    next => exact next.moved next.once rfl rfl rfl rfl
    next => exact next.moved next.once rfl rfl rfl rfl
  next => exact next.moved next.once rfl rfl rfl rfl

theorem Keeps.endRound (h : w.Keeps alive) : (w.endRound c).Keeps alive := by
  unfold Worker.endRound
  split
  next => exact h.moved h.once rfl rfl rfl rfl
  next => exact h.moved h.once rfl rfl rfl rfl

end Worker

namespace WorkerRun

variable {c : WorkerLimits} {s : WorkerRun}

/-- Two tasks are spawned; one then waits to read and the other sleeps. -/
def reading (result : ResumeResult) : Reading := ⟨0, 0, ⟨1000, by decide, by decide⟩, [], result⟩

end WorkerRun

end XiRuntime
