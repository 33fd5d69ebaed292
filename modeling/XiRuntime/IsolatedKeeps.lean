import XiRuntime.IsolatedPlaces

namespace XiRuntime

open IntrusiveSet

namespace IsolatedWorker

theorem drainSleepQueue_suffix (wakeupTime : UInt64 → Int) (now : Int) (w : IsolatedWorker) :
    (w.drainSleepQueue wakeupTime now).sleepQueue <:+ w.sleepQueue := by
  unfold drainSleepQueue
  split
  next => exact drainSleepLoop_suffix wakeupTime (now + 100000) w w.sleepQueue
  next => exact List.suffix_rfl

theorem advance_suffix {wakeupTime : UInt64 → Int} {now : Int} {w w' : IsolatedWorker}
    (h : w.advance wakeupTime now = some w') : w'.sleepQueue <:+ w.sleepQueue := by
  unfold advance at h
  split at h
  next =>
    split at h
    next =>
      cases h
      exact List.suffix_rfl
    next =>
      cases h
      exact List.suffix_rfl
  next =>
    cases h
    exact drainSleepQueue_suffix wakeupTime now w
  next =>
    cases h
    exact List.suffix_rfl
  next =>
    cases h
    exact List.suffix_rfl
  next =>
    split at h
    next =>
      cases h
      exact List.suffix_rfl
    next =>
      split at h
      next =>
        cases h
        exact List.suffix_rfl
      next => cases h
  next =>
    split at h
    next =>
      cases h
      exact List.suffix_rfl
    next =>
      cases h
      exact List.suffix_rfl
  next => cases h

theorem waited_sleepQueue {now : Int} {w w' : IsolatedWorker}
    {sources : List ReadySource} (h : w.waited now sources = some w') :
    w'.sleepQueue = w.sleepQueue := by
  unfold waited at h
  split at h
  next =>
    split at h
    next => cases h
    next =>
      split at h
      next => cases h
      next =>
        cases h
        rfl
  next => cases h

end IsolatedWorker

namespace Coordinator

theorem places_unblock {s : Coordinator} {t : ScheduleThread} {x : UInt64} {j : Nat}
    (blocked : x ∈ s.blocked) (own : s.worker x = some j) (i : Nat) (r : UInt64) :
    ({ s with blocked := s.blocked.erase x }.scheduleOn t j x).places i r = s.places i r := by
  have away : (s.blocked.erase x).count r = s.blocked.count r - if x = r then 1 else 0 := by
    rw [List.count_erase]
    simp only [beq_iff_eq]
  have waits := List.count_pos_iff.mpr blocked
  unfold places
  rw [tasks_scheduleOn, scheduleOn_worker, scheduleOn_blocked]
  simp only [away]
  rcases eq_or_ne x r with rfl | other
  · rw [own]
    by_cases here : i = j
    · simp only [here, true_and, if_true]
      omega
    · simp only [Option.some.injEq, here, Ne.symm here, false_and, if_false]
  · simp only [other, and_false, if_false, Nat.sub_zero]
    omega

theorem places_await {s : Coordinator} (i : Nat) {x : UInt64}
    (phase : (s.workers i).phase = .running x) (fd : Int32) (type : PortType) (k : Nat) (r : UInt64) :
    (s.setWorker i ({ s.workers i with reactor := (s.workers i).reactor.await fd type x }.goTo
        (.blocking x))).places k r + s.lost (.await i fd type) k r = s.places k r := by
  have moved := places_setWorker s i
    ({ s.workers i with reactor := (s.workers i).reactor.await fd type x }.goTo (.blocking x)) k r
  have perm := (List.filter_append_perm (fun a => decide (a.fd = fd)) (s.workers i).reactor.awaits).map
    Await.task
  have parts := perm.count_eq r
  rw [List.map_append, List.count_append] at parts
  have counted : ({ s.workers i with reactor := (s.workers i).reactor.await fd type x }.goTo
      (.blocking x)).tasks.count r +
        (((s.workers i).reactor.awaits.filter (fun a => a.fd = fd)).map Await.task).count r =
      (s.workers i).tasks.count r := by
    simp only [IsolatedWorker.count_tasks, IsolatedWorker.goTo, phase, IsolatedWorker.handled,
      EpollReactor.await, List.map_cons, List.count_cons, List.count_nil, decide_not, beq_iff_eq]
    omega
  rw [← counted] at moved
  unfold lost
  by_cases here : k = i
  · simp only [here, if_true] at moved ⊢
    omega
  · simp only [here, if_false] at moved ⊢
    omega

/-- The wake-up times by which a worker's queue is ordered do not change with that of a task
elsewhere. -/
theorem Placed.ordered_sleeping {s : Coordinator} (h : s.Placed) {i : Nat} {x : UInt64}
    (running : (s.workers i).phase = .running x) (time : Int) (k : Nat) :
    Ordered (Function.update s.wakeupTime x time) (s.workers k).sleepQueue := by
  have handled := IsolatedWorker.handled_running running
  refine (h.ordered k).congr ?_
  intro y hy
  have other : y ≠ x := by
    rintro rfl
    exact (h.unlinked_handled handled k).1 hy
  rw [Function.update_of_ne other]

theorem Placed.places_sleepFor {s : Coordinator} (h : s.Placed) {i : Nat} {x : UInt64}
    (phase : (s.workers i).phase = .running x) (ns : Int) (k : Nat) (r : UInt64) :
    (s.setWorker i (((s.workers i).sleepUntil (Function.update s.wakeupTime x (s.now + ns)) x).goTo
        (.blocking x))).places k r + s.lost (.sleepFor i ns) k r = s.places k r := by
  have handled := IsolatedWorker.handled_running phase
  have away := h.unlinked_handled handled i
  have ordered := h.ordered_sleeping phase (s.now + ns) i
  have moved := places_setWorker s i
    (((s.workers i).sleepUntil (Function.update s.wakeupTime x (s.now + ns)) x).goTo (.blocking x)) k r
  have current : s.current i = some x := by rw [Coordinator.current, phase]
  have same : ∀ y ∈ (s.workers i).sleepQueue,
      Function.update s.wakeupTime x (s.now + ns) y = s.wakeupTime y := by
    intro y hy
    exact Function.update_of_ne (ne_of_mem_of_not_mem hy away.1) _ _
  have counted : (((s.workers i).sleepUntil (Function.update s.wakeupTime x (s.now + ns)) x).goTo
      (.blocking x)).tasks.count r + s.lost (.sleepFor i ns) i r =
      (s.workers i).tasks.count r := by
    simp only [IsolatedWorker.count_tasks, IsolatedWorker.goTo, IsolatedWorker.sleepUntil, lost, phase,
      current,
      IsolatedWorker.handled, List.erase_of_not_mem away.2, Option.some.injEq, true_and,
      List.count_cons, List.count_nil, beq_iff_eq]
    by_cases tied : ∃ y ∈ (s.workers i).sleepQueue, s.wakeupTime y = s.now + ns
    · rw [insertUnique_of_tied ordered]
      · simp only [tied, and_true]
        omega
      · obtain ⟨y, hy, equal⟩ := tied
        exact ⟨y, hy, by rw [same y hy, equal, Function.update_self]⟩
    · have perm : (insertUnique (Function.update s.wakeupTime x (s.now + ns)) x
          (s.workers i).sleepQueue).Perm (x :: (s.workers i).sleepQueue) := by
        refine insertUnique_perm ?_
        intro y hy equal
        rw [same y hy, Function.update_self] at equal
        exact tied ⟨y, hy, equal⟩
      rw [perm.count_eq, List.count_cons]
      simp only [tied, and_false, if_false, beq_iff_eq]
      omega
  rw [← counted] at moved
  by_cases here : k = i
  · subst here
    simp only [if_true] at moved
    omega
  · have none' : s.lost (.sleepFor i ns) k r = 0 := by simp only [lost, here, false_and, if_false]
    simp only [here, if_false] at moved
    omega

theorem places_report {s : Coordinator} {i : Nat} {x : UInt64} {batch : List ReactorEvent}
    (phase : (s.workers i).phase = .events (.task x :: batch)) (k : Nat) (r : UInt64) :
    (s.setWorker i (((s.workers i).goTo (.events batch)).pushInternally x)).places k r =
      s.places k r := by
  refine places_kept ?_ k r
  intro r
  have counted := IsolatedWorker.count_goTo (s.workers i) (.events batch) r
  rw [IsolatedWorker.count_pushInternally]
  simp only [phase, IsolatedWorker.handled, ReactorEvent.resumables, List.count_cons,
    beq_iff_eq] at counted
  omega

theorem places_wakeup (s : Coordinator) (i k : Nat) (r : UInt64) :
    (s.setWorker i { s.workers i with reactor := (s.workers i).reactor.maybeWakeup }).places k r =
      s.places k r := by
  refine places_kept ?_ k r
  intro r
  have same : (s.workers i).reactor.maybeWakeup.awaits = (s.workers i).reactor.awaits := by
    unfold EpollReactor.maybeWakeup
    split
    next => rfl
    next => rfl
  simp only [IsolatedWorker.count_tasks, same]

/-- Putting a task down from the hands of its worker. -/
theorem places_putDown {s : Coordinator} {i : Nat} {x : UInt64} (running : (s.workers i).phase = .running x)
    (phase : IsolatedPhase) (empty : IsolatedWorker.handled phase = []) (k : Nat) (r : UInt64) :
    (s.setWorker i ((s.workers i).goTo phase)).places k r + (if k = i ∧ x = r then 1 else 0) =
      s.places k r := by
  have down := @places_dropped s i ((s.workers i).goTo phase) (some x)
  simp only [Option.some.injEq] at down
  refine down ?_ k r
  intro r
  have counted := IsolatedWorker.count_goTo (s.workers i) phase r
  rw [empty, running] at counted
  simpa only [IsolatedWorker.handled, List.count_cons, List.count_nil, beq_iff_eq, Nat.zero_add,
    Nat.add_zero] using counted

theorem Placed.places_enterQueue {s : Coordinator} (h : s.Placed) {i : Nat} {x : UInt64}
    (running : (s.workers i).phase = .running x) (k : Nat) (r : UInt64) :
    { s.setWorker i ((s.workers i).goTo (.blocking x)) with blocked := s.blocked ++ [x] }.places k r =
      s.places k r := by
  have handled := IsolatedWorker.handled_running running
  have own := (h.handled_owner handled).1
  have down := places_putDown running (.blocking x) rfl k r
  unfold places at down ⊢
  simp only [setWorker, List.count_append, List.count_cons, List.count_nil, beq_iff_eq] at down ⊢
  rcases eq_or_ne x r with rfl | other
  · simp only [own, Option.some.injEq, eq_comm (a := i)] at down ⊢
    by_cases here : k = i
    · simp only [here, and_self, if_true] at down ⊢
      omega
    · simp only [here, false_and, if_false] at down ⊢
      omega
  · simp only [other, and_false, if_false, Nat.add_zero] at down ⊢
    exact down

theorem places_congr {s s' : Coordinator} {k : Nat} {r : UInt64} (workers : s'.workers k = s.workers k)
    (blocked : s'.blocked = s.blocked) (worker : s'.worker r = s.worker r) :
    s'.places k r = s.places k r := by
  unfold places
  rw [workers, blocked, worker]

theorem owns_congr {s s' : Coordinator} (k : Nat) {r : UInt64} (worker : s'.worker r = s.worker r) :
    s'.owns k r = s.owns k r := by
  unfold owns
  rw [worker]

theorem Placed.destroy_balance {s : Coordinator} (h : s.Placed) {i : Nat} {x : UInt64}
    (running : (s.workers i).phase = .running x) (k : Nat) (r : UInt64) :
    { s.setWorker i ((s.workers i).goTo .drainExternal) with
        worker := Function.update s.worker x none }.places k r + s.owns k r =
      s.places k r + { s.setWorker i ((s.workers i).goTo .drainExternal) with
        worker := Function.update s.worker x none }.owns k r := by
  have handled := IsolatedWorker.handled_running running
  obtain ⟨own, -, free⟩ := h.handled_owner handled
  have down := places_putDown running .drainExternal rfl k r
  rcases eq_or_ne r x with rfl | other
  · unfold places owns at *
    simp only [setWorker] at down ⊢
    rw [List.count_eq_zero.mpr free] at down ⊢
    simp only [own, Function.update_self, Option.some.injEq, eq_comm (a := i), and_true] at down ⊢
    by_cases here : k = i
    · simp only [here, if_true] at down ⊢
      simp only [reduceCtorEq, if_false]
      omega
    · simp only [here, if_false] at down ⊢
      simp only [reduceCtorEq, if_false]
      omega
  · have worker : Function.update s.worker x none r = s.worker r := Function.update_of_ne other _ _
    have moved : { s.setWorker i ((s.workers i).goTo .drainExternal) with
        worker := Function.update s.worker x none }.places k r =
        (s.setWorker i ((s.workers i).goTo .drainExternal)).places k r :=
      places_congr rfl rfl worker
    have owned : { s.setWorker i ((s.workers i).goTo .drainExternal) with
        worker := Function.update s.worker x none }.owns k r = s.owns k r :=
      owns_congr k worker
    rw [if_neg (fun both => other both.2.symm), Nat.add_zero] at down
    rw [moved, owned, down]

/-- What is at a worker, and what the step loses there, is what was at it before, but for tasks
that are new or done. -/
theorem Placed.step_balance {s s' : Coordinator} (h : s.Placed) {a : CoordinatorAction}
    (admits : s.Admits a) (done : s.Takes a s') (k : Nat) (r : UInt64) :
    s'.places k r + s.lost a k r + s.owns k r = s.places k r + s'.owns k r := by
  cases done with
  | tick ns => rfl
  | schedule t x acts => exact h.schedule_balance t admits k r
  | wakeup t i x writes pushing => exact congrArg (· + s.owns k r) (places_wakeup s i k r)
  | unblock t x i acts blocked own =>
    have same := places_unblock (t := t) blocked own k r
    unfold owns
    rw [same, scheduleOn_worker]
    rfl
  | report i x batch phase kept =>
    have none' : s.lost (.advance i) k r = 0 := by
      rw [lost, kept]
      exact if_neg (fun both => (Option.some_ne_none r).symm both.2)
    rw [none']
    exact congrArg (· + s.owns k r) (places_report phase k r)
  | advance i w done =>
    exact congrArg (· + s.owns k r) (places_dropped (IsolatedWorker.count_advance done) k r)
  | waited i sources w done =>
    exact congrArg (· + s.owns k r) (places_kept (IsolatedWorker.count_waited done) k r)
  | interrupted i blocks phase =>
    have kept : ∀ r, ((s.workers i).goTo (.events [])).tasks.count r = (s.workers i).tasks.count r := by
      intro r
      have counted := IsolatedWorker.count_goTo (s.workers i) (.events []) r
      rw [phase] at counted
      exact Nat.add_right_cancel counted
    exact congrArg (· + s.owns k r) (places_kept kept k r)
  | spawn i x y running =>
    refine h.attach_balance admits (IsolatedWorker.count_pushInternally (s.workers i) x) ?_ ?_ ?_ k r
    · rfl
    · rfl
    · rfl
  | await i fd type x running =>
    exact congrArg (· + s.owns k r) (places_await i running fd type k r)
  | sleepFor i ns x running =>
    exact congrArg (· + s.owns k r) (h.places_sleepFor running ns k r)
  | enterQueue i x running => exact congrArg (· + s.owns k r) (h.places_enterQueue running k r)
  | yields i x blocking =>
    have kept : ∀ r, ((s.workers i).goTo .drainExternal).tasks.count r = (s.workers i).tasks.count r := by
      intro r
      have counted := IsolatedWorker.count_goTo (s.workers i) .drainExternal r
      rw [blocking] at counted
      exact Nat.add_right_cancel counted
    exact congrArg (· + s.owns k r) (places_kept kept k r)
  | resumeLater i x running =>
    have kept : ∀ r, (((s.workers i).pushInternally x).goTo .drainExternal).tasks.count r =
        (s.workers i).tasks.count r := by
      intro r
      have counted := IsolatedWorker.count_goTo ((s.workers i).pushInternally x) .drainExternal r
      rw [IsolatedWorker.count_pushInternally] at counted
      simp only [IsolatedWorker.pushInternally, running, IsolatedWorker.handled, List.count_cons,
        List.count_nil, beq_iff_eq] at counted ⊢
      omega
    exact congrArg (· + s.owns k r) (places_kept kept k r)
  | destroy i x running => exact h.destroy_balance running k r

theorem ordered_update {workers : Nat → IsolatedWorker} {wakeupTime : UInt64 → Int}
    (h : ∀ k, Ordered wakeupTime (workers k).sleepQueue) {i : Nat} {w : IsolatedWorker}
    (hw : Ordered wakeupTime w.sleepQueue) (k : Nat) :
    Ordered wakeupTime (Function.update workers i w k).sleepQueue := by
  rcases eq_or_ne k i with rfl | other
  · rw [Function.update_self]
    exact hw
  · rw [Function.update_of_ne other]
    exact h k

theorem Placed.step_ordered {s s' : Coordinator} (h : s.Placed) {a : CoordinatorAction}
    (done : s.Takes a s') (k : Nat) : Ordered s'.wakeupTime (s'.workers k).sleepQueue := by
  cases done with
  | tick ns => exact h.ordered k
  | schedule t x acts =>
    refine ordered_update h.ordered ?_ k
    exact h.ordered _
  | wakeup t i x writes pushing =>
    refine ordered_update h.ordered ?_ k
    exact h.ordered i
  | unblock t x i acts blocked own =>
    unfold scheduleOn
    split
    next =>
      refine ordered_update h.ordered ?_ k
      exact h.ordered i
    next =>
      refine ordered_update h.ordered ?_ k
      exact h.ordered i
  | report i x batch phase kept =>
    refine ordered_update h.ordered ?_ k
    exact h.ordered i
  | advance i w done =>
    refine ordered_update h.ordered ?_ k
    exact (h.ordered i).sublist (IsolatedWorker.advance_suffix done).sublist
  | waited i sources w done =>
    refine ordered_update h.ordered ?_ k
    rw [IsolatedWorker.waited_sleepQueue done]
    exact h.ordered i
  | interrupted i blocks phase =>
    refine ordered_update h.ordered ?_ k
    exact h.ordered i
  | spawn i x y running =>
    refine ordered_update h.ordered ?_ k
    exact h.ordered i
  | await i fd type x running =>
    refine ordered_update h.ordered ?_ k
    exact h.ordered i
  | sleepFor i ns x running =>
    have ordered := h.ordered_sleeping running (s.now + ns)
    refine ordered_update ordered ?_ k
    exact (ordered i).insertUnique
  | enterQueue i x running =>
    refine ordered_update h.ordered ?_ k
    exact h.ordered i
  | yields i x blocking =>
    refine ordered_update h.ordered ?_ k
    exact h.ordered i
  | resumeLater i x running =>
    refine ordered_update h.ordered ?_ k
    exact h.ordered i
  | destroy i x running =>
    refine ordered_update h.ordered ?_ k
    exact h.ordered i

theorem Placed.step_owned {s s' : Coordinator} (h : s.Placed) {a : CoordinatorAction}
    (done : s.Takes a s') : ∀ r ∈ s'.blocked, s'.worker r ≠ none := by
  have attached : ∀ (x : UInt64) (i : Nat), ∀ r ∈ s.blocked,
      Function.update s.worker x (some i) r ≠ none := by
    intro x i r hr
    rcases eq_or_ne r x with rfl | other
    · rw [Function.update_self]
      exact Option.some_ne_none i
    · rw [Function.update_of_ne other]
      exact h.owned r hr
  cases done with
  | schedule t x acts => exact attached x _
  | unblock t x i acts blocked own =>
    intro r hr
    rw [scheduleOn_blocked] at hr
    rw [scheduleOn_worker]
    exact h.owned r (List.mem_of_mem_erase hr)
  | spawn i x y running => exact attached x i
  | enterQueue i x running =>
    intro r hr
    rcases List.mem_append.mp hr with hr | hr
    · exact h.owned r hr
    · cases List.mem_singleton.mp hr
      have handled := IsolatedWorker.handled_running running
      have own := (h.handled_owner handled).1
      intro gone
      rw [show s.worker x = none from gone] at own
      cases own
  | destroy i x running =>
    intro r hr
    have handled := IsolatedWorker.handled_running running
    have other : r ≠ x := by
      rintro rfl
      exact (h.handled_owner handled).2.2 hr
    have same : Function.update s.worker x none r = s.worker r := Function.update_of_ne other _ _
    intro gone
    exact h.owned r hr (same.symm.trans gone)
  | tick => exact h.owned
  | wakeup => exact h.owned
  | report => exact h.owned
  | advance => exact h.owned
  | waited => exact h.owned
  | interrupted => exact h.owned
  | await => exact h.owned
  | sleepFor => exact h.owned
  | yields => exact h.owned
  | resumeLater => exact h.owned

theorem Placed.step {s s' : Coordinator} (h : s.Placed) {a : CoordinatorAction}
    (admits : s.Admits a) (done : s.step a = some s') : s'.Placed := by
  have taken := h.takes done
  refine ⟨?_, h.step_owned taken, h.step_ordered taken⟩
  intro i r
  have balance := h.step_balance admits taken i r
  have once := h.once i r
  omega

theorem placed_start (size : Nat) (now : Int) (wakeupFd timerFd : Nat → Int32) :
    (start size now wakeupFd timerFd).Placed := by
  refine ⟨?_, ?_, ?_⟩
  · intro i r
    exact Nat.zero_le _
  · intro r hr
    cases hr
  · intro i
    exact List.Pairwise.nil

theorem run_placed {size : Nat} {now : Int} {wakeupFd timerFd : Nat → Int32}
    {acts : List CoordinatorAction} (admitted : Admitted size now wakeupFd timerFd acts) (n : Nat)
    {s : Coordinator} (reached : run size now wakeupFd timerFd (acts.take n) = some s) : s.Placed := by
  refine Runs.partial_invariant (placed_start size now wakeupFd timerFd) ?_ n reached
  intro n a t t' ha reached done here
  exact here.step (admitted n a t ha reached) done

/-- A task is scheduled from outside, and runs until it waits for a descriptor; when that is
reported, it runs until it goes to sleep. -/
def awaitThenSleep : List CoordinatorAction :=
  [.schedule (.outside 0) 4096, .wakeup (.outside 0), .wakeup (.outside 0), .advance 0, .advance 0,
    .advance 0, .advance 0, .waited 0 [.wakeup], .advance 0, .advance 0, .await 0 9 .read,
    .turnEnds 0 .blocked, .advance 0, .advance 0, .advance 0, .advance 0, .waited 0 [.port 9],
    .advance 0, .advance 0, .sleepFor 0 1000000, .turnEnds 0 .blocked]

end Coordinator

end XiRuntime
