import XiRuntime.IsolatedKeeps

namespace XiRuntime

open IntrusiveSet

namespace IsolatedPhase

def batch : IsolatedPhase → List ReactorEvent
  | .events batch => batch
  | _ => []

/-- Between the drain of the external queue and the end of the wait. -/
def Drained : IsolatedPhase → Prop
  | .drainSleep | .pollReactor | .settime _ _ | .wait _ => True
  | _ => False

end IsolatedPhase

/-- What a worker that goes to sleep can rely on; an `announced` task is one whose thread has still
to write into the worker's eventfd. -/
structure Alert (now : Int) (wakeupTime : UInt64 → Int) (announced : UInt64 → Prop) (w : IsolatedWorker) :
    Prop where
  counted : 0 < w.reactor.counter → w.reactor.edge = true ∨ .wakeup ∈ w.phase.batch
  covered : w.phase.Drained → ∀ r ∈ w.externalQueue, 0 < w.reactor.counter ∨ announced r
  early : ∀ r ∈ w.sleepQueue, w.nextWakeup ≤ wakeupTime r
  setting : ∀ read ns, w.phase = .settime read ns →
    w.readyQueue = [] ∧ read + ns = w.nextWakeup ∧ read ≤ now
  waiting : ∀ lag, w.phase = .wait (some lag) →
    w.readyQueue = [] ∧ w.reactor.timer = some (w.nextWakeup + lag)

namespace Alert

variable {now : Int} {wakeupTime : UInt64 → Int} {announced : UInt64 → Prop} {w : IsolatedWorker}

theorem start (now : Int) (wakeupTime : UInt64 → Int) (announced : UInt64 → Prop)
    (wakeupFd timerFd : Int32) :
    Alert now wakeupTime announced (IsolatedWorker.start wakeupFd timerFd) := by
  refine ⟨?_, ?_, ?_, ?_, ?_⟩
  · intro counter
    exact absurd counter (Nat.lt_irrefl 0)
  · intro drained
    exact drained.elim
  · intro r hr
    cases hr
  · intro read ns phase
    cases phase
  · intro lag phase
    cases phase

/-- A worker relies on no more later on. -/
theorem mono (h : Alert now wakeupTime announced w) {now' : Int} (later : now ≤ now')
    {wakeupTime' : UInt64 → Int} (same : ∀ r ∈ w.sleepQueue, wakeupTime' r = wakeupTime r)
    {announced' : UInt64 → Prop} (still : ∀ r, announced r → announced' r) :
    Alert now' wakeupTime' announced' w where
  counted := h.counted
  covered drained r hr := (h.covered drained r hr).imp_right (still r)
  early r hr := by
    rw [same r hr]
    exact h.early r hr
  setting read ns phase := by
    obtain ⟨ready, next, before⟩ := h.setting read ns phase
    exact ⟨ready, next, before.trans later⟩
  waiting := h.waiting

/-- A phase in which the worker is awake, and has nothing in its hands that was reported. -/
theorem goTo (h : Alert now wakeupTime announced w) {phase : IsolatedPhase}
    (batch : ∀ e ∈ w.phase.batch, e = .wakeup → e ∈ phase.batch) (drained : ¬ phase.Drained) :
    Alert now wakeupTime announced (w.goTo phase) := by
  refine ⟨?_, ?_, h.early, ?_, ?_⟩
  · intro counter
    exact (h.counted counter).imp_right (fun pending => batch _ pending rfl)
  · intro here
    exact (drained here).elim
  · intro read ns here
    rw [IsolatedWorker.goTo] at here
    subst here
    exact (drained trivial).elim
  · intro lag here
    rw [IsolatedWorker.goTo] at here
    subst here
    exact (drained trivial).elim

theorem goTo_idle (h : Alert now wakeupTime announced w) (phase : IsolatedPhase)
    (idle : w.phase.batch = []) (drained : ¬ phase.Drained) :
    Alert now wakeupTime announced (w.goTo phase) := by
  refine h.goTo ?_ drained
  intro e he _
  rw [idle] at he
  cases he

theorem awake {w : IsolatedWorker} {r : UInt64} (running : w.phase = .running r) : ¬ w.phase.Drained := by
  rw [running]
  exact id

theorem pushInternally (h : Alert now wakeupTime announced w) (awake : ¬ w.phase.Drained) (r : UInt64) :
    Alert now wakeupTime announced (w.pushInternally r) := by
  refine ⟨h.counted, h.covered, h.early, ?_, ?_⟩
  · intro read ns phase
    refine (awake ?_).elim
    rw [show w.phase = .settime read ns from phase]
    trivial
  · intro lag phase
    refine (awake ?_).elim
    rw [show w.phase = .wait (some lag) from phase]
    trivial

theorem pushed (h : Alert now wakeupTime announced w) {r : UInt64} (writes : announced r) :
    Alert now wakeupTime announced { w with externalQueue := w.externalQueue ++ [r] } := by
  refine ⟨h.counted, ?_, h.early, h.setting, h.waiting⟩
  intro drained x hx
  rcases List.mem_append.mp hx with hx | hx
  · exact h.covered drained x hx
  · rw [List.mem_singleton.mp hx]
    exact Or.inr writes

theorem maybeWakeup (h : Alert now wakeupTime announced w) (announced' : UInt64 → Prop) :
    Alert now wakeupTime announced' { w with reactor := w.reactor.maybeWakeup } := by
  have positive : 0 < w.reactor.maybeWakeup.counter := by
    unfold EpollReactor.maybeWakeup
    split
    next => exact Nat.succ_pos _
    next full =>
      have large : 0 < EpollReactor.maxCounter := by decide
      omega
  have timer : w.reactor.maybeWakeup.timer = w.reactor.timer := by
    unfold EpollReactor.maybeWakeup
    split
    next => rfl
    next => rfl
  refine ⟨?_, fun _ _ _ => Or.inl positive, h.early, h.setting, ?_⟩
  · intro counter
    unfold EpollReactor.maybeWakeup at counter ⊢
    split
    next => exact Or.inl rfl
    next full =>
      rw [if_neg full] at counter
      exact h.counted counter
  · intro lag phase
    rw [timer]
    exact h.waiting lag phase

end Alert

namespace IsolatedWorker

/-- The queue is ordered by wake-up times: what the loop stops at is the first of what is left. -/
theorem drainSleepLoop_early {wakeupTime : UInt64 → Int} {now : Int} (w : IsolatedWorker) {xs : List UInt64}
    (ordered : Ordered wakeupTime xs) :
    ∀ r ∈ (w.drainSleepLoop wakeupTime now xs).sleepQueue,
      (w.drainSleepLoop wakeupTime now xs).nextWakeup ≤ wakeupTime r := by
  induction xs generalizing w with
  | nil =>
    intro r hr
    cases hr
  | cons x xs ih =>
    obtain ⟨first, rest⟩ := ordered_cons.mp ordered
    unfold drainSleepLoop
    split
    next => exact ih (w.pushInternally x) rest
    next =>
      intro r hr
      rcases List.mem_cons.mp hr with rfl | hr
      · exact le_refl _
      · exact (first r hr).le

end IsolatedWorker

namespace EpollReactor

/-- A write that is not reported stays to be reported. -/
theorem report_edge {now : Int} {e e' : EpollReactor} {source : ReadySource} {event : ReactorEvent}
    (h : e.report now source = some (event, e')) :
    e'.counter = e.counter ∧ (e.edge = true → e'.edge = true ∨ event = .wakeup) := by
  cases source with
  | wakeup =>
    simp only [report] at h
    split at h
    next =>
      cases h
      exact ⟨rfl, fun _ => Or.inr rfl⟩
    next => cases h
  | timer =>
    simp only [report] at h
    split at h
    next => cases h
    next =>
      split at h
      next =>
        cases h
        exact ⟨rfl, Or.inl⟩
      next => cases h
  | port fd =>
    simp only [report] at h
    split at h
    next => cases h
    next =>
      cases h
      exact ⟨rfl, Or.inl⟩

theorem reports_edge {now : Int} {sources : List ReadySource} {e e' : EpollReactor}
    {batch : List ReactorEvent} (h : e.reports now sources = some (batch, e')) :
    e'.counter = e.counter ∧ (e.edge = true → e'.edge = true ∨ .wakeup ∈ batch) := by
  induction sources generalizing e batch with
  | nil =>
    cases h
    exact ⟨rfl, Or.inl⟩
  | cons source sources ih =>
    simp only [reports] at h
    split at h
    next => cases h
    next event e₁ reported =>
      split at h
      next => cases h
      next batch₁ e₂ rest =>
        cases h
        obtain ⟨same, first⟩ := report_edge reported
        obtain ⟨same', later⟩ := ih rest
        refine ⟨same'.trans same, ?_⟩
        intro edge
        rcases first edge with edge | rfl
        · exact (later edge).imp_right (List.mem_cons_of_mem event)
        · exact Or.inr List.mem_cons_self

end EpollReactor

namespace Alert

variable {now : Int} {wakeupTime : UInt64 → Int} {announced : UInt64 → Prop} {w w' : IsolatedWorker}

/-- The step in which the worker sees an empty external queue. -/
theorem drained (h : Alert now wakeupTime announced w) (phase : w.phase = .drainExternal)
    (empty : w.externalQueue = []) : Alert now wakeupTime announced (w.goTo .drainSleep) := by
  refine ⟨?_, ?_, h.early, ?_, ?_⟩
  · intro counter
    have pending := h.counted counter
    rw [phase] at pending
    exact pending
  · intro _ r hr
    have external : r ∈ w.externalQueue := hr
    rw [empty] at external
    cases external
  · intro read ns here
    cases here
  · intro lag here
    cases here

theorem drainSleepQueue (h : Alert now wakeupTime announced w) (ordered : Ordered wakeupTime w.sleepQueue)
    (phase : w.phase = .drainSleep) :
    Alert now wakeupTime announced ((w.drainSleepQueue wakeupTime now).goTo .pollReactor) := by
  have pending := h.counted
  have covered := h.covered
  rw [phase] at pending covered
  unfold IsolatedWorker.drainSleepQueue
  split
  next =>
    obtain ⟨external, reactor, -⟩ :=
      IsolatedWorker.drainSleepLoop_frame wakeupTime (now + 100000) w w.sleepQueue
    refine ⟨?_, ?_, IsolatedWorker.drainSleepLoop_early w ordered, ?_, ?_⟩
    · simp only [IsolatedWorker.goTo, reactor]
      exact pending
    · simp only [IsolatedWorker.goTo, reactor, external]
      exact covered
    · intro read ns here
      cases here
    · intro lag here
      cases here
  next =>
    refine ⟨pending, covered, h.early, ?_, ?_⟩
    · intro read ns here
      cases here
    · intro lag here
      cases here

theorem pollFor (h : Alert now wakeupTime announced w) (phase : w.phase = .pollReactor) {ns : Int}
    (due : 0 < ns → w.readyQueue = [] ∧ now + ns = w.nextWakeup) :
    Alert now wakeupTime announced (w.goTo (IsolatedWorker.pollFor now ns)) := by
  have pending := h.counted
  have covered := h.covered
  rw [phase] at pending covered
  unfold IsolatedWorker.pollFor
  split
  next later =>
    obtain ⟨ready, next⟩ := due later
    refine ⟨pending, covered, h.early, ?_, ?_⟩
    · intro read ns here
      cases here
      exact ⟨ready, next, le_refl _⟩
    · intro lag here
      cases here
  next =>
    refine ⟨pending, covered, h.early, ?_, ?_⟩
    · intro read ns here
      cases here
    · intro lag here
      cases here

theorem settime (h : Alert now wakeupTime announced w) {read ns : Int} (phase : w.phase = .settime read ns) :
    Alert now wakeupTime announced
      ({ w with reactor := w.reactor.settime (now + ns) }.goTo (.wait (some (now - read)))) := by
  have pending := h.counted
  have covered := h.covered
  obtain ⟨ready, next, before⟩ := h.setting read ns phase
  rw [phase] at pending covered
  refine ⟨pending, covered, h.early, ?_, ?_⟩
  · intro read' ns' here
    cases here
  · intro lag here
    cases here
    refine ⟨ready, ?_⟩
    simp only [IsolatedWorker.goTo, EpollReactor.settime]
    congr 1
    omega

theorem advance (h : Alert now wakeupTime announced w) (ordered : Ordered wakeupTime w.sleepQueue)
    (done : w.advance wakeupTime now = some w') : Alert now wakeupTime announced w' := by
  unfold IsolatedWorker.advance at done
  split at done
  next phase =>
    split at done
    next empty =>
      cases done
      exact h.drained phase empty
    next x rest external =>
      cases done
      have awake : ¬ w.phase.Drained := by
        rw [phase]
        exact id
      have next := h.pushInternally awake x
      exact ⟨next.counted, fun here => (awake here).elim, next.early, next.setting, next.waiting⟩
  next phase =>
    cases done
    exact h.drainSleepQueue ordered phase
  next phase =>
    cases done
    refine h.pollFor phase ?_
    intro later
    by_cases ready : w.readyQueue = []
    · rw [if_pos ready]
      exact ⟨ready, by omega⟩
    · rw [if_neg ready] at later
      exact absurd later (lt_irrefl 0)
  next read ns phase =>
    cases done
    exact h.settime phase
  next event batch phase =>
    split at done
    next =>
      cases done
      refine ⟨fun counter => absurd counter (Nat.lt_irrefl 0), fun here => here.elim, h.early, ?_, ?_⟩
      · intro read ns here
        cases here
      · intro lag here
        cases here
    next other =>
      split at done
      next =>
        cases done
        refine h.goTo ?_ id
        intro e he wakeup
        rw [phase] at he
        subst wakeup
        refine (List.mem_cons.mp he).resolve_left ?_
        rintro rfl
        exact other rfl
      next => cases done
  next phase =>
    have none' : ∀ e ∈ w.phase.batch, e = .wakeup → e ∈ ([] : List ReactorEvent) := by
      intro e he
      rw [phase] at he
      cases he
    split at done
    next empty =>
      cases done
      exact h.goTo none' id
    next x rest ready =>
      cases done
      refine ⟨fun counter => (h.counted counter).imp_right (fun e => none' _ e rfl),
        fun here => here.elim, h.early, ?_, ?_⟩
      · intro read ns here
        cases here
      · intro lag here
        cases here
  next => cases done

theorem waited (h : Alert now wakeupTime announced w) {sources : List ReadySource}
    (done : w.waited now sources = some w') : Alert now wakeupTime announced w' := by
  unfold IsolatedWorker.waited at done
  split at done
  next blocks phase =>
    split at done
    next => cases done
    next =>
      split at done
      next => cases done
      next batch e reported =>
        cases done
        obtain ⟨same, edge⟩ := EpollReactor.reports_edge reported
        refine ⟨?_, fun here => here.elim, h.early, ?_, ?_⟩
        · intro counter
          have pending := h.counted (by rw [← same]; exact counter)
          rw [phase] at pending
          exact edge (pending.resolve_right (fun none' => by cases none'))
        · intro read ns here
          cases here
        · intro lag here
          cases here
  next => cases done

theorem sleepUntil (h : Alert now wakeupTime announced w) {r : UInt64}
    (running : w.phase = .running r) (away : r ∉ w.sleepQueue) (time : Int) :
    Alert now (Function.update wakeupTime r time) announced
      ((w.sleepUntil (Function.update wakeupTime r time) r).goTo (.blocking r)) := by
  have pending := h.counted
  rw [running] at pending
  refine ⟨pending, fun here => here.elim, ?_, ?_, ?_⟩
  · intro x hx
    simp only [IsolatedWorker.goTo, IsolatedWorker.sleepUntil] at hx ⊢
    have soonest : (if w.nextWakeup > Function.update wakeupTime r time r then
        Function.update wakeupTime r time r else w.nextWakeup) ≤ w.nextWakeup := by
      split
      next sooner => exact le_of_lt sooner
      next => exact le_refl _
    rcases insertUnique_subset x hx with rfl | hx
    · split
      next => exact le_refl _
      next later => exact le_of_not_gt later
    · have other : x ≠ r := ne_of_mem_of_not_mem hx away
      rw [Function.update_of_ne other]
      exact soonest.trans (h.early x hx)
  · intro read ns here
    cases here
  · intro lag here
    cases here

end Alert

namespace Coordinator

/-- The thread that has pushed the task to the worker has still to write into the eventfd. -/
def Announced (s : Coordinator) (i : Nat) (r : UInt64) : Prop :=
  ∃ t writes, s.pushing t = some ⟨i, r, writes⟩

def Alerts (s : Coordinator) : Prop := ∀ i, Alert s.now s.wakeupTime (s.Announced i) (s.workers i)

theorem Alerts.update {s s' : Coordinator} (h : s.Alerts) {i : Nat} {w : IsolatedWorker}
    (workers : s'.workers = Function.update s.workers i w)
    (here : Alert s'.now s'.wakeupTime (s'.Announced i) w) (now : s.now ≤ s'.now)
    (same : ∀ k, k ≠ i → ∀ r ∈ (s.workers k).sleepQueue, s'.wakeupTime r = s.wakeupTime r)
    (still : ∀ k, k ≠ i → ∀ r, s.Announced k r → s'.Announced k r) : s'.Alerts := by
  intro k
  rcases eq_or_ne k i with rfl | other
  · rw [workers, Function.update_self]
    exact here
  · rw [workers, Function.update_of_ne other]
    exact (h k).mono now (same k other) (still k other)

theorem Alerts.setWorker {s : Coordinator} (h : s.Alerts) {i : Nat} {w : IsolatedWorker}
    (here : Alert s.now s.wakeupTime (s.Announced i) w) : (s.setWorker i w).Alerts :=
  h.update rfl here (le_refl _) (fun _ _ _ _ => rfl) (fun _ _ _ => id)

/-- Threads push one task at a time. -/
theorem announced_update {s : Coordinator} {t : ScheduleThread} (idle : s.pushing t = none)
    {pushing : ScheduleThread → Option PushedTask} {v : PushedTask}
    (update : pushing = Function.update s.pushing t (some v)) {k : Nat} {r : UInt64}
    (h : s.Announced k r) : ∃ t writes, pushing t = some ⟨k, r, writes⟩ := by
  obtain ⟨t', writes, pushes⟩ := h
  have other : t' ≠ t := by
    rintro rfl
    rw [idle] at pushes
    cases pushes
  refine ⟨t', writes, ?_⟩
  rw [update, Function.update_of_ne other]
  exact pushes

theorem Alerts.pushExternally {s s' : Coordinator} (h : s.Alerts) {t : ScheduleThread}
    (idle : s.pushing t = none) {i : Nat} {x : UInt64} {writes : Nat}
    (workers : s'.workers = Function.update s.workers i
      { s.workers i with externalQueue := (s.workers i).externalQueue ++ [x] })
    (pushing : s'.pushing = Function.update s.pushing t (some ⟨i, x, writes⟩)) (now : s'.now = s.now)
    (wakeupTime : s'.wakeupTime = s.wakeupTime) : s'.Alerts := by
  have writes' : s'.Announced i x := ⟨t, writes, by rw [pushing, Function.update_self]⟩
  have still : ∀ k r, s.Announced k r → s'.Announced k r :=
    fun _ _ => announced_update idle pushing
  refine h.update workers ?_ (le_of_eq now.symm) ?_ ?_
  · rw [now, wakeupTime]
    exact ((h i).mono (le_refl _) (fun _ _ => rfl) (still i)).pushed writes'
  · intro k _ r _
    rw [wakeupTime]
  · intro k _
    exact still k

theorem Alerts.scheduleOn {s : Coordinator} (h : s.Alerts) {t : ScheduleThread} (acts : s.Acts t)
    (i : Nat) (x : UInt64) : (s.scheduleOn t i x).Alerts := by
  unfold Coordinator.scheduleOn
  split
  next own =>
    subst own
    refine h.setWorker ((h i).pushInternally ?_ x)
    obtain ⟨-, running⟩ := acts
    intro drained
    simp only [current] at running
    split at running
    next r phase =>
      rw [phase] at drained
      exact drained
    next => cases running
  next => exact h.pushExternally acts.1 rfl rfl rfl rfl

theorem Alerts.step {s s' : Coordinator} (h : s.Alerts) (placed : s.Placed) {a : CoordinatorAction}
    (done : s.Takes a s') : s'.Alerts := by
  cases done with
  | tick ns =>
    intro i
    exact (h i).mono (by simp only; omega) (fun _ _ => rfl) (fun _ => id)
  | schedule t x acts => exact h.pushExternally acts.1 rfl rfl rfl rfl
  | wakeup t i x writes pushing =>
    refine h.update rfl ((h i).maybeWakeup _) (le_refl _) (fun _ _ _ _ => rfl) ?_
    rintro k other r ⟨t', writes', pushes⟩
    have thread : t' ≠ t := by
      rintro rfl
      rw [pushing] at pushes
      cases pushes
      exact other rfl
    refine ⟨t', writes', ?_⟩
    simp only [Function.update_of_ne thread]
    exact pushes
  | unblock t x i acts blocked own =>
    have erased : { s with blocked := s.blocked.erase x }.Alerts := h
    exact erased.scheduleOn acts i x
  | report i x batch phase kept =>
    have next : Alert s.now s.wakeupTime (s.Announced i) ((s.workers i).goTo (.events batch)) := by
      refine (h i).goTo ?_ id
      intro e he wakeup
      rw [phase] at he
      subst wakeup
      exact (List.mem_cons.mp he).resolve_left (fun same => by cases same)
    exact h.setWorker (next.pushInternally id x)
  | advance i w done => exact h.setWorker ((h i).advance (placed.ordered i) done)
  | waited i sources w done => exact h.setWorker ((h i).waited done)
  | interrupted i blocks phase =>
    exact h.setWorker ((h i).goTo_idle _ (congrArg IsolatedPhase.batch phase) id)
  | spawn i x y running =>
    have next := (h i).pushInternally (Alert.awake running) x
    exact h.update rfl next (le_refl _) (fun _ _ _ _ => rfl) (fun _ _ _ => id)
  | await i fd type x running =>
    refine h.setWorker ?_
    have next := (h i).goTo_idle (.blocking x) (congrArg IsolatedPhase.batch running) id
    exact ⟨next.counted, next.covered, next.early, next.setting, fun lag here => by cases here⟩
  | sleepFor i ns x running =>
    have away := placed.unlinked_handled (IsolatedWorker.handled_running running)
    refine h.update rfl ((h i).sleepUntil running (away i).1 (s.now + ns)) (le_refl _) ?_ (fun _ _ _ => id)
    intro k _ r hr
    exact Function.update_of_ne (ne_of_mem_of_not_mem hr (away k).1) _ _
  | enterQueue i x running =>
    have next := (h i).goTo_idle (.blocking x) (congrArg IsolatedPhase.batch running) id
    exact h.update rfl next (le_refl _) (fun _ _ _ _ => rfl) (fun _ _ _ => id)
  | yields i x blocking =>
    exact h.setWorker ((h i).goTo_idle _ (congrArg IsolatedPhase.batch blocking) id)
  | resumeLater i x running =>
    have next := (h i).pushInternally (Alert.awake running) x
    exact h.setWorker (next.goTo_idle _ (congrArg IsolatedPhase.batch running) id)
  | destroy i x running =>
    have next := (h i).goTo_idle .drainExternal (congrArg IsolatedPhase.batch running) id
    exact h.update rfl next (le_refl _) (fun _ _ _ _ => rfl) (fun _ _ _ => id)

theorem alerts_start (size : Nat) (now : Int) (wakeupFd timerFd : Nat → Int32) :
    (start size now wakeupFd timerFd).Alerts := fun _ => Alert.start now _ _ _ _

theorem run_alerts {size : Nat} {now : Int} {wakeupFd timerFd : Nat → Int32}
    {acts : List CoordinatorAction} (admitted : Admitted size now wakeupFd timerFd acts) (n : Nat)
    {s : Coordinator} (reached : run size now wakeupFd timerFd (acts.take n) = some s) : s.Alerts := by
  refine Runs.partial_invariant (alerts_start size now wakeupFd timerFd) ?_ n reached
  intro n a t t' ha before done here
  have placed := run_placed admitted n before
  exact here.step placed (placed.takes done)

/-- A worker that is blocked in `epoll_pwait` with nothing to report there has nothing to run and
no sleeper that is due, and each task that is pushed to it is one whose thread has still to write;
the write ends the wait. -/
theorem isolated_worker_sleeps_unneeded (size : Nat) (now : Int) (wakeupFd timerFd : Nat → Int32)
    (acts : List CoordinatorAction) (admitted : Admitted size now wakeupFd timerFd acts) (n : Nat)
    (s : Coordinator) (reached : run size now wakeupFd timerFd (acts.take n) = some s) (i : Nat)
    (lag : Int) (waits : (s.workers i).phase = .wait (some lag))
    (silent : (s.workers i).reactor.Silent s.now) :
    (s.workers i).readyQueue = [] ∧ (∀ r ∈ (s.workers i).externalQueue, s.Announced i r) ∧
      (∀ r ∈ (s.workers i).sleepQueue, s.now < s.wakeupTime r + lag) ∧
      ∀ t r writes s', s.pushing t = some ⟨i, r, writes⟩ → s.step (.wakeup t) = some s' →
        ¬ (s'.workers i).reactor.Silent s'.now := by
  have alert := run_alerts admitted n reached i
  obtain ⟨ready, timer⟩ := alert.waiting lag waits
  obtain ⟨unwritten, pending⟩ := silent
  have edge : 0 < (s.workers i).reactor.counter → (s.workers i).reactor.edge = true := by
    intro counter
    have written := alert.counted counter
    rw [waits] at written
    exact written.resolve_right (fun none' => by cases none')
  have zero : (s.workers i).reactor.counter = 0 := by
    by_contra counter
    have positive := Nat.pos_of_ne_zero counter
    rw [EpollReactor.report, if_pos ⟨edge positive, positive⟩] at unwritten
    cases unwritten
  have early : s.now < (s.workers i).nextWakeup + lag := by
    by_contra late
    simp only [EpollReactor.report, timer, if_pos (le_of_not_gt late)] at pending
    cases pending
  refine ⟨ready, ?_, ?_, ?_⟩
  · intro r hr
    have drained : (s.workers i).phase.Drained := by
      rw [waits]
      trivial
    refine (alert.covered drained r hr).resolve_left ?_
    omega
  · intro r hr
    have next := alert.early r hr
    omega
  · intro t r writes s' pushing done
    simp only [step, pushing] at done
    cases done
    rintro ⟨silent', -⟩
    have room : (s.workers i).reactor.counter + 1 ≤ EpollReactor.maxCounter := by
      rw [zero]
      decide
    simp only [setWorker, Function.update_self, EpollReactor.maybeWakeup, if_pos room,
      EpollReactor.report, true_and, Nat.succ_pos, if_true] at silent'
    cases silent'

/-- The worker waits for its sleeper when two other tasks are pushed. -/
def pushedInWait : List CoordinatorAction :=
  awaitThenSleep ++ [.advance 0, .advance 0, .advance 0, .advance 0, .tick 500,
    .schedule (.outside 1) 8192, .schedule (.outside 0) 12288]

theorem pushedInWait_steps : ∀ n < 28, ∀ a ∈ pushedInWait[n]?,
    ∀ s ∈ run 1 0 (fun _ => 4) (fun _ => 5) (pushedInWait.take n), s.Admits a := by
  decide

theorem isolated_worker_sleeps_until_pushed :
    ∃ s, run 1 0 (fun _ => 4) (fun _ => 5) (pushedInWait.take 28) = some s ∧
      (s.workers 0).externalQueue = [8192, 12288] ∧ s.Announced 0 8192 ∧ s.Announced 0 12288 ∧
      ∀ r ∈ (s.workers 0).sleepQueue, s.now < s.wakeupTime r := by
  have last : (run 1 0 (fun _ => 4) (fun _ => 5) (pushedInWait.take 28)).map (fun s =>
      ((s.workers 0).phase, (s.workers 0).reactor, s.now, (s.workers 0).externalQueue)) =
      some (.wait (some 0), ⟨4, 5, 0, false, some 1000000, []⟩, 500, [8192, 12288]) := by decide
  obtain ⟨s, reached, state⟩ := Option.map_eq_some_iff.mp last
  obtain ⟨waits, state⟩ := Prod.mk.inj state
  obtain ⟨reactor, state⟩ := Prod.mk.inj state
  obtain ⟨time, external⟩ := Prod.mk.inj state
  have silent : (s.workers 0).reactor.Silent s.now := by
    rw [reactor, time]
    decide
  have admitted : Admitted 1 0 (fun _ => 4) (fun _ => 5) pushedInWait := by
    intro n a s ha before
    exact pushedInWait_steps n (List.getElem?_eq_some_iff.mp ha).1 a ha s before
  obtain ⟨-, announced, sleepers, -⟩ := isolated_worker_sleeps_unneeded 1 0 (fun _ => 4) (fun _ => 5)
    pushedInWait admitted 28 s reached 0 0 waits silent
  rw [external] at announced
  refine ⟨s, reached, external, announced 8192 ?_, announced 12288 ?_, ?_⟩
  · exact List.mem_cons_self
  · exact List.mem_cons_of_mem _ List.mem_cons_self
  · intro r hr
    have early := sleepers r hr
    omega

end Coordinator

end XiRuntime
