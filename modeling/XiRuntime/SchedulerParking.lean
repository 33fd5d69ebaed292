import XiRuntime.Scheduler

namespace XiRuntime

/-- Past the dequeue that found nothing, and not yet back from the poller. -/
def Parking : WorkerPc → Prop
  | .setBit | .setParked | .blocked => True
  | _ => False

/-- The worker has decided to park but its state does not say so yet. -/
def Falling : WorkerPc → Prop
  | .setBit | .setParked => True
  | _ => False

/-- Whether the worker's state may be other than `RUNNING`. -/
def Asleep : WorkerPc → Prop
  | .blocked | .wakeRead | .setRunning => True
  | _ => False

namespace WorkerBlock

def Honest (w : WorkerBlock) : Prop := ¬ Asleep w.pc → w.state = .running

structure AdvanceSpec (w w' : WorkerBlock) : Prop where
  parked : w'.pc = .blocked → w'.state = .parkedNetpoll
  notified : Parking w'.pc → w'.inputQueue = [] ∨
    (Parking w.pc ∧ w'.inputQueue = w.inputQueue ∧ w'.wakeups = w.wakeups)
  honest : w.Honest → w'.Honest

theorem AdvanceSpec.of_awake {w w' : WorkerBlock} (awake : ¬ Asleep w.pc)
    (parking : ¬ Parking w'.pc) (state : w'.state = w.state) : AdvanceSpec w w' where
  parked := fun h => absurd (by simp [h, Parking]) parking
  notified := fun h => absurd h parking
  honest := fun h _ => state.trans (h awake)

theorem dequeued_spec (w : WorkerBlock) {cnt : Nat} (r : Round) (awake : ¬ Asleep w.pc)
    (empty : cnt = 0 → w.inputQueue = []) : AdvanceSpec w (w.dequeued cnt r) := by
  unfold dequeued
  split
  next idle =>
    split
    next =>
      -- only here does a worker begin to park, and its queue is empty
      have none : cnt = 0 := by simp_all
      exact ⟨by simp, fun _ => Or.inl (empty none), fun honest _ => honest awake⟩
    next => exact .of_awake awake (by simp [Parking]) rfl
  next => exact .of_awake awake (by simp [Parking]) rfl

theorem advance_spec {w w' : WorkerBlock} {r : Round} (h : w.advance r = some w') :
    AdvanceSpec w w' := by
  unfold advance at h
  split at h
  next cnt hpc =>
    have awake : ¬ Asleep w.pc := by simp [hpc, Asleep]
    split at h
    next full =>
      cases h
      exact dequeued_spec w r awake (by simp [full, schedulerDequeueMax])
    next =>
      split at h
      next hqueue =>
        cases h
        exact dequeued_spec w r awake (fun _ => hqueue)
      next =>
        cases h
        exact .of_awake awake (by simp [Parking]) rfl
  next hpc =>
    have awake : ¬ Asleep w.pc := by simp [hpc, Asleep]
    split at h
    · cases h
      exact .of_awake awake (by split <;> simp [Parking]) rfl
    · cases h
      exact .of_awake awake (by simp [Parking]) rfl
  next hpc =>
    cases h
    exact .of_awake (by simp [hpc, Asleep]) (by simp [Parking]) rfl
  next hpc =>
    cases h
    exact .of_awake (by simp [hpc, Asleep]) (by simp only; split <;> simp [Parking]) rfl
  next hpc =>
    cases h
    exact ⟨by simp, fun _ => Or.inr (by simp [hpc, Parking]), fun honest _ => honest (by simp [hpc, Asleep])⟩
  next hpc =>
    cases h
    exact ⟨by simp, fun _ => Or.inr (by simp [hpc, Parking]), by simp [Honest, Asleep]⟩
  next hpc =>
    split at h
    · cases h
      exact ⟨by simp, by simp [Parking], by simp [Honest, Asleep]⟩
    · split at h
      · cases h
        exact ⟨by simp, by simp [Parking], by simp [Honest, Asleep]⟩
      · simp at h
  next hpc =>
    cases h
    exact ⟨by simp, by simp [Parking], by simp [Honest, Asleep]⟩
  next hpc =>
    cases h
    exact ⟨by simp, by simp [Parking], by simp [Honest]⟩
  next hpc =>
    cases h
    exact .of_awake (by simp [hpc, Asleep]) (by simp [Parking]) rfl

end WorkerBlock

namespace Scheduler

variable {P : Type}

@[simp] theorem setWorker_producers (s : Scheduler P) (i : Nat) (w : WorkerBlock) :
    (s.setWorker i w).producers = s.producers := rfl

@[simp] theorem setWorker_self (s : Scheduler P) (i : Nat) (w : WorkerBlock) :
    (s.setWorker i w).workers i = w := by
  simp [setWorker]

@[simp] theorem setWorker_of_ne (s : Scheduler P) {i k : Nat} (w : WorkerBlock) (h : k ≠ i) :
    (s.setWorker i w).workers k = s.workers k := by
  simp [setWorker, h]

@[simp] theorem setParkedWorkers_workers (s : Scheduler P) (mask : BitVec 64) :
    (s.setParkedWorkers mask).workers = s.workers := rfl

@[simp] theorem setParkedWorkers_producers (s : Scheduler P) (mask : BitVec 64) :
    (s.setParkedWorkers mask).producers = s.producers := rfl

/-- The producer of `p` has pushed its job after worker `i` found nothing, and is
about to read a state that the worker has not set yet. -/
def Races (s : Scheduler P) (a : SchedulerAction P) : Prop :=
  ∃ p job i, a = .produce p ∧ (s.producers p).pc = .pushed job i ∧
    job ∈ (s.workers i).inputQueue ∧ Falling (s.workers i).pc

/-- Somebody will see to it that worker `i` comes for `job`. -/
def Notified (s : Scheduler P) (i job : Nat) : Prop :=
  (∃ p, (s.producers p).pc = .pushed job i) ∨ (∃ p job', (s.producers p).pc = .waking job' i) ∨
    0 < (s.workers i).wakeups

structure Covered (s : Scheduler P) (i : Nat) : Prop where
  parked : (s.workers i).pc = .blocked → (s.workers i).state = .parkedNetpoll
  notified : Parking (s.workers i).pc → ∀ job ∈ (s.workers i).inputQueue, s.Notified i job

/-- The step of a producer that had not pushed for worker `i` and was not waking it. -/
theorem Notified.of_produce {s s' : Scheduler P} {i job : Nat} {p : P} (h : s.Notified i job)
    (others : ∀ q, q ≠ p → s'.producers q = s.producers q)
    (wakeups : (s.workers i).wakeups ≤ (s'.workers i).wakeups)
    (hpushed : (s.producers p).pc ≠ .pushed job i)
    (hwaking : ∀ job', (s.producers p).pc ≠ .waking job' i) : s'.Notified i job := by
  rcases h with ⟨q, hq⟩ | ⟨q, job', hq⟩ | h
  · have ne : q ≠ p := by
      rintro rfl
      exact hpushed hq
    exact Or.inl ⟨q, by rw [others q ne, hq]⟩
  · have ne : q ≠ p := by
      rintro rfl
      exact hwaking job' hq
    exact Or.inr (Or.inl ⟨q, job', by rw [others q ne, hq]⟩)
  · exact Or.inr (Or.inr (Nat.lt_of_lt_of_le h wakeups))

theorem Covered.of_produce {s s' : Scheduler P} {i : Nat} {p : P} (h : s.Covered i)
    (others : ∀ q, q ≠ p → s'.producers q = s.producers q) (same : s'.workers i = s.workers i)
    (hpushed : ∀ job ∈ (s.workers i).inputQueue, (s.producers p).pc ≠ .pushed job i)
    (hwaking : ∀ job, (s.producers p).pc ≠ .waking job i) : s'.Covered i := by
  refine ⟨?_, ?_⟩
  · rw [same]
    exact h.parked
  · intro parking job hjob
    rw [same] at parking hjob
    exact (h.notified parking job hjob).of_produce others (by simp [same]) (hpushed job hjob) hwaking

/-- A step of worker `i` to a block that needs no cover, or has it. -/
theorem Covered.of_work {s : Scheduler P} {i k : Nat} {w : WorkerBlock} (h : s.Covered k)
    (parked : w.pc = .blocked → w.state = .parkedNetpoll)
    (notified : Parking w.pc → w.inputQueue = [] ∨
      (Parking (s.workers i).pc ∧ w.inputQueue = (s.workers i).inputQueue ∧
        w.wakeups = (s.workers i).wakeups)) : (s.setWorker i w).Covered k := by
  by_cases hk : k = i
  · subst hk
    refine ⟨by simpa using parked, ?_⟩
    intro parking job hjob
    simp only [setWorker_self] at parking hjob
    rcases notified parking with hnil | ⟨before, hqueue, hwakeups⟩
    · simp [hnil] at hjob
    · have cover := h.notified before job (hqueue ▸ hjob)
      simpa [Notified, hwakeups] using cover
  · have same : (s.setWorker i w).workers k = s.workers k := setWorker_of_ne s w hk
    refine ⟨by rw [same]; exact h.parked, ?_⟩
    intro parking job hjob
    rw [same] at parking hjob
    have cover := h.notified parking job hjob
    simpa [Notified, hk] using cover

theorem Covered.setParkedWorkers {s : Scheduler P} {k : Nat} (h : s.Covered k) (mask : BitVec 64) :
    (s.setParkedWorkers mask).Covered k := ⟨h.parked, h.notified⟩

theorem covered_work {s s' : Scheduler P} {i k : Nat} {r : Round} (h : s.Covered k)
    (hs : s.work i r = some s') : s'.Covered k := by
  obtain ⟨w, hw, rfl⟩ := Option.map_eq_some_iff.mp hs
  have spec := WorkerBlock.advance_spec hw
  exact (h.setParkedWorkers _).of_work spec.parked spec.notified

theorem honest_work {s s' : Scheduler P} {i k : Nat} {r : Round} (h : (s.workers k).Honest)
    (hs : s.work i r = some s') : (s'.workers k).Honest := by
  obtain ⟨w, hw, rfl⟩ := Option.map_eq_some_iff.mp hs
  by_cases hk : k = i
  · subst hk
    rw [setWorker_self]
    exact (WorkerBlock.advance_spec hw).honest h
  · rw [setWorker_of_ne _ _ hk]
    exact h

theorem covered_start (count k : Nat) : (start count : Scheduler P).Covered k :=
  ⟨by simp [start], by simp [start]⟩

variable [DecidableEq P]

@[simp] theorem setPc_workers (s : Scheduler P) (p : P) (pc : ProducerPc) :
    (s.setPc p pc).workers = s.workers := rfl

@[simp] theorem setPc_self (s : Scheduler P) (p : P) (pc : ProducerPc) :
    ((s.setPc p pc).producers p).pc = pc := by
  simp [setPc]

@[simp] theorem setPc_of_ne (s : Scheduler P) {p q : P} (pc : ProducerPc) (h : q ≠ p) :
    (s.setPc p pc).producers q = s.producers q := by
  simp [setPc, h]

theorem covered_push {s : Scheduler P} {p : P} {job i k : Nat}
    (hp : (s.producers p).pc = .chosen job i) (h : s.Covered k) :
    ((s.setWorker i { s.workers i with inputQueue := (s.workers i).inputQueue ++ [job] }).setPc p
      (.pushed job i)).Covered k := by
  by_cases hk : k = i
  · subst hk
    refine ⟨by simpa using h.parked, ?_⟩
    intro parking j hj
    simp only [setPc_workers, setWorker_self] at parking hj
    rcases List.mem_append.mp hj with hj | hj
    · refine (h.notified parking j hj).of_produce (p := p) ?_ (by simp) (by simp [hp]) (by simp [hp])
      intro q hq
      rw [setPc_of_ne _ _ hq, setWorker_producers]
    · have same : j = job := by simpa using hj
      exact Or.inl ⟨p, by rw [same, setPc_self]⟩
  · refine h.of_produce (p := p) ?_ (by simp [hk]) (by simp [hp]) (by simp [hp])
    intro q hq
    rw [setPc_of_ne _ _ hq, setWorker_producers]

/-- The wakeup decision. A worker that is blocked is seen to be parked; one that is
about to park is not raced. -/
theorem covered_decide {s : Scheduler P} {p : P} {job i k : Nat}
    (hp : (s.producers p).pc = .pushed job i)
    (hrace : job ∈ (s.workers i).inputQueue → ¬ Falling (s.workers i).pc) (h : s.Covered k) :
    (s.setPc p (if (s.workers i).state = .parkedNetpoll then .waking job i else .idle)).Covered k := by
  have others : ∀ q, q ≠ p → (s.setPc p (if (s.workers i).state = .parkedNetpoll then
      .waking job i else .idle)).producers q = s.producers q := by
    intro q hq
    exact setPc_of_ne s _ hq
  by_cases hk : k = i
  · subst hk
    refine ⟨by simpa using h.parked, ?_⟩
    intro parking j hj
    simp only [setPc_workers] at parking hj
    split
    next hs => exact Or.inr (Or.inl ⟨p, job, by rw [setPc_self]⟩)
    next hs =>
      have falling : Falling (s.workers k).pc := by
        cases hpc : (s.workers k).pc <;> simp_all [Parking, Falling, h.parked]
      have absent : job ∉ (s.workers k).inputQueue := fun hin => hrace hin falling
      have ne : job ≠ j := fun eq => absent (eq ▸ hj)
      refine (h.notified parking j hj).of_produce (p := p) ?_ (by simp) (by simp [hp, ne]) (by simp [hp])
      intro q hq
      rw [setPc_of_ne _ _ hq]
  · have away : ¬ i = k := fun eq => hk eq.symm
    exact h.of_produce others (by simp) (by simp [hp, away]) (by simp [hp])

theorem covered_wake {s : Scheduler P} {p : P} {job i k : Nat}
    (hp : (s.producers p).pc = .waking job i) (h : s.Covered k) :
    ((s.setWorker i { s.workers i with wakeups := (s.workers i).wakeups + 1 }).setPc p .idle).Covered k := by
  by_cases hk : k = i
  · subst hk
    refine ⟨by simpa using h.parked, ?_⟩
    intro parking j hj
    exact Or.inr (Or.inr (by simp))
  · have away : ¬ i = k := fun eq => hk eq.symm
    refine h.of_produce (p := p) ?_ (by simp [hk]) (by simp [hp]) (by simp [hp, away])
    intro q hq
    rw [setPc_of_ne _ _ hq, setWorker_producers]

/-- The next step of a producer, for each place it can stand at. -/
inductive Produces (s : Scheduler P) (p : P) : Scheduler P → Prop
  | leastLoaded {job : Nat} (pc : (s.producers p).pc = .load job) (empty : s.parkedWorkers = 0) :
      Produces s p (s.leastLoadedWorker p job)
  | loads {job : Nat} (pc : (s.producers p).pc = .load job) (parked : s.parkedWorkers ≠ 0) :
      Produces s p (s.setPc p (.fetchAnd job s.parkedWorkers))
  | startsOver {job : Nat} {parked : BitVec 64} (pc : (s.producers p).pc = .fetchAnd job parked)
      (lost : parked ≠ s.parkedWorkers) :
      Produces s p ((s.setParkedWorkers
        (s.parkedWorkers &&& ~~~ (parkIdx (countTrailingZeroes parked)))).setPc p (.load job))
  | chooses {job : Nat} {parked : BitVec 64} (pc : (s.producers p).pc = .fetchAnd job parked)
      (won : parked = s.parkedWorkers) (bound : countTrailingZeroes parked < s.count) :
      Produces s p ((s.setParkedWorkers
        (s.parkedWorkers &&& ~~~ (parkIdx (countTrailingZeroes parked)))).setPc p
          (.chosen job (countTrailingZeroes parked)))
  | pushes {job i : Nat} (pc : (s.producers p).pc = .chosen job i) :
      Produces s p ((s.setWorker i { s.workers i with
        inputQueue := (s.workers i).inputQueue ++ [job] }).setPc p (.pushed job i))
  | decides {job i : Nat} (pc : (s.producers p).pc = .pushed job i) :
      Produces s p (s.setPc p (if (s.workers i).state = .parkedNetpoll then .waking job i else .idle))
  | wakes {job i : Nat} (pc : (s.producers p).pc = .waking job i) :
      Produces s p ((s.setWorker i { s.workers i with
        wakeups := (s.workers i).wakeups + 1 }).setPc p .idle)

theorem produces_of_produce {s s' : Scheduler P} {p : P} (h : s.produce p = some s') :
    Produces s p s' := by
  unfold produce at h
  split at h
  next => cases h
  next job pc =>
    split at h
    next empty =>
      cases h
      exact .leastLoaded pc empty
    next parked =>
      cases h
      exact .loads pc parked
  next job parked pc =>
    simp only at h
    split at h
    next lost =>
      cases h
      exact .startsOver pc lost
    next won =>
      split at h
      next bound =>
        cases h
        exact .chooses pc (not_not.mp won) bound
      next => cases h
  next job i pc =>
    cases h
    exact .pushes pc
  next job i pc =>
    cases h
    exact .decides pc
  next job i pc =>
    cases h
    exact .wakes pc

theorem covered_produce {s s' : Scheduler P} {p : P} {k : Nat} (h : s.Covered k)
    (hrace : ¬ s.Races (.produce p)) (hs : s.produce p = some s') : s'.Covered k := by
  -- as long as the producer is choosing, nothing but its own place and the mask moves
  cases produces_of_produce hs with
  | leastLoaded hp =>
    refine h.of_produce (p := p) ?_ rfl (by simp [hp]) (by simp [hp])
    intro q hq
    simp [leastLoadedWorker, hq]
  | loads hp => exact h.of_produce (fun q hq => setPc_of_ne s _ hq) rfl (by simp [hp]) (by simp [hp])
  | startsOver hp =>
    exact h.of_produce (fun q hq => setPc_of_ne _ _ hq) rfl (by simp [hp]) (by simp [hp])
  | chooses hp =>
    exact h.of_produce (fun q hq => setPc_of_ne _ _ hq) rfl (by simp [hp]) (by simp [hp])
  | pushes hp => exact covered_push hp h
  | decides hp =>
    exact covered_decide hp (fun hin falling => hrace ⟨p, _, _, rfl, hp, hin, falling⟩) h
  | wakes hp => exact covered_wake hp h

theorem covered_step {s s' : Scheduler P} {a : SchedulerAction P} {k : Nat} (h : s.Covered k)
    (hrace : ¬ s.Races a) (hs : s.step a = some s') : s'.Covered k := by
  cases a with
  | centralEnqueue p =>
    simp only [step] at hs
    split at hs
    next hidle =>
      cases hs
      exact h.of_produce (fun q hq => setPc_of_ne _ _ hq) rfl (by simp [hidle.1]) (by simp [hidle.1])
    next => simp at hs
  | produce p => exact covered_produce h hrace hs
  | work i r =>
    simp only [step] at hs
    split at hs
    next => exact covered_work h hs
    next => simp at hs

inductive RaceFree (count : Nat) : Scheduler P → Prop
  | start : RaceFree count (start count)
  | step {s s' : Scheduler P} (a : SchedulerAction P) : RaceFree count s → ¬ s.Races a →
      s.step a = some s' → RaceFree count s'

theorem RaceFree.covered {count : Nat} {s : Scheduler P} (h : RaceFree count s) (k : Nat) :
    s.Covered k := by
  induction h with
  | start => exact covered_start count k
  | step a _ hrace hs ih => exact covered_step ih hrace hs

/-- A worker never sleeps with work queued for it, in a run where no producer reads
the worker's state between the dequeue that missed its job and the store of
`PARKED_NETPOLL`. -/
theorem race_free_not_stranded {count : Nat} {s : Scheduler P} (h : RaceFree count s) (i : Nat) :
    ¬ s.Stranded i := by
  rintro ⟨hpc, hqueue, hproducers, hwakeups⟩
  obtain ⟨job, hjob⟩ := List.exists_mem_of_ne_nil _ hqueue
  have parking : Parking (s.workers i).pc := by simp [hpc, Parking]
  rcases (h.covered i).notified parking job hjob with ⟨p, hp⟩ | ⟨p, job', hp⟩ | hpos
  · exact (hproducers p job).1 hp
  · exact (hproducers p job').2 hp
  · omega

theorem produce_frame {s s' : Scheduler P} {p : P} (hs : s.produce p = some s') (i : Nat) :
    (s'.workers i).pc = (s.workers i).pc ∧ (s'.workers i).state = (s.workers i).state := by
  have hworker : ∀ k (w : WorkerBlock), w.pc = (s.workers k).pc → w.state = (s.workers k).state →
      ((s.setWorker k w).workers i).pc = (s.workers i).pc ∧
        ((s.setWorker k w).workers i).state = (s.workers i).state := by
    intro k w hpc hstate
    by_cases hk : i = k
    · subst hk
      rw [setWorker_self]
      exact ⟨hpc, hstate⟩
    · rw [setWorker_of_ne _ _ hk]
      exact ⟨rfl, rfl⟩
  cases produces_of_produce hs with
  | leastLoaded => exact ⟨rfl, rfl⟩
  | loads => exact ⟨rfl, rfl⟩
  | startsOver => exact ⟨rfl, rfl⟩
  | chooses => exact ⟨rfl, rfl⟩
  | pushes => exact hworker _ _ rfl rfl
  | decides => exact ⟨rfl, rfl⟩
  | wakes => exact hworker _ _ rfl rfl

/-- Until it is asleep, a worker that parks still looks like a running one. -/
theorem Reachable.honest {count : Nat} {s : Scheduler P} (h : Reachable count s) (i : Nat) :
    (s.workers i).Honest := by
  induction h with
  | start => exact fun _ => rfl
  | step a _ hs ih =>
    cases a with
    | centralEnqueue p =>
      simp only [Scheduler.step] at hs
      split at hs
      · cases hs
        exact ih
      · simp at hs
    | produce p =>
      obtain ⟨hpc, hstate⟩ := produce_frame hs i
      rw [WorkerBlock.Honest, hpc, hstate]
      exact ih
    | work k r =>
      simp only [Scheduler.step] at hs
      split at hs
      · exact honest_work ih hs
      · simp at hs

theorem step_work {s : Scheduler P} {i : Nat} {r : Round} {w : WorkerBlock} (hi : i < s.count)
    (hw : (s.workers i).advance r = some w) :
    ∃ parked, s.step (.work i r) = some ((s.setParkedWorkers parked).setWorker i w) ∧
      ((s.workers i).pc ≠ .setBit → (s.workers i).pc ≠ .clearBit → parked = s.parkedWorkers) := by
  simp only [step, if_pos hi, work, hw, Option.map_some]
  refine ⟨_, rfl, ?_⟩
  intro hset hclear
  split
  next h => exact absurd h hset
  next h => exact absurd h hclear
  next => rfl

theorem Reachable.falls_asleep {count : Nat} {s : Scheduler P} {i : Nat} (h : Reachable count s)
    (hi : i < s.count) (falling : Falling (s.workers i).pc) :
    ∃ s', Reachable count s' ∧ s'.producers = s.producers ∧ (s'.workers i).pc = .blocked ∧
      (s'.workers i).inputQueue = (s.workers i).inputQueue ∧
      (s'.workers i).wakeups = (s.workers i).wakeups := by
  have parks : ∀ r : Scheduler P, Reachable count r → i < r.count → (r.workers i).pc = .setParked →
      ∃ s', Reachable count s' ∧ s'.producers = r.producers ∧ (s'.workers i).pc = .blocked ∧
        (s'.workers i).inputQueue = (r.workers i).inputQueue ∧
        (s'.workers i).wakeups = (r.workers i).wakeups := by
    intro r hr hir hpc
    have hw : (r.workers i).advance .idle =
        some { r.workers i with state := .parkedNetpoll, pc := .blocked } := by
      simp only [WorkerBlock.advance, hpc]
    obtain ⟨parked, hs, _⟩ := step_work hir hw
    exact ⟨_, hr.step _ hs, by simp⟩
  cases hpc : (s.workers i).pc with
  | setParked => exact parks s h hi hpc
  | setBit =>
    have hw : (s.workers i).advance .idle = some { s.workers i with pc := .setParked } := by
      simp only [WorkerBlock.advance, hpc]
    obtain ⟨parked, hs, _⟩ := step_work hi hw
    obtain ⟨s', hs', same⟩ := parks _ (h.step _ hs) hi (by simp)
    exact ⟨s', hs', by simpa using same⟩
  | _ => simp [hpc, Falling] at falling

/-- Such a race is all it takes: unless another wakeup is on its way, the worker falls
asleep on the job that was queued for it. -/
theorem race_strands {count : Nat} {s : Scheduler P} {p : P} {job i : Nat}
    (h : Reachable count s) (hi : i < s.count) (hp : (s.producers p).pc = .pushed job i)
    (hin : job ∈ (s.workers i).inputQueue) (falling : Falling (s.workers i).pc)
    (alone : ∀ q, q ≠ p → ∀ j, (s.producers q).pc ≠ .pushed j i ∧ (s.producers q).pc ≠ .waking j i)
    (quiet : (s.workers i).wakeups = 0) : ∃ s' : Scheduler P, Reachable count s' ∧ s'.Stranded i := by
  have awake : ¬ Asleep (s.workers i).pc := by
    cases hpc : (s.workers i).pc <;> simp_all [Falling, Asleep]
  have running := h.honest i awake
  have missed : s.step (.produce p) = some (s.setPc p .idle) := by
    simp [Scheduler.step, produce, hp, running]
  obtain ⟨s', hs', producers, hpc, queue, wakeups⟩ := (h.step _ missed).falls_asleep hi falling
  refine ⟨s', hs', hpc, ?_, ?_, by rw [wakeups]; exact quiet⟩
  · rw [queue]
    exact List.ne_nil_of_mem hin
  · intro q j
    rw [producers]
    by_cases hq : q = p
    · subst hq
      simp
    · rw [setPc_of_ne s _ hq]
      exact alone q hq j

theorem RaceFree.reachable {count : Nat} {s : Scheduler P} (h : RaceFree count s) :
    Reachable count s := by
  induction h with
  | start => exact .start
  | step a _ _ hs ih => exact ih.step a hs

theorem RaceFree.work {count : Nat} {s : Scheduler P} {i : Nat} {w : WorkerBlock} (r : Round)
    (h : RaceFree count s) (hi : i < s.count) (hw : (s.workers i).advance r = some w) :
    ∃ s', RaceFree count s' ∧ s'.workers i = w ∧ s'.producers = s.producers ∧ s'.count = s.count ∧
      s'.nextJob = s.nextJob ∧
      ((s.workers i).pc ≠ .setBit → (s.workers i).pc ≠ .clearBit → s'.parkedWorkers = s.parkedWorkers) := by
  obtain ⟨parked, hs, same⟩ := step_work hi hw
  exact ⟨_, h.step _ (by simp [Races]) hs, by simp, rfl, rfl, rfl, same⟩

/-- The only worker, before it has seen any work. -/
structure Spun (s : Scheduler P) (n : Nat) : Prop where
  count : s.count = 1
  worker : s.workers 0 = ⟨[], .running, 0, n, .dequeue 0⟩
  parkedWorkers : s.parkedWorkers = 0
  producers : s.producers = fun _ => ⟨.idle, 0⟩
  nextJob : s.nextJob = 0

theorem race_free_spun {n : Nat} (hn : n ≤ spinsBeforeIdle) :
    ∃ s : Scheduler P, RaceFree 1 s ∧ s.Spun n := by
  induction n with
  | zero => exact ⟨start 1, .start, rfl, rfl, rfl, rfl, rfl⟩
  | succ n ih =>
    obtain ⟨s, h, hs⟩ := ih (by omega)
    have few : ¬ n + 1 > spinsBeforeIdle := by omega
    have look : (s.workers 0).advance .idle = some ⟨[], .running, 0, n + 1, .hot⟩ := by
      simp [hs.worker, WorkerBlock.advance, WorkerBlock.dequeued, schedulerDequeueMax, few, Round.idle]
    obtain ⟨s₁, h₁, w₁, p₁, c₁, j₁, m₁⟩ := h.work .idle (by simp [hs.count]) look
    have poll : (s₁.workers 0).advance { Round.idle with again := true } =
        some ⟨[], .running, 0, n + 1, .tasks⟩ := by
      simp [w₁, WorkerBlock.advance]
    obtain ⟨s₂, h₂, w₂, p₂, c₂, j₂, m₂⟩ := h₁.work _ (by simp [c₁, hs.count]) poll
    have back : (s₂.workers 0).advance .idle = some ⟨[], .running, 0, n + 1, .dequeue 0⟩ := by
      simp [w₂, WorkerBlock.advance, Round.idle]
    obtain ⟨s₃, h₃, w₃, p₃, c₃, j₃, m₃⟩ := h₂.work _ (by simp [c₂, c₁, hs.count]) back
    refine ⟨s₃, h₃, ?_, w₃, ?_, ?_, ?_⟩
    · rw [c₃, c₂, c₁, hs.count]
    · rw [m₃ (by simp [w₂]) (by simp [w₂]), m₂ (by simp [w₁]) (by simp [w₁]),
        m₁ (by simp [hs.worker]) (by simp [hs.worker]), hs.parkedWorkers]
    · rw [p₃, p₂, p₁, hs.producers]
    · rw [j₃, j₂, j₁, hs.nextJob]

/-- The worker has found nothing once too often, and a producer that saw no worker parked
has chosen it. -/
theorem race_free_chosen : ∃ s : Scheduler Unit, RaceFree 1 s ∧ s.count = 1 ∧
    s.workers 0 = ⟨[], .running, 0, 0, .setBit⟩ ∧ (s.producers ()).pc = .chosen 0 0 := by
  obtain ⟨s, h, hs⟩ := race_free_spun (P := Unit) (Nat.le_refl spinsBeforeIdle)
  have look : (s.workers 0).advance .idle = some ⟨[], .running, 0, 0, .setBit⟩ := by
    simp [hs.worker, WorkerBlock.advance, WorkerBlock.dequeued, schedulerDequeueMax, Round.idle]
  obtain ⟨s₁, h₁, w₁, p₁, c₁, j₁, m₁⟩ := h.work .idle (by simp [hs.count]) look
  have none : s₁.parkedWorkers = 0 := by
    rw [m₁ (by simp [hs.worker]) (by simp [hs.worker]), hs.parkedWorkers]
  have one : s₁.count = 1 := by rw [c₁, hs.count]
  let s₂ := { s₁ with nextJob := s₁.nextJob + 1 }.setPc () (.load s₁.nextJob)
  have enqueue : s₁.step (.centralEnqueue ()) = some s₂ := by
    simp [step, p₁, hs.producers, one, s₂]
  have h₂ : RaceFree 1 s₂ := h₁.step _ (by simp [Races]) enqueue
  have pick : s₂.step (.produce ()) = some (s₂.leastLoadedWorker () 0) := by
    simp [step, produce, s₂, setPc, none, j₁, hs.nextJob]
  have h₃ := h₂.step _ (by simp [Races, s₂]) pick
  exact ⟨_, h₃, one, w₁, by simp [leastLoadedWorker, s₂, setPc, p₁, hs.producers]⟩

/-- It parks before the producer pushes: the wakeup is still to be decided on. -/
theorem race_free_not_stranded_at_push : ∃ s : Scheduler Unit, RaceFree 1 s ∧
    (s.workers 0).pc = .blocked ∧ (s.workers 0).inputQueue = [0] ∧ ¬ s.Stranded 0 := by
  obtain ⟨s, h, one, hw, hp⟩ := race_free_chosen
  have setBit : (s.workers 0).advance .idle = some ⟨[], .running, 0, 0, .setParked⟩ := by
    simp [hw, WorkerBlock.advance]
  obtain ⟨s₁, h₁, w₁, p₁, c₁, _⟩ := h.work .idle (by simp [one]) setBit
  have setParked : (s₁.workers 0).advance .idle = some ⟨[], .parkedNetpoll, 0, 0, .blocked⟩ := by
    simp [w₁, WorkerBlock.advance]
  obtain ⟨s₂, h₂, w₂, p₂, _⟩ := h₁.work .idle (by simp [c₁, one]) setParked
  let s₃ := (s₂.setWorker 0 ⟨[0], .parkedNetpoll, 0, 0, .blocked⟩).setPc () (.pushed 0 0)
  have chosen : (s₂.producers ()).pc = .chosen 0 0 := by rw [p₂, p₁, hp]
  have push : s₂.step (.produce ()) = some s₃ := by
    simp [step, produce, chosen, w₂, s₃]
  have h₃ : RaceFree 1 s₃ := h₂.step _ (by simp [Races, chosen]) push
  exact ⟨s₃, h₃, by simp [s₃], by simp [s₃], race_free_not_stranded h₃ 0⟩

/-- The producer pushes and reads `RUNNING` before it parks, and it sleeps on the job. -/
theorem stranded_worker_reachable : ∃ s : Scheduler Unit, Reachable 1 s ∧ s.Stranded 0 := by
  obtain ⟨s, h, one, hw, hp⟩ := race_free_chosen
  let s₁ := (s.setWorker 0 ⟨[0], .running, 0, 0, .setBit⟩).setPc () (.pushed 0 0)
  have push : s.step (.produce ()) = some s₁ := by
    simp [step, produce, hp, hw, s₁]
  have h₁ : Reachable 1 s₁ := h.reachable.step _ push
  have pushed : (s₁.producers ()).pc = .pushed 0 0 := by simp [s₁]
  exact race_strands h₁ (by simp [s₁, setPc, setWorker, one]) pushed (by simp [s₁])
    (by simp [s₁, Falling]) (by simp) (by simp [s₁])

end Scheduler

end XiRuntime
