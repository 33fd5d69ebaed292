import Mathlib.Algebra.Order.Ring.Nat
import XiRuntime.Runs

namespace XiRuntime

/-- `execution_budget`; a `usize` is a `UInt64`. -/
structure ExecutionBudget where
  allocated : UInt64
  jitter : UInt64
  startTsc : UInt64
  currTsc : UInt64
deriving DecidableEq, Repr

namespace ExecutionBudget

/-- The constructor, where `_rdtscl()` reads `tsc`. -/
def create (a jitter tsc : UInt64) : ExecutionBudget := ⟨a, jitter, tsc, tsc⟩

def spent (b : ExecutionBudget) : UInt64 := (b.currTsc + b.jitter) - b.startTsc

def isExpended (b : ExecutionBudget) : Bool := b.spent ≥ b.allocated

def remainder (b : ExecutionBudget) : UInt64 := b.spent - b.allocated

def adjustSpent (b : ExecutionBudget) (tsc : UInt64) : Bool × ExecutionBudget :=
  let b' := { b with currTsc := tsc }
  (!b'.isExpended, b')

/-- The subtraction in `remainder` goes below 0. -/
def RemainderWraps (b : ExecutionBudget) : Prop := b.spent < b.allocated

/-- The cycles since the start, as a number that does not wrap. -/
def cycles (b : ExecutionBudget) : Nat := b.currTsc.toNat - b.startTsc.toNat

/-- A loop of the worker over one of its queues: the time stamp counter is read behind
each task, and the loop is left early once the budget is expended. -/
def runTasks (b : ExecutionBudget) : List UInt64 → Bool × ExecutionBudget
  | [] => (true, b)
  | tsc :: tscs =>
    let p := b.adjustSpent tsc
    if p.1 then p.2.runTasks tscs else (false, p.2)

end ExecutionBudget

/-- The fields of `worker::config` that the budgets of the hot loop come from. -/
structure WorkerConfig where
  loopBudgetAllocation : UInt64
  maxLoopBudgetAllocation : UInt64
deriving DecidableEq, Repr

def WorkerConfig.default : WorkerConfig := ⟨1000000, 5000000⟩

/-- One round of the hot loop: what the time stamp counter shows at its start and behind
each task that is there to be run, from the ports and from the ready queue. -/
structure HotRound where
  start : UInt64
  ports : List UInt64
  ready : List UInt64
deriving DecidableEq, Repr

/-- The time stamp counter does not overflow during the round. -/
def HotRound.NoOverflow (r : HotRound) : Prop := ∀ tsc ∈ r.ports ++ r.ready, r.start ≤ tsc

/-- Where a round leads: `goto poll`, `goto central_schedule` or the end of the loop's body. -/
inductive RoundExit
  | poll
  | centralSchedule
  | nextPass
deriving DecidableEq, Repr

structure RoundEnd where
  exit : RoundExit
  loopBudget : ExecutionBudget
  loopBudgetAllocation : UInt64
deriving DecidableEq, Repr

namespace WorkerConfig

/-- A round of the hot loop in `worker::run`, with `loop_budget_allocation` before and
after it. -/
def hotRound (c : WorkerConfig) (allocation : UInt64) (r : HotRound) : RoundEnd :=
  let ports := (ExecutionBudget.create allocation 0 r.start).runTasks r.ports
  if ports.1 = false then ⟨.poll, ports.2, allocation⟩
  else
    let ready := ports.2.runTasks r.ready
    if ready.1 = false then ⟨.poll, ready.2, allocation⟩
    else if ready.2.isExpended = false then
      ⟨.centralSchedule, ready.2, max c.maxLoopBudgetAllocation (allocation + ready.2.remainder)⟩
    else ⟨.nextPass, ready.2, c.loopBudgetAllocation⟩

/-- `loop_budget_allocation` after some rounds of `worker::run`. -/
def allocation (c : WorkerConfig) (rounds : List HotRound) : UInt64 :=
  runFrom (fun a r => (c.hotRound a r).loopBudgetAllocation) c.loopBudgetAllocation rounds

/-- Unspent budget is added to the next allocation as far as the maximum allows, and an
expended one leaves the configured allocation. -/
structure CarriesOver (c : WorkerConfig) (a : UInt64) (r : HotRound) : Prop where
  carried : (c.hotRound a r).loopBudget.cycles < a.toNat →
    (c.hotRound a r).loopBudgetAllocation.toNat =
      min c.maxLoopBudgetAllocation.toNat (a.toNat + (a.toNat - (c.hotRound a r).loopBudget.cycles))
  reset : a.toNat ≤ (c.hotRound a r).loopBudget.cycles →
    (c.hotRound a r).loopBudgetAllocation = c.loopBudgetAllocation
  remainder : (c.hotRound a r).loopBudget.cycles < a.toNat →
    (c.hotRound a r).loopBudget.remainder.toNat = a.toNat - (c.hotRound a r).loopBudget.cycles ∧
      ¬ (c.hotRound a r).loopBudget.RemainderWraps

/-- Some task ends when the configured allocation is used up, if it is not 0. -/
def UsesUp (c : WorkerConfig) (r : HotRound) : Prop :=
  c.loopBudgetAllocation = 0 ∨
    ∃ tsc ∈ r.ports ++ r.ready, c.loopBudgetAllocation.toNat ≤ tsc.toNat - r.start.toNat

end WorkerConfig

namespace ExecutionBudget

variable {b : ExecutionBudget} {tscs : List UInt64}

/-- Nothing but the last reading changes. -/
theorem runTasks_frame (b : ExecutionBudget) (tscs : List UInt64) :
    ∃ tsc, (tsc = b.currTsc ∨ tsc ∈ tscs) ∧ (b.runTasks tscs).2 = { b with currTsc := tsc } := by
  induction tscs generalizing b with
  | nil => exact ⟨b.currTsc, Or.inl rfl, rfl⟩
  | cons tsc tscs ih =>
    rw [runTasks]
    cases he : { b with currTsc := tsc }.isExpended with
    | true => exact ⟨tsc, Or.inr List.mem_cons_self, by simp [adjustSpent, he]⟩
    | false =>
      obtain ⟨last, read, same⟩ := ih { b with currTsc := tsc }
      refine ⟨last, Or.inr ?_, by simpa [adjustSpent, he] using same⟩
      rcases read with rfl | later
      · exact List.mem_cons_self
      · exact List.mem_cons_of_mem tsc later

/-- The two loops of a round are one over the tasks of both queues. -/
theorem runTasks_append (b : ExecutionBudget) (xs ys : List UInt64) :
    b.runTasks (xs ++ ys) =
      if (b.runTasks xs).1 = false then b.runTasks xs else (b.runTasks xs).2.runTasks ys := by
  induction xs generalizing b with
  | nil => rfl
  | cons tsc xs ih =>
    simp only [List.cons_append, runTasks]
    by_cases within : (b.adjustSpent tsc).1 = true
    · simp only [if_pos within]
      exact ih _
    · simp only [if_neg within, if_true]

/-- The loop is left early at the first reading that expends the budget. -/
theorem runTasks_within (b : ExecutionBudget) (tscs : List UInt64) :
    (b.runTasks tscs).1 = true ↔ ∀ tsc ∈ tscs, { b with currTsc := tsc }.isExpended = false := by
  induction tscs generalizing b with
  | nil => simp [runTasks]
  | cons tsc tscs ih =>
    rw [runTasks, List.forall_mem_cons]
    cases he : { b with currTsc := tsc }.isExpended with
    | true => simp [adjustSpent, he]
    | false => simpa [adjustSpent, he] using ih { b with currTsc := tsc }

theorem runTasks_left (h : (b.runTasks tscs).1 = false) : (b.runTasks tscs).2.isExpended = true := by
  induction tscs generalizing b with
  | nil => simp [runTasks] at h
  | cons tsc tscs ih =>
    rw [runTasks] at h ⊢
    cases he : { b with currTsc := tsc }.isExpended with
    | true => simp [adjustSpent, he]
    | false =>
      simp only [adjustSpent, he, Bool.not_false, if_true] at h ⊢
      exact ih h

/-- Behind the last task there is budget left; a round without tasks spends none. -/
theorem runTasks_stayed (h : (b.runTasks tscs).1 = true) :
    (tscs = [] ∧ (b.runTasks tscs).2 = b) ∨ (b.runTasks tscs).2.isExpended = false := by
  induction tscs generalizing b with
  | nil => exact Or.inl ⟨rfl, rfl⟩
  | cons tsc tscs ih =>
    right
    rw [runTasks] at h ⊢
    cases he : { b with currTsc := tsc }.isExpended with
    | true => simp [adjustSpent, he] at h
    | false =>
      simp only [adjustSpent, he, Bool.not_false, if_true] at h ⊢
      rcases ih h with ⟨-, same⟩ | left
      · rw [same]
        exact he
      · exact left

theorem isExpended_create (a tsc : UInt64) : (create a 0 tsc).isExpended = true ↔ a = 0 := by
  simp [create, isExpended, spent]

theorem isExpended_of_zero (h : b.allocated = 0) : b.isExpended = true := by
  simp [isExpended, h]

/-- The budget is used up behind the loop just when it was empty from the start, or when one
of the readings uses it up. -/
theorem runTasks_expended (a tsc : UInt64) (tscs : List UInt64) :
    ((create a 0 tsc).runTasks tscs).2.isExpended = true ↔
      a = 0 ∨ ∃ t ∈ tscs, { create a 0 tsc with currTsc := t }.isExpended = true := by
  cases h : ((create a 0 tsc).runTasks tscs).1 with
  | false =>
    refine iff_of_true (runTasks_left h) (Or.inr ?_)
    by_contra none
    have within : ((create a 0 tsc).runTasks tscs).1 = true := by
      rw [runTasks_within]
      intro t ht
      by_contra he
      exact none ⟨t, ht, by simpa using he⟩
    rw [h] at within
    cases within
  | true =>
    have within := (runTasks_within _ _).mp h
    rcases runTasks_stayed h with ⟨rfl, same⟩ | left
    · rw [same, isExpended_create]
      simp
    · refine iff_of_false (by simp [left]) ?_
      intro used
      rcases used with zero | ⟨t, ht, he⟩
      · obtain ⟨last, -, same⟩ := runTasks_frame (create a 0 tsc) tscs
        rw [isExpended_of_zero (by rw [same]; exact zero)] at left
        cases left
      · rw [within t ht] at he
        cases he

/-- The remainder of an unexpended budget always wraps. -/
theorem remainderWraps_iff : b.RemainderWraps ↔ ¬ b.isExpended = true := by
  rw [RemainderWraps, isExpended, decide_eq_true_iff, ge_iff_le, UInt64.not_le]

/-- In the number of cycles, as long as the counter does not overflow. -/
theorem isExpended_iff (hj : b.jitter = 0) (hle : b.startTsc ≤ b.currTsc) :
    b.isExpended = true ↔ b.allocated.toNat ≤ b.cycles := by
  rw [isExpended, decide_eq_true_iff, ge_iff_le, UInt64.le_iff_toNat_le, spent, hj, UInt64.add_zero,
    UInt64.toNat_sub_of_le _ _ hle]
  rfl

end ExecutionBudget

namespace WorkerConfig

open ExecutionBudget

variable {c : WorkerConfig} {a : UInt64} {r : HotRound}

/-- The budget that a round ends with. -/
theorem hotRound_budget (c : WorkerConfig) (a : UInt64) (r : HotRound) :
    (c.hotRound a r).loopBudget = ((create a 0 r.start).runTasks (r.ports ++ r.ready)).2 := by
  rw [runTasks_append, hotRound]
  simp only
  split
  next => rfl
  next =>
    split
    next => rfl
    next => split <;> rfl

/-- What is left in the end decides on the next allocation; an expended budget leaves the
one before, or the configured one. -/
theorem hotRound_allocation (expended : (c.hotRound a r).loopBudget.isExpended = true) :
    (c.hotRound a r).loopBudgetAllocation = a ∨
      (c.hotRound a r).loopBudgetAllocation = c.loopBudgetAllocation := by
  rw [hotRound] at expended ⊢
  simp only at expended ⊢
  split
  next => exact Or.inl rfl
  next hports =>
    rw [if_neg hports] at expended
    split
    next => exact Or.inl rfl
    next hready =>
      rw [if_neg hready] at expended
      split
      next left =>
        rw [if_pos left] at expended
        rw [left] at expended
        cases expended
      next => exact Or.inr rfl

theorem hotRound_kept (expended : (c.hotRound c.loopBudgetAllocation r).loopBudget.isExpended = true) :
    (c.hotRound c.loopBudgetAllocation r).loopBudgetAllocation = c.loopBudgetAllocation := by
  rcases hotRound_allocation expended with same | same
  · exact same
  · exact same

theorem hotRound_cycles (h : r.NoOverflow) (a : UInt64) :
    (c.hotRound a r).loopBudget.isExpended = true ↔ a.toNat ≤ (c.hotRound a r).loopBudget.cycles := by
  obtain ⟨tsc, read, same⟩ := runTasks_frame (create a 0 r.start) (r.ports ++ r.ready)
  rw [hotRound_budget, same]
  refine isExpended_iff rfl ?_
  rcases read with rfl | read
  · exact UInt64.le_refl _
  · exact h tsc read

/-- With the configured allocation a round is right just when it uses its budget up. -/
theorem carriesOver_iff (h : r.NoOverflow) :
    c.CarriesOver c.loopBudgetAllocation r ↔
      (c.hotRound c.loopBudgetAllocation r).loopBudget.isExpended = true := by
  rw [hotRound_cycles h]
  constructor
  · intro carries
    by_contra left
    have kept := (carries.remainder (Nat.lt_of_not_le left)).2
    rw [remainderWraps_iff, hotRound_cycles h] at kept
    exact kept left
  · intro spent
    have expended := (hotRound_cycles (c := c) h _).mpr spent
    exact ⟨fun left => absurd spent (Nat.not_le.mpr left), fun _ => hotRound_kept expended,
      fun left => absurd spent (Nat.not_le.mpr left)⟩

theorem usesUp_iff (h : r.NoOverflow) :
    c.UsesUp r ↔ (c.hotRound c.loopBudgetAllocation r).loopBudget.isExpended = true := by
  rw [hotRound_budget, runTasks_expended, UsesUp]
  refine or_congr_right ?_
  constructor
  · intro used
    obtain ⟨tsc, ht, reached⟩ := used
    exact ⟨tsc, ht, (isExpended_iff rfl (h tsc ht)).mpr reached⟩
  · intro used
    obtain ⟨tsc, ht, expended⟩ := used
    exact ⟨tsc, ht, (isExpended_iff rfl (h tsc ht)).mp expended⟩

/-- Rounds that begin with the configured allocation and use it up leave it. -/
theorem allocation_kept {rounds : List HotRound} (stamps : ∀ r ∈ rounds, r.NoOverflow)
    (used : ∀ n r, rounds[n]? = some r → c.allocation (rounds.take n) = c.loopBudgetAllocation →
      c.UsesUp r) (n : Nat) :
    c.allocation (rounds.take n) = c.loopBudgetAllocation := by
  refine Runs.invariant (P := fun a => a = c.loopBudgetAllocation) rfl ?_ n
  intro n r hr here
  rw [here]
  exact hotRound_kept ((usesUp_iff (stamps r (List.mem_of_getElem? hr))).mp (used n r hr here))

/-- The worker carries its budget over as it should exactly in the runs in which there is
nothing to carry over. -/
theorem budget_carried_over_iff (c : WorkerConfig) {rounds : List HotRound}
    (stamps : ∀ r ∈ rounds, r.NoOverflow) :
    (∀ n r, rounds[n]? = some r → c.CarriesOver (c.allocation (rounds.take n)) r) ↔
      ∀ r ∈ rounds, c.UsesUp r := by
  have right : ∀ {r}, r ∈ rounds → (c.CarriesOver c.loopBudgetAllocation r ↔ c.UsesUp r) := by
    intro r hr
    rw [carriesOver_iff (stamps r hr), usesUp_iff (stamps r hr)]
  constructor
  · intro carries
    -- so far nothing was carried over, so each round begins with the configured allocation
    have kept := allocation_kept (c := c) stamps (fun n r hr here =>
      (right (List.mem_of_getElem? hr)).mp (here ▸ carries n r hr))
    intro r mem
    obtain ⟨n, hr⟩ := List.getElem?_of_mem mem
    exact (right mem).mp (kept n ▸ carries n r hr)
  · intro used n r hr
    have mem := List.mem_of_getElem? hr
    have kept := allocation_kept stamps (fun n r hr _ => used r (List.mem_of_getElem? hr)) n
    rw [kept]
    exact (right mem).mpr (used r mem)

/-- Two rounds that use up their million of cycles, the second one with the ready queue. -/
theorem budget_carried_over_used_up :
    WorkerConfig.default.allocation [⟨10, [500000, 1000010], []⟩, ⟨1000020, [], [3000000]⟩] = 1000000 ∧
      ∀ n r, ([⟨10, [500000, 1000010], []⟩, ⟨1000020, [], [3000000]⟩] : List HotRound)[n]? = some r →
        WorkerConfig.default.CarriesOver (WorkerConfig.default.allocation
          (([⟨10, [500000, 1000010], []⟩, ⟨1000020, [], [3000000]⟩] : List HotRound).take n)) r := by
  refine ⟨by decide, (budget_carried_over_iff _ ?_).mpr ?_⟩
  · simp [HotRound.NoOverflow]
  · simp [UsesUp, WorkerConfig.default]

/-- An idle round leaves all of the million, and the next allocation is the maximum of five
millions; it should be two millions. -/
theorem budget_not_carried_over :
    ¬ ∀ (c : WorkerConfig) (rounds : List HotRound), c.loopBudgetAllocation ≤ c.maxLoopBudgetAllocation →
      (∀ r ∈ rounds, r.NoOverflow) →
        ∀ n r, rounds[n]? = some r → c.CarriesOver (c.allocation (rounds.take n)) r := by
  intro h
  have carries := h WorkerConfig.default [⟨10, [], []⟩] (by decide) (by simp [HotRound.NoOverflow]) 0 _ rfl
  have next := carries.carried (by decide)
  revert next
  decide

end WorkerConfig

end XiRuntime
