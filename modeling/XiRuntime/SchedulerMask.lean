import XiRuntime.SchedulerParking

namespace XiRuntime

/-- Between the `fetch_or` and the `fetch_and` of `_park`. -/
def InPark : WorkerPc → Prop
  | .setParked | .blocked | .wakeRead | .setRunning | .clearBit => True
  | _ => False

namespace WorkerBlock

theorem dequeued_not_inPark (w : WorkerBlock) (cnt : Nat) (r : Round) :
    ¬ InPark (w.dequeued cnt r).pc := by
  unfold dequeued
  split
  next =>
    split
    next => simp [InPark]
    next => simp [InPark]
  next => simp [InPark]

theorem advance_inPark {w w' : WorkerBlock} {r : Round} (h : w.advance r = some w')
    (hin : InPark w'.pc) : w.pc = .setBit ∨ (InPark w.pc ∧ w.pc ≠ .clearBit) := by
  unfold advance at h
  split at h
  next cnt hpc =>
    exfalso
    split at h
    next =>
      cases h
      exact dequeued_not_inPark w cnt r hin
    next =>
      split at h
      next =>
        cases h
        exact dequeued_not_inPark w cnt r hin
      next =>
        cases h
        simp [InPark] at hin
  next hpc =>
    exfalso
    split at h
    next =>
      cases h
      revert hin
      split <;> simp [InPark]
    next =>
      cases h
      simp [InPark] at hin
  next hpc =>
    cases h
    simp [InPark] at hin
  next hpc =>
    cases h
    revert hin
    simp only
    split <;> simp [InPark]
  next hpc => exact Or.inl hpc
  next hpc => exact Or.inr (by simp [hpc, InPark])
  next hpc => exact Or.inr (by simp [hpc, InPark])
  next hpc => exact Or.inr (by simp [hpc, InPark])
  next hpc => exact Or.inr (by simp [hpc, InPark])
  next hpc =>
    cases h
    simp [InPark] at hin

end WorkerBlock

theorem parkIdx_getLsbD (i k : Nat) : (parkIdx i).getLsbD k = decide (k = parkBit i) := by
  have hbit : parkBit i < 64 := Nat.mod_lt _ (by decide)
  rw [parkIdx, BitVec.getLsbD_shiftLeft, BitVec.getLsbD_one, Bool.eq_iff_iff]
  simp only [Bool.and_eq_true, decide_eq_true_eq, Bool.not_eq_true', decide_eq_false_iff_not]
  omega

theorem reset_getLsbD (m : BitVec 64) (i k : Nat) :
    (m &&& ~~~ (parkIdx i)).getLsbD k = (m.getLsbD k && !decide (k = parkBit i)) := by
  rw [BitVec.getLsbD_and, BitVec.getLsbD_not, parkIdx_getLsbD]
  by_cases hk : k < 64
  · simp [hk]
  · simp [BitVec.getLsbD_of_ge m k (by omega)]

/-- Resetting a bit that is not set changes nothing. -/
theorem reset_of_clear {m : BitVec 64} {i : Nat} (h : m.getLsbD (parkBit i) = false) :
    m &&& ~~~ (parkIdx i) = m := by
  apply BitVec.eq_of_getLsbD_eq
  intro k _
  rw [reset_getLsbD]
  by_cases he : k = parkBit i
  · simp [he, h]
  · simp [he]

/-- One step of the scheduler in a run. -/
structure Transition (P : Type) where
  before : Scheduler P
  action : SchedulerAction P
  after : Scheduler P

namespace Transition

variable {P : Type} (t : Transition P) (i : Nat)

/-- The bit of worker `i` is cleared. -/
def Clears : Prop :=
  t.before.parkedWorkers.getLsbD (parkBit i) = true ∧
    t.after.parkedWorkers.getLsbD (parkBit i) = false

/-- Worker `i` resets its bit on leaving `_park`. -/
def Leaves : Prop := ∃ r, t.action = .work i r ∧ (t.before.workers i).pc = .clearBit

/-- A call of `_first_parked_worker` returns worker `i`. -/
def Returns : Prop :=
  ∃ p job parked, t.action = .produce p ∧ (t.before.producers p).pc = .fetchAnd job parked ∧
    (t.after.producers p).pc = .chosen job i

/-- A call of `_first_parked_worker` has lost a race. -/
def StartsOver : Prop :=
  ∃ p job parked, t.action = .produce p ∧ (t.before.producers p).pc = .fetchAnd job parked ∧
    (t.after.producers p).pc = .load job

def KeepsMask : Prop :=
  (∀ i < t.before.count, t.Clears i → t.Leaves i ∨ t.Returns i) ∧
    (t.StartsOver → t.after.parkedWorkers = t.before.parkedWorkers)

end Transition

namespace Scheduler

variable {P : Type}

/-- The mask has changed since it was loaded, but the first worker that was parked
then still is. -/
def Steals (s : Scheduler P) (a : SchedulerAction P) : Prop :=
  ∃ p job parked, a = .produce p ∧ (s.producers p).pc = .fetchAnd job parked ∧
    parked ≠ s.parkedWorkers ∧
      s.parkedWorkers.getLsbD (parkBit (countTrailingZeroes parked)) = true

/-- There is another worker with the bit of worker `i`. -/
def SharesBit (s : Scheduler P) (i : Nat) : Prop :=
  ∃ k < s.count, k ≠ i ∧ parkBit k = parkBit i

/-- A bit that two workers share is cleared, by a worker that leaves `_park` or by a
call that returns one. -/
def ClearsShared (s : Scheduler P) (a : SchedulerAction P) : Prop :=
  (∃ i r, a = .work i r ∧ (s.workers i).pc = .clearBit ∧
      s.parkedWorkers.getLsbD (parkBit i) = true ∧ s.SharesBit i) ∨
    ∃ p job, a = .produce p ∧ (s.producers p).pc = .fetchAnd job s.parkedWorkers ∧
      s.parkedWorkers.getLsbD (parkBit (countTrailingZeroes s.parkedWorkers)) = true ∧
      s.SharesBit (countTrailingZeroes s.parkedWorkers)

/-- Up to 64 workers have bits of their own. -/
theorem not_sharesBit {s : Scheduler P} (few : s.count ≤ 64) {i : Nat} (hi : i < 64) :
    ¬ s.SharesBit i := by
  rintro ⟨k, hk, hne, hsame⟩
  unfold parkBit at hsame
  omega

/-- A call has returned worker `i` since that went into `_park`. -/
def TakenSince (ts : List (Transition P)) (i : Nat) : Prop :=
  ∃ pre t post, ts = pre ++ t :: post ∧ t.Returns i ∧
    ∀ u ∈ t :: post, InPark (u.before.workers i).pc

/-- No worker in `_park` is missing from the mask unless a call has returned it. -/
def KeepsParked (ts : List (Transition P)) (s : Scheduler P) : Prop :=
  ∀ i < s.count, InPark (s.workers i).pc →
    s.parkedWorkers.getLsbD (parkBit i) = true ∨ TakenSince ts i

theorem TakenSince.snoc {ts : List (Transition P)} {i : Nat} (h : TakenSince ts i)
    {u : Transition P} (hu : InPark (u.before.workers i).pc) : TakenSince (ts ++ [u]) i := by
  obtain ⟨pre, t, post, rfl, hreturns, hin⟩ := h
  refine ⟨pre, t, post ++ [u], by simp, hreturns, ?_⟩
  intro v hv
  rw [← List.cons_append] at hv
  rcases List.mem_append.mp hv with hv | hv
  · exact hin v hv
  · cases List.mem_singleton.mp hv
    exact hu

theorem keepsMask_of_same {s s' : Scheduler P} {a : SchedulerAction P}
    (h : s'.parkedWorkers = s.parkedWorkers) : (⟨s, a, s'⟩ : Transition P).KeepsMask := by
  refine ⟨?_, fun _ => h⟩
  rintro i - ⟨hset, hclear⟩
  have heq : s'.parkedWorkers.getLsbD (parkBit i) = s.parkedWorkers.getLsbD (parkBit i) := by
    rw [h]
  simp only at hset hclear
  rw [heq, hset] at hclear
  cases hclear

/-- A step that resets the bit of worker `i`, which leaves or is returned. -/
theorem keepsMask_of_reset {s s' : Scheduler P} {a : SchedulerAction P} {i : Nat}
    (hmask : s'.parkedWorkers = s.parkedWorkers &&& ~~~ (parkIdx i))
    (hown : ∀ k, (⟨s, a, s'⟩ : Transition P).Leaves k ∨ (⟨s, a, s'⟩ : Transition P).Returns k ↔ k = i)
    (hstart : ¬ (⟨s, a, s'⟩ : Transition P).StartsOver) :
    (⟨s, a, s'⟩ : Transition P).KeepsMask ↔
      ¬ (s.parkedWorkers.getLsbD (parkBit i) = true ∧ s.SharesBit i) := by
  constructor
  · rintro ⟨hkeeps, -⟩ ⟨hbit, k, hk, hne, hsame⟩
    have hclears : (⟨s, a, s'⟩ : Transition P).Clears k := by
      refine ⟨by rw [hsame]; exact hbit, ?_⟩
      simp only [hmask, reset_getLsbD, hsame]
      simp
    exact hne ((hown k).mp (hkeeps k hk hclears))
  · intro hshared
    refine ⟨?_, fun hs => absurd hs hstart⟩
    rintro k hk ⟨hset, hclear⟩
    apply (hown k).mpr
    by_contra hne
    simp only at hset
    simp only [hmask, reset_getLsbD, hset, Bool.true_and, Bool.not_eq_false',
      decide_eq_true_eq] at hclear
    exact hshared ⟨hclear ▸ hset, k, hk, hne, hclear⟩

theorem setWorker_setWorker (s : Scheduler P) (i : Nat) (w w' : WorkerBlock) :
    (s.setWorker i w).setWorker i w' = s.setWorker i w' := by
  simp [setWorker]

theorem setWorker_same (s : Scheduler P) (i : Nat) : s.setWorker i (s.workers i) = s := by
  simp [setWorker]

variable [DecidableEq P]

/-- The steps from the start on, and the state they lead to. -/
inductive Trace (count : Nat) : List (Transition P) → Scheduler P → Prop
  | start : Trace count [] (start count)
  | step {ts : List (Transition P)} {s s' : Scheduler P} {a : SchedulerAction P} :
      Trace count ts s → s.step a = some s' → Trace count (ts ++ [⟨s, a, s'⟩]) s'

/-- What a step does to the mask. -/
theorem step_mask {s s' : Scheduler P} {a : SchedulerAction P} (h : s.step a = some s') :
    (s'.parkedWorkers = s.parkedWorkers ∧
        (∀ p job parked, a = .produce p → (s.producers p).pc ≠ .fetchAnd job parked) ∧
        ∀ i r, a = .work i r → (s.workers i).pc ≠ .clearBit) ∨
      (∃ i r, a = .work i r ∧ (s.workers i).pc = .setBit ∧
        s'.parkedWorkers = s.parkedWorkers ||| parkIdx i) ∨
      (∃ i r, a = .work i r ∧ (s.workers i).pc = .clearBit ∧
        s'.parkedWorkers = s.parkedWorkers &&& ~~~ (parkIdx i)) ∨
      ∃ p job parked, a = .produce p ∧ (s.producers p).pc = .fetchAnd job parked ∧
        s'.parkedWorkers = s.parkedWorkers &&& ~~~ (parkIdx (countTrailingZeroes parked)) ∧
        ((parked ≠ s.parkedWorkers ∧ (s'.producers p).pc = .load job) ∨
          (parked = s.parkedWorkers ∧ (s'.producers p).pc = .chosen job (countTrailingZeroes parked))) := by
  cases a with
  | centralEnqueue p =>
    left
    simp only [step] at h
    split at h
    next =>
      cases h
      exact ⟨rfl, by simp⟩
    next => simp at h
  | work i r =>
    simp only [step] at h
    split at h
    next =>
      obtain ⟨w, hw, rfl⟩ := Option.map_eq_some_iff.mp h
      by_cases hset : (s.workers i).pc = .setBit
      · exact Or.inr (Or.inl ⟨i, r, rfl, hset, by simp [hset, setWorker, setParkedWorkers]⟩)
      by_cases hclear : (s.workers i).pc = .clearBit
      · exact Or.inr (Or.inr (Or.inl ⟨i, r, rfl, hclear, by simp [hclear, setWorker, setParkedWorkers]⟩))
      left
      refine ⟨?_, by simp, ?_⟩
      · simp only [setWorker, setParkedWorkers]
      · rintro k r' ⟨⟩
        exact hclear
    next => simp at h
  | produce p =>
    have hsame : ∀ pc, (s.producers p).pc = pc → (∀ job parked, pc ≠ .fetchAnd job parked) →
        (∀ q job parked, SchedulerAction.produce p = .produce q →
          (s.producers q).pc ≠ .fetchAnd job parked) ∧
        ∀ i r, SchedulerAction.produce p = .work i r → (s.workers i).pc ≠ .clearBit := by
      intro pc hpc hne
      refine ⟨?_, by simp⟩
      rintro q job parked ⟨⟩
      rw [hpc]
      exact hne job parked
    cases produces_of_produce h with
    | leastLoaded hpc => exact Or.inl ⟨rfl, hsame _ hpc (by simp)⟩
    | loads hpc => exact Or.inl ⟨rfl, hsame _ hpc (by simp)⟩
    | startsOver hpc lost =>
      exact Or.inr (Or.inr (Or.inr ⟨p, _, _, rfl, hpc, rfl, Or.inl ⟨lost, by simp⟩⟩))
    | chooses hpc won =>
      exact Or.inr (Or.inr (Or.inr ⟨p, _, _, rfl, hpc, rfl, Or.inr ⟨won, by simp⟩⟩))
    | pushes hpc => exact Or.inl ⟨rfl, hsame _ hpc (by simp)⟩
    | decides hpc => exact Or.inl ⟨rfl, hsame _ hpc (by simp)⟩
    | wakes hpc => exact Or.inl ⟨rfl, hsame _ hpc (by simp)⟩

/-- A step keeps the mask as it should exactly when it does not take away the bit of
a worker that it then passes over, nor one that is another worker's too. -/
theorem keepsMask_iff {s s' : Scheduler P} {a : SchedulerAction P} (h : s.step a = some s') :
    (⟨s, a, s'⟩ : Transition P).KeepsMask ↔ ¬ s.Steals a ∧ ¬ s.ClearsShared a := by
  obtain ⟨hmask, hnot, hstay⟩ | ⟨i, r, rfl, hpc, hmask⟩ | ⟨i, r, rfl, hpc, hmask⟩ |
    ⟨p, job, parked, rfl, hpc, hmask, hend⟩ := step_mask h
  · refine iff_of_true (keepsMask_of_same hmask) ⟨?_, ?_⟩
    · rintro ⟨p, job, parked, ha, hp, -⟩
      exact hnot p job parked ha hp
    · rintro (⟨i, r, ha, hp, -⟩ | ⟨p, job, ha, hp, -⟩)
      · exact hstay i r ha hp
      · exact hnot p job _ ha hp
  · refine iff_of_true ⟨?_, ?_⟩ ⟨by simp [Steals], by simp [ClearsShared, hpc]⟩
    · rintro k - ⟨hset, hclear⟩
      simp only [hmask, BitVec.getLsbD_or] at hclear
      simp only at hset
      simp [hset] at hclear
    · rintro ⟨p, job, parked, ha, -⟩
      cases ha
  · have hown : ∀ k, (⟨s, .work i r, s'⟩ : Transition P).Leaves k ∨
        (⟨s, .work i r, s'⟩ : Transition P).Returns k ↔ k = i := by
      intro k
      constructor
      · rintro (⟨r', ha, -⟩ | ⟨p, job, parked, ha, -⟩)
        · cases ha
          rfl
        · cases ha
      · rintro rfl
        exact Or.inl ⟨r, rfl, hpc⟩
    rw [keepsMask_of_reset hmask hown (by simp [Transition.StartsOver])]
    simp [Steals, ClearsShared, hpc]
  · obtain ⟨hne, hload⟩ | ⟨rfl, hchosen⟩ := hend
    · -- the call starts over: whatever the `fetch_and` has cleared is lost
      have hshared : ¬ s.ClearsShared (.produce p) := by simp [ClearsShared, hpc, hne]
      rw [and_iff_left hshared]
      by_cases hbit : s.parkedWorkers.getLsbD (parkBit (countTrailingZeroes parked)) = true
      · refine iff_of_false ?_ (not_not.mpr ⟨p, job, parked, rfl, hpc, hne, hbit⟩)
        rintro ⟨-, hsame⟩
        have hkept : s'.parkedWorkers = s.parkedWorkers := hsame ⟨p, job, parked, rfl, hpc, hload⟩
        rw [← hkept, hmask, reset_getLsbD] at hbit
        simp at hbit
      · have hclear : s.parkedWorkers.getLsbD (parkBit (countTrailingZeroes parked)) = false := by
          simpa using hbit
        rw [reset_of_clear hclear] at hmask
        refine iff_of_true (keepsMask_of_same hmask) ?_
        rintro ⟨q, job', parked', ha, hq, -, hset⟩
        cases ha
        rw [hpc] at hq
        cases hq
        exact hbit hset
    · have hown : ∀ k, (⟨s, .produce p, s'⟩ : Transition P).Leaves k ∨
          (⟨s, .produce p, s'⟩ : Transition P).Returns k ↔
            k = countTrailingZeroes s.parkedWorkers := by
        intro k
        constructor
        · rintro (⟨r', ha, -⟩ | ⟨q, job', parked', ha, -, hk⟩)
          · cases ha
          · cases ha
            simp only [hchosen] at hk
            cases hk
            rfl
        · rintro rfl
          exact Or.inr ⟨p, job, _, rfl, hpc, hchosen⟩
      have hstart : ¬ (⟨s, .produce p, s'⟩ : Transition P).StartsOver := by
        rintro ⟨q, job', parked', ha, -, hload⟩
        cases ha
        simp only [hchosen] at hload
        cases hload
      have hsteals : ¬ s.Steals (.produce p) := by
        rintro ⟨q, job', parked', ha, hq, hne, -⟩
        cases ha
        rw [hpc] at hq
        cases hq
        exact hne rfl
      rw [keepsMask_of_reset hmask hown hstart, and_iff_right hsteals]
      simp [ClearsShared, hpc]

/-- The place of a worker before a step that leaves it in `_park`. -/
theorem step_inPark {s s' : Scheduler P} {a : SchedulerAction P} {i : Nat} (h : s.step a = some s')
    (hin : InPark (s'.workers i).pc) :
    (∃ r, a = .work i r ∧ (s.workers i).pc = .setBit) ∨
      (InPark (s.workers i).pc ∧ ¬ (⟨s, a, s'⟩ : Transition P).Leaves i) := by
  have hother : (s'.workers i).pc = (s.workers i).pc → (∀ r, a ≠ .work i r) →
      InPark (s.workers i).pc ∧ ¬ (⟨s, a, s'⟩ : Transition P).Leaves i := by
    intro hsame hact
    refine ⟨hsame ▸ hin, ?_⟩
    rintro ⟨r, ha, -⟩
    exact hact r ha
  cases a with
  | centralEnqueue p =>
    simp only [step] at h
    split at h
    next =>
      cases h
      exact Or.inr (hother rfl (by simp))
    next => simp at h
  | produce p => exact Or.inr (hother (produce_frame h i).1 (by simp))
  | work k r =>
    simp only [step] at h
    split at h
    next =>
      obtain ⟨w, hw, rfl⟩ := Option.map_eq_some_iff.mp h
      by_cases hk : i = k
      · subst hk
        rw [setWorker_self] at hin
        obtain hset | ⟨hpark, hnot⟩ := WorkerBlock.advance_inPark hw hin
        · exact Or.inl ⟨r, rfl, hset⟩
        · refine Or.inr ⟨hpark, ?_⟩
          rintro ⟨r', -, hclear⟩
          exact hnot hclear
      · refine Or.inr (hother ?_ ?_)
        · rw [setWorker_of_ne _ _ hk]
          rfl
        · rintro r' ⟨⟩
          exact hk rfl
    next => simp at h

theorem step_count {s s' : Scheduler P} {a : SchedulerAction P} (h : s.step a = some s') :
    s'.count = s.count := by
  cases a with
  | centralEnqueue p =>
    simp only [step] at h
    split at h
    next => cases h; rfl
    next => simp at h
  | work i r =>
    simp only [step] at h
    split at h
    next =>
      obtain ⟨w, hw, rfl⟩ := Option.map_eq_some_iff.mp h
      rfl
    next => simp at h
  | produce p =>
    cases produces_of_produce h with
    | leastLoaded => rfl
    | loads => rfl
    | startsOver => rfl
    | chooses => rfl
    | pushes => rfl
    | decides => rfl
    | wakes => rfl

theorem keepsParked_step {ts : List (Transition P)} {s s' : Scheduler P} {a : SchedulerAction P}
    (h : KeepsParked ts s) (hs : s.step a = some s')
    (hk : (⟨s, a, s'⟩ : Transition P).KeepsMask) : KeepsParked (ts ++ [⟨s, a, s'⟩]) s' := by
  intro i hi hin
  obtain ⟨r, rfl, hset⟩ | ⟨hpark, hstay⟩ := step_inPark hs hin
  · left
    have hw : (s.workers i).advance r = some { s.workers i with pc := .setParked } := by
      simp only [WorkerBlock.advance, hset]
    simp only [step] at hs
    split at hs
    next =>
      simp only [work, hset, hw, Option.map_some, Option.some.injEq] at hs
      subst hs
      simp [setWorker, setParkedWorkers, parkIdx_getLsbD]
    next => simp at hs
  · rw [step_count hs] at hi
    rcases h i hi hpark with hbit | htaken
    · cases hafter : s'.parkedWorkers.getLsbD (parkBit i) with
      | true => exact Or.inl rfl
      | false =>
        right
        rcases hk.1 i hi ⟨hbit, hafter⟩ with hleaves | hreturns
        · exact absurd hleaves hstay
        · refine ⟨ts, _, [], rfl, hreturns, ?_⟩
          intro u hu
          cases List.mem_singleton.mp hu
          exact hpark
    · exact Or.inr (htaken.snoc hpark)

theorem Trace.keepsParked {count : Nat} {ts : List (Transition P)} {s : Scheduler P}
    (h : Trace count ts s) (hk : ∀ t ∈ ts, t.KeepsMask) : KeepsParked ts s := by
  induction h with
  | start => exact fun i _ hin => absurd hin (by simp [Scheduler.start, InPark])
  | step _ hs ih =>
    have hpre := ih (fun t ht => hk t (List.mem_append_left _ ht))
    exact keepsParked_step hpre hs (hk _ (by simp))

theorem Trace.keepsMask_iff {count : Nat} {ts : List (Transition P)} {s : Scheduler P}
    (h : Trace count ts s) :
    (∀ t ∈ ts, t.KeepsMask) ↔
      ∀ t ∈ ts, ¬ t.before.Steals t.action ∧ ¬ t.before.ClearsShared t.action := by
  induction h with
  | start => simp
  | @step ts s s' a _ hs ih =>
    simp only [List.forall_mem_append, List.forall_mem_singleton, ih]
    rw [Scheduler.keepsMask_iff hs]

/-- A mask that a call holds was loaded when it was not zero. -/
theorem step_loaded {s s' : Scheduler P} {a : SchedulerAction P} (h : s.step a = some s') {q : P}
    {job : Nat} {parked : BitVec 64} (hq : (s'.producers q).pc = .fetchAnd job parked) :
    (s.producers q).pc = .fetchAnd job parked ∨ (parked = s.parkedWorkers ∧ parked ≠ 0) := by
  cases a with
  | centralEnqueue p =>
    simp only [step] at h
    split at h
    next =>
      cases h
      by_cases hp : q = p
      · subst hp
        simp at hq
      · rw [setPc_of_ne _ _ hp] at hq
        exact Or.inl hq
    next => simp at h
  | work i r =>
    simp only [step] at h
    split at h
    next =>
      obtain ⟨w, hw, rfl⟩ := Option.map_eq_some_iff.mp h
      exact Or.inl hq
    next => simp at h
  | produce p =>
    by_cases hp : q = p
    · subst hp
      cases produces_of_produce h with
      | leastLoaded => simp [leastLoadedWorker] at hq
      | loads _ parked =>
        rw [setPc_self] at hq
        cases hq
        exact Or.inr ⟨rfl, parked⟩
      | startsOver => simp at hq
      | chooses => simp at hq
      | pushes => simp at hq
      | decides =>
        rw [setPc_self] at hq
        split at hq <;> cases hq
      | wakes => simp at hq
    · left
      rw [← hq]
      cases produces_of_produce h with
      | leastLoaded => simp [leastLoadedWorker, hp]
      | loads => rw [setPc_of_ne _ _ hp]
      | startsOver => rw [setPc_of_ne _ _ hp, setParkedWorkers_producers]
      | chooses => rw [setPc_of_ne _ _ hp, setParkedWorkers_producers]
      | pushes => rw [setPc_of_ne _ _ hp, setWorker_producers]
      | decides => rw [setPc_of_ne _ _ hp]
      | wakes => rw [setPc_of_ne _ _ hp, setWorker_producers]

/-- Only workers that exist are in the mask, and in those that calls hold. -/
structure Bounded (s : Scheduler P) : Prop where
  mask : ∀ i, s.parkedWorkers.getLsbD i = true → i < s.count
  loaded : ∀ p job parked, (s.producers p).pc = .fetchAnd job parked →
    parked ≠ 0 ∧ ∀ i, parked.getLsbD i = true → i < s.count

theorem Trace.bounded {count : Nat} {ts : List (Transition P)} {s : Scheduler P}
    (h : Trace count ts s) : s.Bounded := by
  induction h with
  | start => exact ⟨by simp [Scheduler.start], by simp [Scheduler.start]⟩
  | @step ts s s' a _ hs ih =>
    constructor
    · intro i hi
      rw [step_count hs]
      obtain ⟨hmask, -⟩ | ⟨k, r, rfl, -, hmask⟩ | ⟨k, r, rfl, -, hmask⟩ |
        ⟨p, job, parked, rfl, -, hmask, -⟩ := step_mask hs
      · exact ih.mask i (hmask ▸ hi)
      · rw [hmask, BitVec.getLsbD_or, Bool.or_eq_true] at hi
        rcases hi with hi | hi
        · exact ih.mask i hi
        · rw [parkIdx_getLsbD, decide_eq_true_eq] at hi
          rw [hi]
          simp only [Scheduler.step] at hs
          split at hs
          next hk => exact (Nat.mod_le k 64).trans_lt hk
          next => simp at hs
      · rw [hmask, reset_getLsbD, Bool.and_eq_true] at hi
        exact ih.mask i hi.1
      · rw [hmask, reset_getLsbD, Bool.and_eq_true] at hi
        exact ih.mask i hi.1
    · intro p job parked hp
      rw [step_count hs]
      rcases step_loaded hs hp with hold | ⟨rfl, hne⟩
      · exact ih.loaded p job parked hold
      · exact ⟨hne, ih.mask⟩

/-- The assertion in `_first_parked_worker` holds: every call has its next step. -/
theorem Trace.produce_isSome {count : Nat} {ts : List (Transition P)} {s : Scheduler P}
    (h : Trace count ts s) {p : P} (hp : (s.producers p).pc ≠ .idle) : (s.produce p).isSome := by
  unfold produce
  split
  next hidle => exact absurd hidle hp
  next => split <;> rfl
  next job parked hpc =>
    obtain ⟨hne, hlt⟩ := h.bounded.loaded p job parked hpc
    have hidx := hlt _ (countTrailingZeroes_set hne)
    by_cases hold : parked = s.parkedWorkers
    · simp [← hold, hidx]
    · simp [hold]
  next => rfl
  next => rfl
  next => rfl

theorem Trace.count_eq {count : Nat} {ts : List (Transition P)} {s : Scheduler P}
    (h : Trace count ts s) : s.count = count := by
  induction h with
  | start => rfl
  | step _ hs ih => exact (step_count hs).trans ih

theorem not_clearsShared {s s' : Scheduler P} {a : SchedulerAction P} (few : s.count ≤ 64)
    (h : s.step a = some s') : ¬ s.ClearsShared a := by
  rintro (⟨i, r, rfl, -, -, hshares⟩ | ⟨p, job, rfl, -, hbit, hshares⟩)
  · simp only [step] at h
    split at h
    next hi => exact not_sharesBit few (by omega) hshares
    next => simp at h
  · have hne : s.parkedWorkers ≠ 0 := by
      intro hzero
      simp [hzero] at hbit
    exact not_sharesBit few (countTrailingZeroes_lt hne) hshares

theorem Trace.not_clearsShared {count : Nat} {ts : List (Transition P)} {s : Scheduler P}
    (h : Trace count ts s) (few : count ≤ 64) : ∀ t ∈ ts, ¬ t.before.ClearsShared t.action := by
  induction h with
  | start => simp
  | step ht hs ih =>
    simp only [List.forall_mem_append, List.forall_mem_singleton]
    exact ⟨ih, Scheduler.not_clearsShared (by rw [ht.count_eq]; exact few) hs⟩

/-- In a run the bits of parked workers are cleared only by themselves or by a call
that returns them, and lost races leave the mask alone, exactly when no call that
lost its race found the bit it resets still set and no bit that two workers share is
cleared; then no parked worker is lost. -/
theorem parked_workers_kept_iff {count : Nat} {ts : List (Transition P)} {s : Scheduler P}
    (h : Trace count ts s) :
    ((∀ t ∈ ts, t.KeepsMask) ∧ KeepsParked ts s) ↔
      ∀ t ∈ ts, ¬ t.before.Steals t.action ∧ ¬ t.before.ClearsShared t.action := by
  rw [← h.keepsMask_iff]
  constructor
  · exact fun hk => hk.1
  · exact fun hk => ⟨hk, h.keepsParked hk⟩

/-- Reached without a race that is lost to a bit still set. -/
def Quiet (count : Nat) (s : Scheduler P) : Prop :=
  ∃ ts, Trace count ts s ∧ ∀ t ∈ ts, ¬ t.before.Steals t.action

theorem Quiet.step {count : Nat} {s s' : Scheduler P} {a : SchedulerAction P} (h : Quiet count s)
    (hs : s.step a = some s') (hn : ¬ s.Steals a) : Quiet count s' := by
  obtain ⟨ts, ht, hk⟩ := h
  refine ⟨_, ht.step hs, ?_⟩
  simp only [List.forall_mem_append, List.forall_mem_singleton]
  exact ⟨hk, hn⟩

theorem Quiet.work {count : Nat} {s : Scheduler P} {i : Nat} {w : WorkerBlock} (h : Quiet count s)
    (hi : i < s.count) (r : Round) (hw : (s.workers i).advance r = some w)
    (hset : (s.workers i).pc ≠ .setBit) (hclear : (s.workers i).pc ≠ .clearBit) :
    Quiet count (s.setWorker i w) := by
  obtain ⟨parked, hs, hsame⟩ := step_work hi hw
  rw [hsame hset hclear] at hs
  exact h.step hs (by simp [Steals])

/-- A worker that has found nothing `n` times. -/
def spun (n : Nat) : WorkerBlock := ⟨[], .running, 0, n, .dequeue 0⟩

theorem Quiet.spins {count : Nat} {s : Scheduler P} {i : Nat} (h : Quiet count s)
    (hi : i < s.count) (hw : s.workers i = spun 0) {n : Nat} (hn : n ≤ spinsBeforeIdle) :
    Quiet count (s.setWorker i (spun n)) := by
  induction n with
  | zero =>
    rw [← hw, setWorker_same]
    exact h
  | succ n ih =>
    have hspin := ih (by omega)
    have few : ¬ n + 1 > spinsBeforeIdle := by omega
    have hlook := hspin.work (w := ⟨[], .running, 0, n + 1, .hot⟩) hi .idle
      (by simp [spun, WorkerBlock.advance, WorkerBlock.dequeued, schedulerDequeueMax, few, Round.idle])
      (by simp [spun]) (by simp [spun])
    have hback := hlook.work (w := spun (n + 1)) hi .idle
      (by simp [spun, WorkerBlock.advance, Round.idle]) (by simp) (by simp)
    rw [setWorker_setWorker, setWorker_setWorker] at hback
    exact hback

/-- Worker `i`, told of no work, parks. -/
theorem Quiet.parks {count : Nat} {s : Scheduler P} {i : Nat} (h : Quiet count s)
    (hi : i < s.count) (hw : s.workers i = spun 0) :
    Quiet count ((s.setParkedWorkers (s.parkedWorkers ||| parkIdx i)).setWorker i
      ⟨[], .running, 0, 0, .setParked⟩) := by
  have hlook := (h.spins hi hw (Nat.le_refl spinsBeforeIdle)).work
    (w := ⟨[], .running, 0, 0, .setBit⟩) hi .idle
    (by simp [spun, WorkerBlock.advance, WorkerBlock.dequeued, schedulerDequeueMax, Round.idle])
    (by simp [spun]) (by simp [spun])
  rw [setWorker_setWorker] at hlook
  refine hlook.step (a := .work i .idle) ?_ (by simp [Steals])
  have hlt : i < (s.setWorker i ⟨[], .running, 0, 0, .setBit⟩).count := hi
  simp only [Scheduler.step, hlt, if_true, Scheduler.work, setWorker_self, WorkerBlock.advance,
    Option.map_some]
  simp only [setWorker, setParkedWorkers, Function.update_idem]

theorem step_load {s : Scheduler P} {p : P} {job : Nat} (hpc : (s.producers p).pc = .load job)
    (hmask : s.parkedWorkers ≠ 0) :
    s.step (.produce p) = some (s.setPc p (.fetchAnd job s.parkedWorkers)) := by
  simp only [step, produce, hpc, if_neg hmask]

theorem step_lost {s : Scheduler P} {p : P} {job : Nat} {parked : BitVec 64}
    (hpc : (s.producers p).pc = .fetchAnd job parked) (hne : parked ≠ s.parkedWorkers) :
    s.step (.produce p) = some ((s.setParkedWorkers
      (s.parkedWorkers &&& ~~~ (parkIdx (countTrailingZeroes parked)))).setPc p (.load job)) := by
  simp only [step, produce, hpc, if_pos hne]

theorem step_found {s : Scheduler P} {p : P} {job : Nat}
    (hpc : (s.producers p).pc = .fetchAnd job s.parkedWorkers)
    (hidx : countTrailingZeroes s.parkedWorkers < s.count) :
    s.step (.produce p) = some ((s.setParkedWorkers
      (s.parkedWorkers &&& ~~~ (parkIdx (countTrailingZeroes s.parkedWorkers)))).setPc p
        (.chosen job (countTrailingZeroes s.parkedWorkers))) := by
  simp only [step, produce, hpc, ne_eq, not_true_eq_false, if_false, if_pos hidx]

/-- One of `n` workers is parked, and a call has loaded the mask. -/
theorem quiet_loaded {n : Nat} (hn : 0 < n) :
    ∃ s : Scheduler Unit, Quiet n s ∧ s.count = n ∧ s.parkedWorkers = 1#64 ∧
      (s.producers ()).pc = .fetchAnd 0 s.parkedWorkers ∧ ∀ i, i ≠ 0 → s.workers i = spun 0 := by
  have hstart : Quiet n (start n : Scheduler Unit) := ⟨[], .start, by simp⟩
  have hpark := hstart.parks (i := 0) hn rfl
  have henqueue : ∀ s : Scheduler Unit, (s.producers ()).pc = .idle ∧ 0 < s.count →
      s.step (.centralEnqueue ()) = some ({ s with nextJob := s.nextJob + 1 }.setPc () (.load s.nextJob)) :=
    fun s hs => by simp only [step, if_pos hs]
  have hcall := hpark.step (henqueue _ ⟨rfl, hn⟩) (by simp [Steals])
  have hload := hcall.step (step_load (setPc_self _ _ _) (by
    simp [setPc, setWorker, setParkedWorkers, parkIdx, parkBit, start])) (by simp [Steals, setPc])
  refine ⟨_, hload, rfl, ?_, setPc_self _ _ _, ?_⟩
  · simp [setPc, setWorker, setParkedWorkers, parkIdx, parkBit, start]
  · intro i hi
    simp [setPc, setWorker, hi, start, setParkedWorkers, spun]

/-- The call finds the mask as it was and returns the worker. -/
theorem parked_worker_returned :
    ∃ (ts : List (Transition Unit)) (s : Scheduler Unit), Trace 1 ts s ∧
      (s.producers ()).pc = .chosen 0 0 ∧ (∀ t ∈ ts, t.KeepsMask) ∧ KeepsParked ts s := by
  obtain ⟨s, hquiet, hcount, hmask, hpc, -⟩ := quiet_loaded (n := 1) (by decide)
  have hzeroes : countTrailingZeroes s.parkedWorkers = 0 := by
    rw [hmask]
    decide
  have hfound := step_found hpc (by omega)
  obtain ⟨ts, ht, hk⟩ := hquiet.step hfound (by simp [Steals, hpc])
  refine ⟨ts, _, ht, ?_, (parked_workers_kept_iff ht).mpr fun t hmem =>
    ⟨hk t hmem, ht.not_clearsShared (by decide) t hmem⟩⟩
  rw [setPc_self, hzeroes]

/-- Worker 1 parks after a call has loaded the mask: the call starts over and the
bit of worker 0 is gone. -/
theorem parked_worker_lost :
    ¬ ∀ (count : Nat) (ts : List (Transition Unit)) (s : Scheduler Unit), Trace count ts s →
      ∀ t ∈ ts, t.KeepsMask := by
  intro hall
  obtain ⟨s, hquiet, hcount, hmask, hpc, hrest⟩ := quiet_loaded (n := 2) (by decide)
  let s₁ := (s.setParkedWorkers (s.parkedWorkers ||| parkIdx 1)).setWorker 1
    ⟨[], .running, 0, 0, .setParked⟩
  obtain ⟨ts, ht, -⟩ : Quiet 2 s₁ := hquiet.parks (i := 1) (by omega) (hrest 1 (by decide))
  have hmask₁ : s₁.parkedWorkers = 3#64 := by
    have hor : s₁.parkedWorkers = s.parkedWorkers ||| parkIdx 1 := rfl
    rw [hor, hmask]
    decide
  have hpc₁ : (s₁.producers ()).pc = .fetchAnd 0 1#64 := by
    rw [← hmask]
    exact hpc
  have hlost := step_lost hpc₁ (by rw [hmask₁]; decide)
  have hkeeps := hall 2 _ _ (ht.step hlost) _ (List.mem_append_right _ (List.mem_singleton_self _))
  refine ((Scheduler.keepsMask_iff hlost).mp hkeeps).1 ⟨(), 0, 1#64, rfl, hpc₁, ?_, ?_⟩
  · rw [hmask₁]
    decide
  · rw [hmask₁]
    decide

end Scheduler

end XiRuntime
