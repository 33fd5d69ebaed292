import XiRuntime.CoreMessageBus

namespace XiRuntime

namespace WorkQueue

/-- The count is that of the messages in the ring, so that a flush moves what there is
room for. -/
structure Exact (w : WorkQueue) : Prop where
  count : w.messageCount = w.messages.length
  moves : w.flushBacklog.2 = min (queueCapacity - w.messages.length) w.backlog.length

variable {w : WorkQueue}

theorem exact_of_count (h : w.Bounded) (count : w.messageCount = w.messages.length) : w.Exact where
  count := count
  moves := by rw [flushBacklog_eq h, count]

theorem flushBacklog_count (h : w.Bounded) (count : w.messageCount = w.messages.length) :
    w.flushBacklog.1.messageCount = w.flushBacklog.1.messages.length := by
  rw [flushBacklog_eq h]
  simp only [List.length_append, List.length_take]
  omega

theorem add_count (h : w.Bounded) (count : w.messageCount = w.messages.length) (m : Nat) :
    (w.add m).messageCount = (w.add m).messages.length := by
  have longer : WorkQueue.Bounded { w with backlog := w.backlog ++ [m] } := h
  unfold add
  simp only
  split
  next => exact flushBacklog_count longer count
  next => exact count

theorem flushBacklog_full (h : w.Bounded) (full : w.messageCount = queueCapacity) :
    w.flushBacklog.1 = w := by
  have none : min (queueCapacity - w.messageCount) w.backlog.length = 0 := by
    rw [full, Nat.sub_self, Nat.zero_min]
  rw [flushBacklog_eq h]
  simp only [none, List.drop_zero, List.take_zero, List.append_nil, Nat.add_zero]

theorem add_full (h : w.Bounded) (full : w.messageCount = queueCapacity) (m : Nat) :
    w.add m = { w with backlog := w.backlog ++ [m] } := by
  have longer : WorkQueue.Bounded { w with backlog := w.backlog ++ [m] } := h
  unfold add
  simp only
  split
  next => exact flushBacklog_full longer full
  next => rfl

end WorkQueue

namespace CoreMessageBus

variable {b : CoreMessageBus}

/-- Both counts are exact, and calls that take from a queue get all of its backlog out. -/
structure Accounted (b : CoreMessageBus) : Prop where
  pending : b.pending.Exact
  complete : b.complete.Exact
  pending_moves : ∃ k, (runFrom step b (List.replicate k .processPending)).pending.backlog = []
  complete_moves : ∃ k, (runFrom step b (List.replicate k .processComplete)).complete.backlog = []

/-- Calls behind which the count of `_pending` is no longer that of its ring, or its
ring can never take all of its backlog. -/
def Drifts (b : CoreMessageBus) : BusAction → Prop
  | .submit => queueCapacity ≤ b.pending.line.length
  | .processPending => b.pending.line ≠ []
  | .processComplete => b.pending.messages ≠ []

/-- Once the count stands at the capacity nothing ever leaves the backlog. -/
theorem step_full (h : b.Sound) (full : b.pending.messageCount = queueCapacity) (a : BusAction) :
    (b.step a).pending.messageCount = queueCapacity ∧
      b.pending.backlog <+: (b.step a).pending.backlog := by
  cases a with
  | submit =>
    have added := WorkQueue.add_full h.pending full b.submitted
    simp [step, submit, added, full]
  | processPending =>
    obtain ⟨complete, -, eq⟩ := processPending_eq h
    simp [step, eq, WorkQueue.flushBacklog_full h.pending full, full]
  | processComplete => simp [step, processComplete_eq h, full]

theorem run_full (acts : List BusAction) (h : b.Sound) (full : b.pending.messageCount = queueCapacity) :
    b.pending.backlog <+: (runFrom step b acts).pending.backlog := by
  induction acts generalizing b with
  | nil => exact List.prefix_rfl
  | cons a acts ih =>
    have next := step_full h full a
    exact next.2.trans (ih (h.step a) next.1)

/-- The counts after `process_pending`: what was in line and found room stays counted. -/
theorem processPending_pending (h : b.Sound) :
    let moveCount := min (queueCapacity - b.pending.messageCount) b.pending.backlog.length
    (b.step .processPending).pending =
      ⟨b.pending.backlog.drop moveCount, [], b.pending.messageCount + moveCount⟩ := by
  obtain ⟨complete, -, eq⟩ := processPending_eq h
  rw [step, eq]
  simp only [WorkQueue.flushBacklog_eq h.pending]

theorem stuck_of_line (h : b.Sound) (count : b.pending.messageCount = b.pending.messages.length)
    (long : queueCapacity < b.pending.line.length) (k : Nat) :
    (runFrom step b (List.replicate k .processPending)).pending.backlog ≠ [] := by
  have short := h.pending.2
  rw [WorkQueue.line, List.length_append] at long
  cases k with
  | zero =>
    change b.pending.backlog ≠ []
    intro empty
    rw [empty, List.length_nil] at long
    omega
  | succ k =>
    have next := processPending_pending h
    simp only at next
    have full : (b.step .processPending).pending.messageCount = queueCapacity := by
      rw [next]
      simp only
      omega
    have kept := run_full (List.replicate k .processPending) (h.step .processPending) full
    have left : (b.step .processPending).pending.backlog ≠ [] := by
      rw [next]
      simp only [ne_eq, List.drop_eq_nil_iff]
      omega
    change (runFrom step (b.step .processPending) (List.replicate k .processPending)).pending.backlog ≠ []
    intro empty
    rw [empty] at kept
    exact left (List.prefix_nil.mp kept)

/-- A call that drifts spoils the accounting. -/
theorem not_accounted_of_drifts {a : BusAction} (h : b.Sound) (here : b.Accounted) (bad : b.Drifts a) :
    ¬ (b.step a).Accounted := by
  intro next
  have count := here.pending.count
  cases a with
  | submit =>
    obtain ⟨k, empty⟩ := next.pending_moves
    have line := (WorkQueue.add_spec h.pending b.submitted).2
    refine stuck_of_line (h.step .submit) next.pending.count ?_ k empty
    change queueCapacity < (b.pending.add b.submitted).line.length
    rw [line, List.length_append, List.length_singleton]
    exact Nat.lt_succ_of_le bad
  | processPending =>
    have lost := next.pending.count
    rw [processPending_pending h] at lost
    simp only [List.length_nil] at lost
    apply bad
    rw [WorkQueue.line, List.append_eq_nil_iff, ← List.length_eq_zero_iff, ← List.length_eq_zero_iff]
    have capacity : queueCapacity = 128 := rfl
    omega
  | processComplete =>
    have lost := next.pending.count
    rw [step, processComplete_eq h] at lost
    exact bad (List.length_eq_zero_iff.mp (count.symm.trans lost))

/-- A bus that has not taken anything yet, and whose requests all fit into the ring. -/
structure Untouched (b : CoreMessageBus) : Prop where
  count : b.pending.messageCount = b.pending.messages.length
  line : b.pending.line.length ≤ queueCapacity
  complete : b.complete = ⟨[], [], 0⟩

theorem Untouched.accounted (h : b.Sound) (u : b.Untouched) : b.Accounted where
  pending := WorkQueue.exact_of_count h.pending u.count
  complete := WorkQueue.exact_of_count h.complete (by rw [u.complete]; rfl)
  pending_moves := by
    refine ⟨1, ?_⟩
    have line := u.line
    rw [WorkQueue.line, List.length_append] at line
    change (b.step .processPending).pending.backlog = []
    rw [processPending_pending h, u.count]
    simp only [List.drop_eq_nil_iff]
    omega
  complete_moves := ⟨0, by rw [List.replicate_zero, runFrom, List.foldl_nil, u.complete]⟩

theorem Untouched.step {a : BusAction} (h : b.Sound) (u : b.Untouched) (good : ¬ b.Drifts a) :
    (b.step a).Untouched := by
  cases a with
  | submit =>
    have line := (WorkQueue.add_spec h.pending b.submitted).2
    refine ⟨WorkQueue.add_count h.pending u.count _, ?_, u.complete⟩
    change (b.pending.add b.submitted).line.length ≤ queueCapacity
    rw [line, List.length_append, List.length_singleton]
    exact Nat.lt_of_not_le good
  | processPending =>
    have empty : b.pending.line = [] := Decidable.not_not.mp good
    obtain ⟨messages, backlog⟩ := List.append_eq_nil_iff.mp empty
    have same : (b.step .processPending).complete = b.complete := by
      simp [CoreMessageBus.step, processPending, processQueue, WorkQueue.flushBacklog_eq h.pending,
        messages, backlog]
    refine ⟨?_, ?_, same.trans u.complete⟩
    · rw [processPending_pending h, backlog, u.count, messages]
      rfl
    · rw [processPending_pending h, WorkQueue.line, backlog, List.drop_nil]
      exact Nat.zero_le _
  | processComplete =>
    have empty : b.pending.messages = [] := Decidable.not_not.mp good
    rw [CoreMessageBus.step, processComplete_eq h, ← empty]
    refine ⟨u.count, u.line, ?_⟩
    rw [u.complete]
    rfl

theorem untouched_start : start.Untouched := ⟨rfl, Nat.zero_le _, rfl⟩

/-- The accounting is exact along the runs in which nothing that is in line is ever
taken and the ring has room for all requests: the counts are never lowered. -/
theorem message_count_exact_iff (acts : List BusAction) :
    ((∀ n, (run (acts.take n)).Accounted) ∧
      ∀ n, acts[n]? = some .processPending →
        (run (acts.take (n + 1))).pending.messages = [] ∧
        (run (acts.take (n + 1))).pending.flushBacklog.2 =
          min queueCapacity (run (acts.take (n + 1))).pending.backlog.length) ↔
    ∀ n a, acts[n]? = some a → ¬ (run (acts.take n)).Drifts a := by
  constructor
  · intro ⟨accounted, _⟩ n a ha bad
    have next : run (acts.take (n + 1)) = (run (acts.take n)).step a := Runs.take_succ ha
    exact not_accounted_of_drifts (run_sound acts n) (accounted n) bad (next ▸ accounted (n + 1))
  · intro good
    have untouched : ∀ n, (run (acts.take n)).Untouched :=
      Runs.invariant untouched_start (fun n a ha here => here.step (run_sound acts n) (good n a ha))
    have accounted : ∀ n, (run (acts.take n)).Accounted :=
      fun n => (untouched n).accounted (run_sound acts n)
    refine ⟨accounted, ?_⟩
    intro n ha
    have next : run (acts.take (n + 1)) = (run (acts.take n)).step .processPending := Runs.take_succ ha
    have drained : (run (acts.take (n + 1))).pending.messages = [] := by
      rw [next, processPending_pending (run_sound acts n)]
    refine ⟨drained, ?_⟩
    rw [(accounted (n + 1)).pending.moves, drained]
    rfl

/-- `n` messages, each taken before the next is submitted. -/
def oneByOne (n : Nat) : List BusAction := (List.replicate n [.submit, .processPending]).flatten

theorem oneByOne_count {n : Nat} (h : n ≤ queueCapacity) :
    (run (oneByOne n)).Sound ∧ (run (oneByOne n)).submitted = n ∧
      (run (oneByOne n)).pending = ⟨[], [], n⟩ := by
  induction n with
  | zero => exact ⟨sound_start, rfl, rfl⟩
  | succ n ih =>
    obtain ⟨sound, submitted, pending⟩ := ih (Nat.le_of_succ_le h)
    have acts : oneByOne (n + 1) = (oneByOne n ++ [.submit]) ++ [.processPending] := by
      simp [oneByOne, List.replicate_succ']
    have last : run (oneByOne (n + 1)) = ((run (oneByOne n)).step .submit).step .processPending := by
      rw [acts, run, Runs.snoc, Runs.snoc]
      rfl
    have filed : ((run (oneByOne n)).step .submit).pending = ⟨[n], [], n⟩ := by
      rw [step, submit, pending, submitted]
      rfl
    have sound' := sound.step .submit
    have room : min (queueCapacity - n) 1 = 1 := by omega
    rw [last]
    refine ⟨sound'.step .processPending, ?_, ?_⟩
    · obtain ⟨complete, -, eq⟩ := processPending_eq sound'
      change ((run (oneByOne n)).step .submit).processPending.1.submitted = n + 1
      rw [eq]
      exact congrArg (· + 1) submitted
    · rw [processPending_pending sound', filed]
      simp [room]

/-- After 128 messages the bus is closed: the next one stays in the backlog whatever is
called. One message is enough for the count to be wrong. -/
theorem message_count_drifts :
    ¬ (run (oneByOne 1)).Accounted ∧
      ∀ acts, 128 ∈ (runFrom step (run (oneByOne 128 ++ [.submit])) acts).pending.backlog := by
  refine ⟨?_, ?_⟩
  · intro accounted
    have count := accounted.pending.count
    revert count
    decide
  · intro acts
    obtain ⟨sound, submitted, pending⟩ := oneByOne_count (n := 128) (Nat.le_refl queueCapacity)
    have last : run (oneByOne 128 ++ [.submit]) = (run (oneByOne 128)).step .submit := Runs.snoc _ _
    have filed : ((run (oneByOne 128)).step .submit).pending = ⟨[128], [], queueCapacity⟩ := by
      rw [step, submit, pending, submitted]
      rfl
    have kept := run_full acts (sound.step .submit) (congrArg WorkQueue.messageCount filed)
    rw [filed] at kept
    rw [last]
    exact kept.subset (List.mem_singleton_self _)

end CoreMessageBus

end XiRuntime
