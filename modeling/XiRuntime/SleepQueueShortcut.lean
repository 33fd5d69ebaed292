import XiRuntime.SleepQueue

namespace XiRuntime

open IntrusiveSet

namespace LocalSleepQueue

variable {R : Type} [DecidableEq R]

/-- The queues that calls of `enqueue` and `dequeue_into` lead to. Who enqueues a
resumable owns it, so it is not one of those stored. -/
inductive Reachable : LocalSleepQueue R → Prop
  | start (wakeupTime : R → TimePoint) : Reachable ⟨wakeupTime, [], ⊤⟩
  | enqueue {s : LocalSleepQueue R} {r : R} (when : TimePoint) :
      Reachable s → r ∉ s.queue → Reachable (s.enqueue when r)
  | dequeueInto {s : LocalSleepQueue R} (q : List R) (cutoff : TimePoint) :
      Reachable s → Reachable (s.dequeueInto q cutoff).1

variable {s : LocalSleepQueue R}

theorem Reachable.valid (h : Reachable s) : s.Valid := by
  induction h with
  | start => exact ⟨List.Pairwise.nil, rfl⟩
  | enqueue when _ hr ih => exact ih.enqueue when hr
  | dequeueInto q cutoff _ ih =>
    obtain ⟨batch, -, takes⟩ := dequeueInto_takes ih q cutoff
    exact takes.valid ih.ordered

/-- Where the cached time is past the cutoff a scan would stop at the first element. -/
theorem Valid.drain_of_later (h : s.Valid) (q : List R) {cutoff : TimePoint}
    (later : s.nextItem > cutoff) : drain cutoff s.wakeupTime q s.queue = (s, q) := by
  obtain ⟨wakeupTime, queue, nextItem⟩ := s
  have next : nextItem = least wakeupTime queue := h.next
  cases queue with
  | nil =>
    rw [next]
    rfl
  | cons i rest =>
    have first : nextItem = wakeupTime i := next
    rw [first] at later ⊢
    simp only [drain, later, if_true]

/-- `_next_item` is the earliest wake-up time stored, and the scan that it cuts short
would find nothing. -/
theorem next_item_is_minimum (h : Reachable s) :
    (s.queue = [] → s.nextItem = ⊤) ∧
    (s.queue ≠ [] → IsLeast {t | ∃ r ∈ s.queue, s.wakeupTime r = t} s.nextItem) ∧
    (∀ cutoff, s.nextItem > cutoff → ∀ r ∈ s.queue, cutoff < s.wakeupTime r) ∧
    ∀ q cutoff, s.dequeueInto q cutoff = drain cutoff s.wakeupTime q s.queue := by
  have valid := h.valid
  refine ⟨?_, ?_, ?_, ?_⟩
  · intro empty
    rw [valid.next, empty]
    rfl
  · intro stored
    rw [valid.next]
    exact valid.ordered.isLeast stored
  · intro cutoff later r hr
    rw [valid.next] at later
    exact lt_of_lt_of_le later (valid.ordered.least_le r hr)
  · intro q cutoff
    rw [LocalSleepQueue.dequeueInto]
    split
    next later => exact (valid.drain_of_later q later).symm
    next => rfl

/-- Two sleepers enqueued out of order, and a scan that takes the first. -/
theorem next_item_is_minimum_out_of_order :
    ∃ s : LocalSleepQueue Nat, s.queue = [0] ∧
      IsLeast {t | ∃ r ∈ s.queue, s.wakeupTime r = t} s.nextItem := by
  have h0 : Reachable (⟨fun _ => ⊤, [], ⊤⟩ : LocalSleepQueue Nat) := .start _
  have h1 := Reachable.enqueue (r := 0) ⟨5, by decide, by decide⟩ h0 (by decide)
  have h2 := Reachable.enqueue (r := 1) ⟨3, by decide, by decide⟩ h1 (by decide)
  have h3 := Reachable.dequeueInto [] ⟨4, by decide, by decide⟩ h2
  exact ⟨_, by decide, (next_item_is_minimum h3).2.1 (by decide)⟩

end LocalSleepQueue

end XiRuntime
