import Mathlib.Algebra.Order.Ring.Int
import XiRuntime.IntrusiveSet

namespace XiRuntime

open IntrusiveSet

/-- `steady_clock::time_point`, in nanoseconds. -/
structure TimePoint where
  count : Int
  min_le : -2 ^ 63 ≤ count
  le_max : count ≤ 2 ^ 63 - 1
deriving DecidableEq

instance : LinearOrder TimePoint :=
  @LinearOrder.lift' TimePoint Int Int.instLinearOrder TimePoint.count (fun a b h => by
    cases a
    cases b
    cases h
    rfl)

/-- The top is `time_point::max()`. -/
instance : OrderTop TimePoint where
  top := ⟨2 ^ 63 - 1, by decide, by decide⟩
  le_top := TimePoint.le_max

/-- A `local_sleep_queue`. Its set is intrusive: the wake-up time it orders by is a
field of the resumables. -/
structure LocalSleepQueue (R : Type) where
  wakeupTime : R → TimePoint
  queue : List R
  nextItem : TimePoint

namespace LocalSleepQueue

variable {R : Type}

/-- What a scan takes out of the set, and what it leaves there. -/
structure Takes (cutoff : TimePoint) (w : R → TimePoint) (xs batch : List R)
    (s : LocalSleepQueue R) : Prop where
  split : xs = batch ++ s.queue
  due : ∀ x ∈ batch, w x ≤ cutoff
  later : ∀ x ∈ s.queue, cutoff < w x
  same : ∀ x, x ∉ batch → s.wakeupTime x = w x
  next : s.nextItem = least s.wakeupTime s.queue

theorem Takes.not_mem {cutoff : TimePoint} {w : R → TimePoint} {xs batch : List R}
    {s : LocalSleepQueue R} (h : Takes cutoff w xs batch s) : ∀ r ∈ s.queue, r ∉ batch :=
  fun r hr hb => absurd (h.due r hb) (not_le_of_gt (h.later r hr))

structure Valid (s : LocalSleepQueue R) : Prop where
  ordered : Ordered s.wakeupTime s.queue
  next : s.nextItem = least s.wakeupTime s.queue

theorem Takes.valid {cutoff : TimePoint} {w : R → TimePoint} {xs batch : List R}
    {s : LocalSleepQueue R} (h : Takes cutoff w xs batch s) (ordered : Ordered w xs) : s.Valid := by
  refine ⟨?_, h.next⟩
  rw [h.split] at ordered
  exact ordered.right.congr (fun r hr => h.same r (h.not_mem r hr))

variable [DecidableEq R]

def enqueue (s : LocalSleepQueue R) (when : TimePoint) (r : R) : LocalSleepQueue R :=
  let wakeupTime := Function.update s.wakeupTime r when
  { wakeupTime := wakeupTime
    queue := insertUnique wakeupTime r s.queue
    nextItem := if s.nextItem > when then when else s.nextItem }

/-- The loop of `dequeue_into`, from the first element of the set. -/
def drain (cutoff : TimePoint) (wakeupTime : R → TimePoint) (q : List R) :
    List R → LocalSleepQueue R × List R
  | [] => (⟨wakeupTime, [], ⊤⟩, q)
  | i :: rest =>
    if wakeupTime i > cutoff then (⟨wakeupTime, i :: rest, wakeupTime i⟩, q)
    else drain cutoff (Function.update wakeupTime i ⊤) (q ++ [i]) rest

def dequeueInto (s : LocalSleepQueue R) (q : List R) (cutoff : TimePoint) :
    LocalSleepQueue R × List R :=
  if s.nextItem > cutoff then (s, q) else drain cutoff s.wakeupTime q s.queue

theorem update_of_mem {w : R → TimePoint} {xs : List R} {r : R} (t : TimePoint) (hr : r ∉ xs) :
    ∀ x ∈ xs, Function.update w r t x = w x := by
  intro x hx
  have ne : x ≠ r := fun eq => hr (eq ▸ hx)
  simp [ne]

theorem Valid.enqueue {s : LocalSleepQueue R} (h : s.Valid) (when : TimePoint) {r : R}
    (hr : r ∉ s.queue) : (s.enqueue when r).Valid := by
  have same := update_of_mem (w := s.wakeupTime) when hr
  refine ⟨(h.ordered.congr same).insertUnique, ?_⟩
  simp only [LocalSleepQueue.enqueue, least_insertUnique, Function.update_self, least_congr same, ← h.next]
  split
  next hgt => exact (min_eq_left hgt.le).symm
  next hle => exact (min_eq_right (le_of_not_gt hle)).symm

theorem enqueue_untied {s : LocalSleepQueue R} {when : TimePoint} {r : R} (hr : r ∉ s.queue)
    (untied : ∀ x ∈ s.queue, s.wakeupTime x ≠ when) :
    (s.enqueue when r).queue.Perm (r :: s.queue) := by
  apply insertUnique_perm
  intro x hx
  rw [update_of_mem when hr x hx, Function.update_self]
  exact untied x hx

/-- Where another resumable sleeps until the same time, the set does not take this one. -/
theorem enqueue_tied {s : LocalSleepQueue R} (h : s.Valid) {when : TimePoint} {r : R}
    (hr : r ∉ s.queue) (tied : ∃ x ∈ s.queue, s.wakeupTime x = when) :
    (s.enqueue when r).queue = s.queue := by
  have same := update_of_mem (w := s.wakeupTime) when hr
  apply insertUnique_of_tied (h.ordered.congr same)
  obtain ⟨x, hx, heq⟩ := tied
  exact ⟨x, hx, by rw [same x hx, Function.update_self, heq]⟩

theorem drain_takes {cutoff : TimePoint} {w : R → TimePoint} {xs : List R} (q : List R)
    (h : Ordered w xs) :
    ∃ batch, (drain cutoff w q xs).2 = q ++ batch ∧ Takes cutoff w xs batch (drain cutoff w q xs).1 := by
  induction xs generalizing w q with
  | nil => exact ⟨[], by simp [drain], rfl, by simp, by simp [drain], fun _ _ => rfl, rfl⟩
  | cons i rest ih =>
    obtain ⟨hi, hrest⟩ := ordered_cons.mp h
    unfold drain
    split
    next hgt =>
      refine ⟨[], by simp, rfl, by simp, ?_, fun _ _ => rfl, rfl⟩
      intro x hx
      rcases List.mem_cons.mp hx with rfl | hx
      · exact hgt
      · exact lt_trans hgt (hi x hx)
    next hle =>
      -- the key is overwritten in the set, which the other keys do not notice
      have fresh : i ∉ rest := (List.nodup_cons.mp h.nodup).1
      have same := update_of_mem (w := w) ⊤ fresh
      obtain ⟨batch, hq, ht⟩ := ih (q ++ [i]) (hrest.congr same)
      have parts : rest = batch ++ _ := ht.split
      refine ⟨i :: batch, by rw [hq, List.append_assoc, List.singleton_append], ?_, ?_, ?_, ?_, ht.next⟩
      · rw [List.cons_append, ← parts]
      · intro x hx
        rcases List.mem_cons.mp hx with rfl | hx
        · exact le_of_not_gt hle
        · have mem : x ∈ rest := parts ▸ List.mem_append_left _ hx
          exact same x mem ▸ ht.due x hx
      · intro x hx
        have mem : x ∈ rest := parts ▸ List.mem_append_right _ hx
        exact same x mem ▸ ht.later x hx
      · intro x hx
        rw [List.mem_cons, not_or] at hx
        rw [ht.same x hx.2, Function.update_of_ne hx.1]

/-- The early return is taken only when nothing is due. -/
theorem dequeueInto_takes {s : LocalSleepQueue R} (h : s.Valid) (q : List R) (cutoff : TimePoint) :
    ∃ batch, (s.dequeueInto q cutoff).2 = q ++ batch ∧
      Takes cutoff s.wakeupTime s.queue batch (s.dequeueInto q cutoff).1 := by
  unfold dequeueInto
  split
  next hgt =>
    refine ⟨[], by simp, rfl, by simp, ?_, fun _ _ => rfl, h.next⟩
    intro x hx
    rw [h.next] at hgt
    exact lt_of_lt_of_le hgt (h.ordered.least_le x hx)
  next => exact drain_takes q h.ordered

/-- One `dequeue_into`: it moves the resumables that are due, in the order of their
wake-up times, and leaves the others as they are. -/
def MovesDue (s : LocalSleepQueue R) (cutoff : TimePoint) : Prop :=
  ∀ q, ∃ batch, (s.dequeueInto q cutoff).2 = q ++ batch ∧ batch.Nodup ∧
    (∀ r, r ∈ batch ↔ r ∈ s.queue ∧ s.wakeupTime r ≤ cutoff) ∧
    batch.Pairwise (fun x y => s.wakeupTime x ≤ s.wakeupTime y) ∧
    (∀ r, r ∈ (s.dequeueInto q cutoff).1.queue ↔ r ∈ s.queue ∧ cutoff < s.wakeupTime r) ∧
    ∀ r ∈ (s.dequeueInto q cutoff).1.queue,
      (s.dequeueInto q cutoff).1.wakeupTime r = s.wakeupTime r

theorem Valid.movesDue {s : LocalSleepQueue R} (h : s.Valid) (cutoff : TimePoint) : s.MovesDue cutoff := by
  intro q
  obtain ⟨batch, hq, ht⟩ := dequeueInto_takes h q cutoff
  have ordered := h.ordered
  rw [ht.split] at ordered
  have parts := List.pairwise_append.mp ordered
  refine ⟨batch, hq, (List.nodup_append.mp ordered.nodup).1, ?_, parts.1.imp le_of_lt, ?_, ?_⟩
  · intro r
    constructor
    · intro hr
      exact ⟨ht.split ▸ List.mem_append_left _ hr, ht.due r hr⟩
    · rintro ⟨hr, hle⟩
      rw [ht.split] at hr
      rcases List.mem_append.mp hr with hr | hr
      · exact hr
      · exact absurd hle (not_le_of_gt (ht.later r hr))
  · intro r
    constructor
    · intro hr
      exact ⟨ht.split ▸ List.mem_append_right _ hr, ht.later r hr⟩
    · rintro ⟨hr, hlt⟩
      rw [ht.split] at hr
      rcases List.mem_append.mp hr with hr | hr
      · exact absurd hlt (not_lt_of_ge (ht.due r hr))
      · exact hr
  · intro r hr
    exact ht.same r (ht.not_mem r hr)

end LocalSleepQueue

end XiRuntime
