import Mathlib.Data.List.Induction
import XiRuntime.Runs
import XiRuntime.SleepQueue

namespace XiRuntime

inductive SleepAction (R : Type)
  | enqueue (when : TimePoint) (r : R)
  | dequeueInto (cutoff : TimePoint)

def SleepAction.resumable {R : Type} : SleepAction R → Option R
  | .enqueue _ r => some r
  | .dequeueInto _ => none

/-- A sleep queue with what was enqueued so far, and what was moved out. -/
structure SleepRun (R : Type) where
  sleep : LocalSleepQueue R
  enqueued : List (R × TimePoint)
  moved : List R

namespace SleepRun

variable {R : Type}

def start : SleepRun R := ⟨⟨fun _ => ⊤, [], ⊤⟩, [], []⟩

/-- Every resumable is enqueued once. -/
def Distinct (acts : List (SleepAction R)) : Prop := (acts.filterMap SleepAction.resumable).Nodup

/-- No stored resumable has the wake-up time of the one that is enqueued. -/
def Untied (s : SleepRun R) : SleepAction R → Prop
  | .enqueue when _ => ∀ x ∈ s.sleep.queue, s.sleep.wakeupTime x ≠ when
  | .dequeueInto _ => True

/-- The resumable of the action has not been enqueued before. -/
def Fresh (s : SleepRun R) (a : SleepAction R) : Prop :=
  ∀ r, a.resumable = some r → ∀ t, (r, t) ∉ s.enqueued

structure Sound (s : SleepRun R) : Prop where
  valid : s.sleep.Valid
  stored : ∀ r ∈ s.sleep.queue, ∃ t, (r, t) ∈ s.enqueued
  moved : ∀ r ∈ s.moved, ∃ t, (r, t) ∈ s.enqueued
  times : ∀ r t, (r, t) ∈ s.enqueued → r ∈ s.sleep.queue → s.sleep.wakeupTime r = t
  once : s.moved.Nodup
  apart : ∀ r ∈ s.sleep.queue, r ∉ s.moved

/-- Nothing is lost. -/
def Complete (s : SleepRun R) : Prop :=
  ∀ r t, (r, t) ∈ s.enqueued → r ∈ s.sleep.queue ∨ r ∈ s.moved

theorem sound_start : (start : SleepRun R).Sound where
  valid := ⟨List.Pairwise.nil, rfl⟩
  stored := by simp [start]
  moved := by simp [start]
  times := by simp [start]
  once := List.nodup_nil
  apart := by simp [start]

theorem Sound.absent {s : SleepRun R} {when : TimePoint} {r : R} (h : s.Sound)
    (fresh : s.Fresh (.enqueue when r)) : r ∉ s.sleep.queue := by
  intro hr
  obtain ⟨t, ht⟩ := h.stored r hr
  exact fresh r rfl t ht

variable [DecidableEq R]

instance (acts : List (SleepAction R)) : Decidable (Distinct acts) :=
  inferInstanceAs (Decidable (List.Nodup _))

def step (s : SleepRun R) : SleepAction R → SleepRun R
  | .enqueue when r => { s with sleep := s.sleep.enqueue when r, enqueued := s.enqueued ++ [(r, when)] }
  | .dequeueInto cutoff =>
    let out := s.sleep.dequeueInto s.moved cutoff
    { s with sleep := out.1, moved := out.2 }

def run (acts : List (SleepAction R)) : SleepRun R := runFrom step start acts

/-- Each resumable enqueued is either asleep until its time or was moved, once. -/
def Accounted (s : SleepRun R) : Prop :=
  ∀ r t, (r, t) ∈ s.enqueued →
    (r ∈ s.sleep.queue ∧ s.sleep.wakeupTime r = t ∧ s.moved.count r = 0) ∨
    (r ∉ s.sleep.queue ∧ s.moved.count r = 1)

theorem Sound.enqueue {s : SleepRun R} {when : TimePoint} {r : R} (h : s.Sound)
    (fresh : s.Fresh (.enqueue when r)) : (s.step (.enqueue when r)).Sound := by
  have new : ∀ t, (r, t) ∉ s.enqueued := fresh r rfl
  have absent := h.absent fresh
  have members : ∀ x ∈ (s.sleep.enqueue when r).queue, x = r ∨ x ∈ s.sleep.queue :=
    IntrusiveSet.insertUnique_subset
  refine ⟨h.valid.enqueue when absent, ?_, ?_, ?_, h.once, ?_⟩
  · intro x hx
    rcases members x hx with rfl | hx
    · exact ⟨when, List.mem_append_right _ List.mem_cons_self⟩
    · obtain ⟨t, ht⟩ := h.stored x hx
      exact ⟨t, List.mem_append_left _ ht⟩
  · intro x hx
    obtain ⟨t, ht⟩ := h.moved x hx
    exact ⟨t, List.mem_append_left _ ht⟩
  · intro x t ht hx
    rcases List.mem_append.mp ht with ht | ht
    · have ne : x ≠ r := fun eq => new t (eq ▸ ht)
      have hx : x ∈ s.sleep.queue := (members x hx).resolve_left ne
      have kept : (s.sleep.enqueue when r).wakeupTime x = s.sleep.wakeupTime x := by
        simp [LocalSleepQueue.enqueue, ne]
      exact kept.trans (h.times x t ht hx)
    · have eq : x = r ∧ t = when := by simpa using ht
      rw [eq.1, eq.2]
      simp [step, LocalSleepQueue.enqueue]
  · intro x hx hm
    rcases members x hx with rfl | hx
    · obtain ⟨t, ht⟩ := h.moved x hm
      exact new t ht
    · exact h.apart x hx hm

theorem Sound.dequeueInto {s : SleepRun R} (h : s.Sound) (cutoff : TimePoint) :
    (s.step (.dequeueInto cutoff)).Sound := by
  obtain ⟨batch, hq, ht⟩ := LocalSleepQueue.dequeueInto_takes h.valid s.moved cutoff
  have ordered := h.valid.ordered
  have mem : ∀ r, r ∈ batch ∨ r ∈ (s.sleep.dequeueInto s.moved cutoff).1.queue → r ∈ s.sleep.queue := by
    intro r hr
    rw [ht.split]
    exact List.mem_append.mpr hr
  have nodup : batch.Nodup := by
    have all := ordered.nodup
    rw [ht.split] at all
    exact (List.nodup_append.mp all).1
  refine ⟨ht.valid ordered, ?_, ?_, ?_, ?_, ?_⟩
  · intro r hr
    exact h.stored r (mem r (Or.inr hr))
  · intro r hr
    simp only [step, hq] at hr
    rcases List.mem_append.mp hr with hr | hr
    · exact h.moved r hr
    · exact h.stored r (mem r (Or.inl hr))
  · intro r t hrt hr
    have same := ht.same r (ht.not_mem r hr)
    exact same.trans (h.times r t hrt (mem r (Or.inr hr)))
  · simp only [step, hq]
    refine List.nodup_append.mpr ⟨h.once, nodup, ?_⟩
    intro r hr x hx eq
    exact h.apart x (mem x (Or.inl hx)) (eq ▸ hr)
  · intro r hr hm
    simp only [step, hq] at hm
    rcases List.mem_append.mp hm with hm | hm
    · exact h.apart r (mem r (Or.inr hr)) hm
    · exact ht.not_mem r hr hm

theorem Sound.step {s : SleepRun R} {a : SleepAction R} (h : s.Sound) (fresh : s.Fresh a) :
    (s.step a).Sound := by
  cases a with
  | enqueue when r => exact h.enqueue fresh
  | dequeueInto cutoff => exact h.dequeueInto cutoff

theorem complete_step {s : SleepRun R} {a : SleepAction R} (h : s.Sound) (fresh : s.Fresh a)
    (untied : s.Untied a) (all : s.Complete) : (s.step a).Complete := by
  cases a with
  | enqueue when r =>
    have perm := LocalSleepQueue.enqueue_untied (h.absent fresh) untied
    intro x t hx
    rcases List.mem_append.mp hx with hx | hx
    · rcases all x t hx with hs | hm
      · exact Or.inl (perm.mem_iff.mpr (List.mem_cons_of_mem r hs))
      · exact Or.inr hm
    · have eq : x = r ∧ t = when := by simpa using hx
      exact Or.inl (perm.mem_iff.mpr (eq.1 ▸ List.mem_cons_self))
  | dequeueInto cutoff =>
    obtain ⟨batch, hq, ht⟩ := LocalSleepQueue.dequeueInto_takes h.valid s.moved cutoff
    intro x t hx
    rcases all x t hx with hs | hm
    · rw [ht.split] at hs
      rcases List.mem_append.mp hs with hs | hs
      · exact Or.inr (by simpa [SleepRun.step, hq] using Or.inr hs)
      · exact Or.inl hs
    · exact Or.inr (by simpa [SleepRun.step, hq] using Or.inl hm)

theorem accounted_iff {s : SleepRun R} (h : s.Sound) : s.Accounted ↔ s.Complete := by
  constructor
  · intro acc r t hr
    rcases acc r t hr with ⟨hs, -⟩ | ⟨-, hm⟩
    · exact Or.inl hs
    · exact Or.inr (List.count_pos_iff.mp (by omega))
  · intro all r t hr
    rcases all r t hr with hs | hm
    · exact Or.inl ⟨hs, h.times r t hr hs, List.count_eq_zero.mpr (h.apart r hs)⟩
    · exact Or.inr ⟨fun hs => h.apart r hs hm, List.count_eq_one_of_mem h.once hm⟩

theorem run_enqueued (acts : List (SleepAction R)) :
    (run acts).enqueued.map Prod.fst = acts.filterMap SleepAction.resumable := by
  induction acts using List.reverseRecOn with
  | nil => rfl
  | append_singleton acts a ih =>
    rw [run, Runs.snoc, List.filterMap_append, ← ih]
    cases a with
    | enqueue when r => simp [step, run, SleepAction.resumable]
    | dequeueInto cutoff => simp [step, run, SleepAction.resumable]

theorem Distinct.fresh {acts : List (SleepAction R)} (distinct : Distinct acts) {n : Nat}
    {a : SleepAction R} (ha : acts[n]? = some a) : (run (acts.take n)).Fresh a := by
  intro r hr t ht
  have before : r ∈ (acts.take n).filterMap SleepAction.resumable := by
    rw [← run_enqueued]
    exact List.mem_map_of_mem ht
  have nodup : ((acts.take (n + 1)).filterMap SleepAction.resumable).Nodup :=
    distinct.sublist ((List.take_sublist (n + 1) acts).filterMap _)
  rw [List.take_add_one, ha, List.filterMap_append] at nodup
  have after : r ∈ [a].filterMap SleepAction.resumable := by simp [hr]
  exact (List.nodup_append.mp nodup).2.2 r before r after rfl

theorem Distinct.sound {acts : List (SleepAction R)} (distinct : Distinct acts) (n : Nat) :
    (run (acts.take n)).Sound :=
  Runs.invariant sound_start (fun _ _ ha h => h.step (distinct.fresh ha)) n

theorem lost_of_tied {s : SleepRun R} {a : SleepAction R} (h : s.Sound) (fresh : s.Fresh a)
    (tied : ¬ s.Untied a) : ¬ (s.step a).Complete := by
  cases a with
  | dequeueInto cutoff => exact absurd trivial tied
  | enqueue when r =>
    have new : ∀ t, (r, t) ∉ s.enqueued := fresh r rfl
    have absent := h.absent fresh
    have tie : ∃ x ∈ s.sleep.queue, s.sleep.wakeupTime x = when := by
      simpa [Untied] using tied
    have refused := LocalSleepQueue.enqueue_tied h.valid absent tie
    intro all
    rcases all r when (List.mem_append_right _ List.mem_cons_self) with hs | hm
    · exact absent (refused ▸ hs)
    · obtain ⟨t, ht⟩ := h.moved r hm
      exact new t ht

/-- In a run with distinct resumables none is lost, and every `dequeue_into` moves
those that are due, exactly as long as no two sleep until the same time. -/
theorem sleep_queue_loses_nothing_iff {acts : List (SleepAction R)} (distinct : Distinct acts) :
    ((∀ n, (run (acts.take n)).Accounted) ∧
      ∀ n cutoff, acts[n]? = some (.dequeueInto cutoff) →
        (run (acts.take n)).sleep.MovesDue cutoff) ↔
    ∀ n a, acts[n]? = some a → (run (acts.take n)).Untied a := by
  constructor
  · intro ⟨accounted, _⟩ n a ha
    by_contra tied
    have lost := lost_of_tied (distinct.sound n) (distinct.fresh ha) tied
    have next : run (acts.take (n + 1)) = (run (acts.take n)).step a := Runs.take_succ ha
    have sound := distinct.sound (n + 1)
    exact lost (next ▸ (accounted_iff sound).mp (accounted (n + 1)))
  · intro untied
    refine ⟨?_, fun n cutoff _ => (distinct.sound n).valid.movesDue cutoff⟩
    have complete : ∀ n, (run (acts.take n)).Complete := by
      apply Runs.invariant
      · intro r t hr
        simp [start] at hr
      · intro n a ha all
        exact complete_step (distinct.sound n) (distinct.fresh ha) (untied n a ha) all
    intro n
    exact (accounted_iff (distinct.sound n)).mpr (complete n)

/-- Two sleepers of which the second is due first, and a scan that takes only it. -/
theorem sleep_queue_loses_nothing_out_of_order :
    let acts : List (SleepAction Nat) :=
      [.enqueue ⟨5, by decide, by decide⟩ 0, .enqueue ⟨3, by decide, by decide⟩ 1, .dequeueInto ⟨4, by decide, by decide⟩]
    (∀ n, (run (acts.take n)).Accounted) ∧
      ∀ n cutoff, acts[n]? = some (.dequeueInto cutoff) →
        (run (acts.take n)).sleep.MovesDue cutoff := by
  refine (sleep_queue_loses_nothing_iff (by decide)).mpr ?_
  intro n a ha
  rcases n with _ | _ | _ | n
  · cases ha
    simp [Untied, run, runFrom, start]
  · cases ha
    simp [Untied, run, runFrom, start, step, LocalSleepQueue.enqueue, IntrusiveSet.insertUnique]
  · cases ha
    trivial
  · simp at ha

/-- The second of two resumables that sleep until the same time is gone. -/
theorem sleep_queue_loses_tied :
    let acts : List (SleepAction Nat) := [.enqueue ⟨5, by decide, by decide⟩ 0, .enqueue ⟨5, by decide, by decide⟩ 1]
    Distinct acts ∧ ¬ (run acts).Accounted := by
  refine ⟨by decide, ?_⟩
  intro accounted
  have lost := accounted 1 ⟨5, by decide, by decide⟩ (by decide)
  revert lost
  decide

end SleepRun

end XiRuntime
