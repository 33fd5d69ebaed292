import Mathlib.Data.List.Basic

/-- The state after a list of actions. -/
def runFrom {σ α : Type} (step : σ → α → σ) (start : σ) (acts : List α) : σ := acts.foldl step start

namespace Runs

variable {σ α : Type} {step : σ → α → σ} {start : σ} {acts : List α}

theorem snoc (acts : List α) (a : α) :
    runFrom step start (acts ++ [a]) = step (runFrom step start acts) a := by
  rw [runFrom, List.foldl_append]
  rfl

theorem take_succ {n : Nat} {a : α} (h : acts[n]? = some a) :
    runFrom step start (acts.take (n + 1)) = step (runFrom step start (acts.take n)) a := by
  rw [List.take_add_one, h]
  exact snoc (acts.take n) a

/-- What holds at the start and is kept by each step that is taken holds all along. -/
theorem invariant {P : σ → Prop} (init : P start)
    (keep : ∀ n a, acts[n]? = some a → P (runFrom step start (acts.take n)) →
      P (step (runFrom step start (acts.take n)) a)) (n : Nat) :
    P (runFrom step start (acts.take n)) := by
  induction n with
  | zero => exact init
  | succ n ih =>
    cases ha : acts[n]? with
    | none =>
      rw [List.take_add_one, ha, Option.toList_none, List.append_nil]
      exact ih
    | some a =>
      rw [take_succ ha]
      exact keep n a ha ih

/-- The steps that break what holds are the only ones that do. -/
theorem invariant_iff {P : σ → Prop} {Bad : σ → α → Prop} (init : P start)
    (keep : ∀ n a, acts[n]? = some a → P (runFrom step start (acts.take n)) →
      (P (step (runFrom step start (acts.take n)) a) ↔ ¬ Bad (runFrom step start (acts.take n)) a)) :
    (∀ n, P (runFrom step start (acts.take n))) ↔
      ∀ n a, acts[n]? = some a → ¬ Bad (runFrom step start (acts.take n)) a := by
  constructor
  · intro holds n a ha
    have next := holds (n + 1)
    rw [take_succ ha] at next
    exact (keep n a ha (holds n)).mp next
  · intro good
    apply invariant init
    intro n a ha here
    exact (keep n a ha here).mpr (good n a ha)

/-- Runs of steps that may have no next state. -/
theorem partial_take_succ {step : σ → α → Option σ} {n : Nat} {a : α} (h : acts[n]? = some a) :
    (acts.take (n + 1)).foldlM step start =
      ((acts.take n).foldlM step start).bind (step · a) := by
  rw [List.take_add_one, h, Option.toList_some, List.foldlM_append]
  simp

theorem partial_invariant {step : σ → α → Option σ} {P : σ → Prop} (init : P start)
    (keep : ∀ n a t t', acts[n]? = some a → (acts.take n).foldlM step start = some t →
      step t a = some t' → P t → P t') (n : Nat) {t : σ}
    (h : (acts.take n).foldlM step start = some t) : P t := by
  induction n generalizing t with
  | zero =>
    cases h
    exact init
  | succ n ih =>
    cases ha : acts[n]? with
    | none =>
      rw [List.take_add_one, ha, Option.toList_none, List.append_nil] at h
      exact ih h
    | some a =>
      rw [partial_take_succ ha] at h
      obtain ⟨u, reached, taken⟩ := Option.bind_eq_some_iff.mp h
      exact keep n a u t ha reached taken (ih reached)

/-- When what holds lets each step be taken, the run goes through. -/
theorem partial_total {step : σ → α → Option σ} {P : σ → Prop} (init : P start)
    (go : ∀ n a t, acts[n]? = some a → (acts.take n).foldlM step start = some t → P t →
      ∃ t', step t a = some t' ∧ P t') (n : Nat) :
    ∃ t, (acts.take n).foldlM step start = some t ∧ P t := by
  induction n with
  | zero => exact ⟨start, rfl, init⟩
  | succ n ih =>
    obtain ⟨t, reached, holds⟩ := ih
    cases ha : acts[n]? with
    | none =>
      rw [List.take_add_one, ha, Option.toList_none, List.append_nil]
      exact ⟨t, reached, holds⟩
    | some a =>
      obtain ⟨t', taken, holds'⟩ := go n a t ha reached holds
      exact ⟨t', by rw [partial_take_succ ha, reached, Option.bind_some, taken], holds'⟩

/-- Steps that are good just when they are not of the bad kind, as long as none of these was
taken before. -/
theorem partial_exact {step : σ → α → Option σ} {P : σ → Prop} {G : σ → α → σ → Prop}
    {Bad : σ → α → Prop} (init : P start)
    (each : ∀ t a t', P t → step t a = some t' → (G t a t' ↔ ¬ Bad t a))
    (keep : ∀ t a t', P t → step t a = some t' → ¬ Bad t a → P t') :
    (∀ n a t t', acts[n]? = some a → (acts.take n).foldlM step start = some t →
        step t a = some t' → G t a t') ↔
      ∀ n a t t', acts[n]? = some a → (acts.take n).foldlM step start = some t →
        step t a = some t' → ¬ Bad t a := by
  constructor
  · intro good n a t t' ha reached taken
    have holds : P t := by
      refine partial_invariant init ?_ n reached
      intro n a t t' ha reached taken here
      exact keep t a t' here taken ((each t a t' here taken).mp (good n a t t' ha reached taken))
    exact (each t a t' holds taken).mp (good n a t t' ha reached taken)
  · intro bad n a t t' ha reached taken
    have holds : P t := by
      refine partial_invariant init ?_ n reached
      intro n a t t' ha reached taken here
      exact keep t a t' here taken (bad n a t t' ha reached taken)
    exact (each t a t' holds taken).mpr (bad n a t t' ha reached taken)

/-- The same of all the states reached. -/
theorem partial_states_exact {step : σ → α → Option σ} {P Q : σ → Prop} {Bad : σ → α → Prop}
    (init : P start) (first : Q start)
    (each : ∀ t a t', P t → step t a = some t' → (Q t' ↔ ¬ Bad t a))
    (keep : ∀ t a t', P t → step t a = some t' → ¬ Bad t a → P t') :
    (∀ n t, (acts.take n).foldlM step start = some t → Q t) ↔
      ∀ n a t t', acts[n]? = some a → (acts.take n).foldlM step start = some t →
        step t a = some t' → ¬ Bad t a := by
  rw [← partial_exact (G := fun _ _ t' => Q t') init each keep]
  constructor
  · intro all n a t t' ha reached taken
    refine all (n + 1) t' ?_
    rw [partial_take_succ ha, reached, Option.bind_some, taken]
  · intro steps n t reached
    refine partial_invariant first ?_ n reached
    intro n a t t' ha reached taken _
    exact steps n a t t' ha reached taken

end Runs
