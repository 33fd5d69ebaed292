/-- Programs over a state that may throw; a throw keeps the state it is made in. -/
abbrev Throwing (ε σ : Type) := EStateM ε σ

namespace Throwing

variable {ε σ α β : Type}

@[simp] theorem run_throw (e : ε) (s : σ) :
    EStateM.run (throw e : Throwing ε σ α) s = .error e s := rfl

/-- No part of the state is taken back. -/
@[simp] theorem restore_eq (s : σ) (d : PUnit) : EStateM.Backtrackable.restore s d = s := rfl

@[simp] theorem run_map (f : α → β) (x : Throwing ε σ α) (s : σ) :
    EStateM.run (f <$> x) s =
      match EStateM.run x s with
      | .ok a s => .ok (f a) s
      | .error e s => .error e s := rfl

/-- What is thrown is no result. -/
theorem run'_eq (x : Throwing ε σ α) (s : σ) :
    EStateM.run' x s =
      match EStateM.run x s with
      | .ok a _ => some a
      | .error _ _ => none := rfl

/-- The handler begins in the state of the throw. -/
@[simp] theorem run_tryCatch (x : Throwing ε σ α) (h : ε → Throwing ε σ α) (s : σ) :
    EStateM.run (tryCatch x h) s =
      match EStateM.run x s with
      | .ok a s => .ok a s
      | .error e s => EStateM.run (h e) s := by
  change EStateM.tryCatch x h s = _
  delta EStateM.tryCatch
  simp only [EStateM.run]
  cases x s with
  | ok a s => rfl
  | error e s => rfl

/-- The finalizer is run in both cases; what it throws replaces what was thrown. -/
@[simp] theorem run_tryFinally (x : Throwing ε σ α) (y : Throwing ε σ β) (s : σ) :
    EStateM.run (tryFinally x y) s =
      match EStateM.run x s with
      | .ok a s =>
        match EStateM.run y s with
        | .ok _ s => .ok a s
        | .error e s => .error e s
      | .error e s =>
        match EStateM.run y s with
        | .ok _ s => .error e s
        | .error e s => .error e s := by
  simp only [tryFinally, Functor.map, EStateM.map, tryFinally', EStateM.run]
  cases x s with
  | ok a s => cases hy : y s <;> simp [hy]
  | error e s => cases hy : y s <;> simp [hy]

end Throwing
