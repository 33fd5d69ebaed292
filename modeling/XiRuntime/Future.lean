import Mathlib.Logic.Function.Basic
import XiRuntime.Throwing

namespace XiRuntime

/-- What may be thrown: a user's exception or one of those in `exceptions.h`. -/
inductive Exc (E : Type)
  | user (e : E)
  | brokenPromise
  | invalidPromise
deriving DecidableEq, Repr

/-- What a promise is set to. -/
inductive Outcome (A E : Type)
  | value (a : A)
  | exception (x : Exc E)
deriving DecidableEq, Repr

/-- The variant inside `state<T>`. -/
inductive FutureState (A E : Type)
  | unfulfilled
  | done (o : Outcome A E)
deriving DecidableEq, Repr

def FutureState.isReady {A E : Type} : FutureState A E → Bool
  | .unfulfilled => false
  | .done _ => true

/-- `future<U>` holds its state itself or shares it with a promise; a state it
holds itself is a result. -/
inductive Future (U E : Type)
  | localState (o : Outcome U E)
  | shared (addr : Nat)
deriving DecidableEq, Repr

/-- `promise<U>`; `_state` is null after it was moved out. -/
structure Promise where
  state : Option Nat
  futureMade : Bool
  valueSet : Bool
deriving DecidableEq, Repr

/-- How a continuation ends. -/
inductive Reply (U E : Type)
  | plain (u : U)
  | throws (x : Exc E)
  | future (f : Future U E)
deriving DecidableEq, Repr

/-- A continuation waiting in a shared state, with the promise it owns. -/
structure Callback (T U E : Type) where
  promise : Nat
  f : T → Reply U E

/-- A promise `p` of a `T`, its shared state and its one callback; the shared
states of `U`s, to which no continuation is attached; the promises of `U`s; and
how often a continuation has been called. -/
structure FutureWorld (T U E : Type) where
  valueSet : Bool
  source : FutureState T E
  callback : Option (Callback T U E)
  cells : Nat → FutureState U E
  nextCell : Nat
  promises : Nat → Promise
  nextPromise : Nat
  calls : Nat

/-- A C++ function: a throw keeps the changes made before it. -/
abbrev Eff (T U E : Type) := Throwing (Exc E) (FutureWorld T U E)

namespace FutureWorld

variable {T U E : Type}

def setCell (w : FutureWorld T U E) (i : Nat) (s : FutureState U E) : FutureWorld T U E :=
  { w with cells := Function.update w.cells i s }

def setPromise (w : FutureWorld T U E) (p : Nat) (pr : Promise) : FutureWorld T U E :=
  { w with promises := Function.update w.promises p pr }

def stateOf (w : FutureWorld T U E) : Future U E → FutureState U E
  | .localState o => .done o
  | .shared i => w.cells i

end FutureWorld

namespace Promise

variable {T U E : Type}

/-- `promise<U>::set(T)` and `promise<U>::set(exception_ptr)`. A promise without
its state has the flag set. -/
def set (p : Nat) (o : Outcome U E) : Eff T U E Unit := do
  let pr := (← get).promises p
  if pr.valueSet then throw .invalidPromise
  modify fun w => w.setPromise p { pr with valueSet := true }
  match pr.state with
  | some i => modify fun w => w.setCell i (.done o)
  | none => pure ()

/-- `state<U>::get_value` of a future that is ready. -/
def getValue (o : Outcome U E) : Eff T U E U :=
  match o with
  | .value u => pure u
  | .exception x => throw x

def extractIntoSharedState (f : Future U E) (st : Nat) : Eff T U E Nat := do
  match (← get).stateOf f, f with
  | .done o, _ => do
    let u ← getValue o
    modify fun w => w.setCell st (.done (.value u))
    return st
  | .unfulfilled, .shared i => return i
  | .unfulfilled, .localState _ => return st

/-- `promise<U>::set(future<U> &&)`: `_state` is moved into the argument first. -/
def setFuture (p : Nat) (f : Future U E) : Eff T U E Unit := do
  let pr := (← get).promises p
  if pr.valueSet then throw .invalidPromise
  modify fun w => w.setPromise p { pr with valueSet := true, state := none }
  match pr.state with
  | some st => do
    let i ← extractIntoSharedState f st
    modify fun w => w.setPromise p { pr with valueSet := true, state := some i }
  | none => pure ()

/-- `~promise`. -/
def destroy (p : Nat) : Eff T U E Unit := do
  let w ← get
  match (w.promises p).state with
  | some i =>
    if (w.cells i).isReady then pure ()
    else modify fun w => w.setCell i (.done (.exception .brokenPromise))
  | none => pure ()

end Promise

namespace Future

variable {T U E : Type}

/-- `callable_applier::apply`: a plain result or a future. -/
def apply (f : T → Reply U E) (v : T) : Eff T U E (U ⊕ Future U E) := do
  modify fun w => { w with calls := w.calls + 1 }
  match f v with
  | .plain u => pure (.inl u)
  | .throws x => throw x
  | .future g => pure (.inr g)

/-- The overload of `promise::set` for the result of a continuation. -/
def setReply (p : Nat) : U ⊕ Future U E → Eff T U E Unit
  | .inl u => Promise.set p (.value u)
  | .inr g => Promise.setFuture p g

/-- The lambda that `set_continuation` leaves in a pending state. -/
def onReady (cb : Callback T U E) : Eff T U E Unit := do
  match (← get).source with
  | .done (.exception x) => Promise.set cb.promise (.exception x)
  | .done (.value v) =>
    try
      let r ← apply cb.f v
      setReply cb.promise r
    catch x => Promise.set cb.promise (.exception x)
  | .unfulfilled => pure ()

/-- `maybe_callback`: the lambda is destroyed on leaving it, and its promise
with it. -/
def maybeCallback : Eff T U E Unit := do
  match (← get).callback with
  | some cb => try onReady cb finally Promise.destroy cb.promise
  | none => pure ()

/-- `promise<T>::set` on `p`. -/
def set (o : Outcome T E) : Eff T U E Unit := do
  if (← get).valueSet then throw .invalidPromise
  modify fun w => { w with valueSet := true, source := .done o }
  maybeCallback

/-- `state<T>::set_continuation` of a result. -/
def setContinuation (f : T → Reply U E) (o : Outcome T E) : Eff T U E (Future U E) :=
  match o with
  | .exception x => pure (.localState (.exception x))
  | .value v =>
    try
      match ← apply f v with
      | .inl u => pure (.localState (.value u))
      | .inr g => pure g
    catch x => pure (.localState (.exception x))

/-- The shared state and the promise that a pending continuation is given. -/
def makePromise : Eff T U E (Nat × Nat) := do
  let w ← get
  modify fun w => { w with
    cells := Function.update w.cells w.nextCell .unfulfilled
    nextCell := w.nextCell + 1
    promises := Function.update w.promises w.nextPromise ⟨some w.nextCell, true, false⟩
    nextPromise := w.nextPromise + 1 }
  return (w.nextPromise, w.nextCell)

/-- `then` on the future of `p`. -/
def andThen (f : T → Reply U E) : Eff T U E (Future U E) := do
  match (← get).source with
  | .done o => setContinuation f o
  | .unfulfilled => do
    let (p, i) ← makePromise
    modify fun w => { w with callback := some ⟨p, f⟩ }
    return .shared i

end Future

/-- A fresh promise `p`, an outcome for it and a continuation for its future.
`inner` is the promise behind the pending future that the continuation may
return, and `later` is what it is set to in the end. -/
structure Scene (T U E : Type) where
  cells : Nat → FutureState U E
  nextCell : Nat
  inner : Nat
  outcome : Outcome T E
  k : T → Reply U E
  later : Outcome U E
  inner_alloc : inner < nextCell
  inner_pending : cells inner = .unfulfilled
  k_alloc : ∀ v i, k v = .future (.shared i) → i < nextCell
  k_completed : ∀ v i, k v = .future (.shared i) → cells i = .unfulfilled → i = inner

/-- What can be seen of a run: the outcome of the future that `then` returned, how
often the continuation ran and what escaped from `p.set`. -/
structure Observation (U E : Type) where
  outcome : FutureState U E
  calls : Nat
  escaped : Option (Exc E)
deriving DecidableEq, Repr

namespace Scene

variable {T U E : Type}

/-- The inner promise is number 0. -/
def start (s : Scene T U E) : FutureWorld T U E where
  valueSet := false
  source := .unfulfilled
  callback := none
  cells := s.cells
  nextCell := s.nextCell
  promises := fun _ => ⟨some s.inner, true, false⟩
  nextPromise := 1
  calls := 0

/-- `p.set(outcome)` and what escapes from it. -/
def setP (s : Scene T U E) : Eff T U E (Option (Exc E)) :=
  try
    Future.set s.outcome
    pure none
  catch x => pure (some x)

/-- The inner promise is set, and the outcome is read off. -/
def finish (s : Scene T U E) (r : Future U E) (escaped : Option (Exc E)) :
    Eff T U E (Observation U E) := do
  Promise.set 0 s.later
  let w ← get
  return ⟨w.stateOf r, w.calls, escaped⟩

/-- `f.then(k); p.set(outcome)`. -/
def thenFirst (s : Scene T U E) : Option (Observation U E) :=
  EStateM.run' (do
    let r ← Future.andThen s.k
    let escaped ← s.setP
    s.finish r escaped) s.start

/-- `p.set(outcome); f.then(k)`. -/
def setFirst (s : Scene T U E) : Option (Observation U E) :=
  EStateM.run' (do
    let escaped ← s.setP
    let r ← Future.andThen s.k
    s.finish r escaped) s.start

/-- The two orders cannot be told apart, and nothing escapes from `p.set`. -/
def Agree (s : Scene T U E) : Prop :=
  ∃ o, s.thenFirst = some o ∧ s.setFirst = some o ∧ o.escaped = none

end Scene

end XiRuntime
