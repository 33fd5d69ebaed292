import Mathlib.Data.List.Induction
import Mathlib.Data.List.TakeWhile
import XiRuntime.FutureOrder

namespace XiRuntime

variable {T U E : Type}

namespace Future

/-- `promise<T>::apply`, where `r` is how the function ends. -/
def applyTo (r : Except (Exc E) T) : Eff T U E Unit :=
  try
    match r with
    | .ok v => set (.value v)
    | .error x => throw x
  catch x => set (.exception x)

/-- `~promise<T>`: the shared state is set, past the flags of the promise. -/
def destroy : Eff T U E Unit := do
  if (← get).source.isReady then pure ()
  else do
    modify fun w => { w with source := .done (.exception .brokenPromise) }
    maybeCallback

end Future

/-- The operations on a promise and its future; the continuation returns a value
or throws. -/
inductive PromiseOp (T U E : Type)
  | getFuture
  | set (o : Outcome T E)
  | apply (r : Except (Exc E) T)
  | andThen (k : T → Except (Exc E) U)

/-- A promise in use: the flag of `get_future` and the future that `then` gave. -/
structure PromiseLife (T U E : Type) where
  world : FutureWorld T U E
  futureMade : Bool
  result : Option (Future U E)

def replyOf (k : T → Except (Exc E) U) (v : T) : Reply U E :=
  match k v with
  | .ok u => .plain u
  | .error x => .throws x

namespace PromiseLife

def start : PromiseLife T U E where
  world :=
    { valueSet := false
      source := .unfulfilled
      callback := none
      cells := fun _ => .unfulfilled
      nextCell := 0
      promises := fun _ => ⟨none, false, false⟩
      nextPromise := 0
      calls := 0 }
  futureMade := false
  result := none

/-- A call on the promise, and what escapes from it. -/
def perform (s : PromiseLife T U E) (m : Eff T U E Unit) : PromiseLife T U E × Option (Exc E) :=
  match EStateM.run m s.world with
  | .ok _ w => ({ s with world := w }, none)
  | .error x w => ({ s with world := w }, some x)

/-- `then` takes the future, so without one or for a second time there is no call. -/
def step (s : PromiseLife T U E) : PromiseOp T U E → PromiseLife T U E × Option (Exc E)
  | .getFuture => if s.futureMade then (s, some .invalidPromise) else ({ s with futureMade := true }, none)
  | .set o => s.perform (Future.set o)
  | .apply r => s.perform (Future.applyTo r)
  | .andThen k =>
    if s.futureMade && s.result.isNone then
      match EStateM.run (Future.andThen (replyOf k)) s.world with
      | .ok f w => ({ s with world := w, result := some f }, none)
      | .error x w => ({ s with world := w }, some x)
    else (s, none)

def run (ops : List (PromiseOp T U E)) : PromiseLife T U E := ops.foldl (fun s op => (s.step op).1) start

/-- The promise goes out of scope; nothing may escape from a destructor. -/
def destroyed (s : PromiseLife T U E) : PromiseLife T U E × Option (Exc E) := s.perform Future.destroy

end PromiseLife

namespace PromiseOp

def isGetFuture : PromiseOp T U E → Bool
  | .getFuture => true
  | _ => false

/-- What a call that writes is to leave in the future. -/
def outcome? : PromiseOp T U E → Option (Outcome T E)
  | .set o => some o
  | .apply (.ok v) => some (.value v)
  | .apply (.error x) => some (.exception x)
  | _ => none

def continuation? : PromiseOp T U E → Option (T → Except (Exc E) U)
  | .andThen k => some k
  | _ => none

end PromiseOp

/-- What the operations amount to: whether there is a future, the first outcome
written and the continuation attached to the future. -/
def made (ops : List (PromiseOp T U E)) : Bool := ops.any PromiseOp.isGetFuture

def written (ops : List (PromiseOp T U E)) : Option (Outcome T E) := ops.findSome? PromiseOp.outcome?

def attached (ops : List (PromiseOp T U E)) : Option (T → Except (Exc E) U) :=
  (ops.dropWhile (fun op => !op.isGetFuture)).findSome? PromiseOp.continuation?

/-- An operation that comes too late. -/
def repeats (ops : List (PromiseOp T U E)) (op : PromiseOp T U E) : Bool :=
  (op.isGetFuture && made ops) || (op.outcome?.isSome && (written ops).isSome)

/-- The outcome of the future behind `then`, and the calls of the continuation. -/
def thenOutcome (k : T → Except (Exc E) U) : Outcome T E → Outcome U E
  | .exception x => .exception x
  | .value v =>
    match k v with
    | .ok u => .value u
    | .error x => .exception x

def callsFor : Outcome T E → Nat
  | .value _ => 1
  | .exception _ => 0

theorem made_snoc (ops : List (PromiseOp T U E)) (op : PromiseOp T U E) :
    made (ops ++ [op]) = (made ops || op.isGetFuture) := by
  simp [made]

theorem written_snoc (ops : List (PromiseOp T U E)) (op : PromiseOp T U E) :
    written (ops ++ [op]) = (written ops).or op.outcome? := by
  rw [written, List.findSome?_append]
  simp only [List.findSome?_singleton]
  rfl

theorem attached_snoc (ops : List (PromiseOp T U E)) (op : PromiseOp T U E) :
    attached (ops ++ [op]) =
      (attached ops).or (if made ops then op.continuation? else none) := by
  unfold attached
  rw [List.dropWhile_append]
  by_cases hm : made ops = true
  · have hne : (ops.dropWhile (fun op => !op.isGetFuture)).isEmpty = false := by
      obtain ⟨op', hop, hget⟩ := List.any_eq_true.mp hm
      rw [List.isEmpty_eq_false_iff, ne_eq, List.dropWhile_eq_nil_iff]
      intro hall
      have hnot := hall op' hop
      simp [hget] at hnot
    simp [hne, hm, List.findSome?_append]
  · have hall : ∀ op' ∈ ops, op'.isGetFuture = false := by
      simpa [made] using hm
    have hnil : ops.dropWhile (fun op => !op.isGetFuture) = [] := by
      rw [List.dropWhile_eq_nil_iff]
      intro op' hop
      simp [hall op' hop]
    rw [hnil]
    cases op <;> simp [hm, PromiseOp.isGetFuture, PromiseOp.continuation?]

namespace Future

variable {w : FutureWorld T U E} {p i : Nat} {k : T → Except (Exc E) U}

theorem run_maybeCallback_none (hcb : w.callback = none) :
    EStateM.run maybeCallback w = .ok () w := by
  simp [maybeCallback, hcb]

/-- What the callback leaves of a world whose source has its outcome. -/
structure Fired (w w' : FutureWorld T U E) (i : Nat) (k : T → Except (Exc E) U) (o : Outcome T E) :
    Prop where
  valueSet : w'.valueSet = w.valueSet
  source : w'.source = w.source
  cell : w'.cells i = .done (thenOutcome k o)
  calls : w'.calls = w.calls + callsFor o

theorem run_maybeCallback_fired {o : Outcome T E} (hcb : w.callback = some ⟨p, replyOf k⟩)
    (hs : w.source = .done o) (hp : w.promises p = ⟨some i, true, false⟩) :
    ∃ w', EStateM.run maybeCallback w = .ok () w' ∧ Fired w w' i k o := by
  cases o with
  | exception x =>
    refine ⟨_, run_maybeCallback_kept hcb (run_onReady_exception hs hp), ?_⟩
    constructor <;> simp [kept, FutureWorld.setPromise, FutureWorld.setCell, thenOutcome, callsFor]
  | value v =>
    cases hk : k v with
    | ok u =>
      have hf : replyOf k v = .plain u := by simp [replyOf, hk]
      refine ⟨_, run_maybeCallback_kept hcb (run_onReady_plain hs hp hf), ?_⟩
      constructor <;>
        simp [kept, counted, FutureWorld.setPromise, FutureWorld.setCell, thenOutcome, callsFor, hk]
    | error x =>
      have hf : replyOf k v = .throws x := by simp [replyOf, hk]
      refine ⟨_, run_maybeCallback_kept hcb (run_onReady_throws hs hp hf), ?_⟩
      constructor <;>
        simp [kept, counted, FutureWorld.setPromise, FutureWorld.setCell, thenOutcome, callsFor, hk]

theorem run_set_first (o : Outcome T E) (h : w.valueSet = false) :
    EStateM.run (set o) w =
      EStateM.run maybeCallback { w with valueSet := true, source := .done o } := by
  simp [set, h]

theorem run_set_late (o : Outcome T E) (h : w.valueSet = true) :
    EStateM.run (set o) w = .error .invalidPromise w := by
  simp [set, h]

/-- The second `set` in `apply` is refused like the first. -/
theorem run_applyTo_late (r : Except (Exc E) T) (h : w.valueSet = true) :
    EStateM.run (applyTo r) w = .error .invalidPromise w := by
  cases r with
  | ok v => simp [applyTo, run_set_late _ h]
  | error x => simp [applyTo, run_set_late _ h]

theorem run_applyTo_first {r : Except (Exc E) T} {o : Outcome T E} {w' : FutureWorld T U E}
    (ho : (PromiseOp.apply r : PromiseOp T U E).outcome? = some o)
    (hset : EStateM.run (set o) w = .ok () w') : EStateM.run (applyTo r) w = .ok () w' := by
  cases r with
  | ok v =>
    cases Option.some.inj ho
    simp [applyTo, hset]
  | error x =>
    cases Option.some.inj ho
    simp [applyTo, hset]

theorem run_andThen_ready {o : Outcome T E} (hs : w.source = .done o) :
    EStateM.run (andThen (replyOf k)) w =
      .ok (.localState (thenOutcome k o)) { w with calls := w.calls + callsFor o } := by
  cases o with
  | exception x =>
    have hrun : EStateM.run (andThen (replyOf k)) w = .ok (.localState (.exception x)) w := by
      simp [andThen, hs, setContinuation]
    rw [hrun]
    rfl
  | value v =>
    cases hk : k v with
    | ok u =>
      have hf : replyOf k v = .plain u := by simp [replyOf, hk]
      simp [andThen, hs, setContinuation, run_apply, hf, thenOutcome, callsFor, hk, counted]
    | error x =>
      have hf : replyOf k v = .throws x := by simp [replyOf, hk]
      simp [andThen, hs, setContinuation, run_apply, hf, thenOutcome, callsFor, hk, counted]

theorem run_andThen_pending (hs : w.source = .unfulfilled) :
    EStateM.run (andThen (replyOf k)) w =
      .ok (.shared w.nextCell)
        { w with
          cells := Function.update w.cells w.nextCell .unfulfilled
          nextCell := w.nextCell + 1
          promises := Function.update w.promises w.nextPromise ⟨some w.nextCell, true, false⟩
          nextPromise := w.nextPromise + 1
          callback := some ⟨w.nextPromise, replyOf k⟩ } := by
  simp [andThen, hs, makePromise]

theorem run_destroy_written {o : Outcome T E} (hs : w.source = .done o) :
    EStateM.run destroy w = .ok () w := by
  simp [destroy, hs, FutureState.isReady]

theorem run_destroy_unwritten (hs : w.source = .unfulfilled) :
    EStateM.run destroy w =
      EStateM.run maybeCallback { w with source := .done (.exception .brokenPromise) } := by
  simp [destroy, hs, FutureState.isReady]

end Future

namespace PromiseLife

/-- The state of the future behind `then`, in terms of what was written. -/
def Continues (s : PromiseLife T U E) :
    Option (T → Except (Exc E) U) → Option (Outcome T E) → Prop
  | none, _ => s.result = none ∧ s.world.callback = none ∧ s.world.calls = 0
  | some k, none => ∃ p i, s.result = some (.shared i) ∧ s.world.callback = some ⟨p, replyOf k⟩ ∧
      s.world.promises p = ⟨some i, true, false⟩ ∧ s.world.calls = 0
  | some k, some o => ∃ f, s.result = some f ∧ s.world.stateOf f = .done (thenOutcome k o) ∧
      s.world.calls = callsFor o

/-- The state of a promise after some operations. -/
structure Follows (s : PromiseLife T U E) (ops : List (PromiseOp T U E)) : Prop where
  futureMade : s.futureMade = made ops
  valueSet : s.world.valueSet = (written ops).isSome
  source : s.world.source = (written ops).elim .unfulfilled .done
  continues : s.Continues (attached ops) (written ops)

theorem follows_start : (start : PromiseLife T U E).Follows [] :=
  ⟨rfl, rfl, rfl, rfl, rfl, rfl⟩

variable {s : PromiseLife T U E} {ops : List (PromiseOp T U E)}

/-- An outcome that arrives reaches the continuation, if there is one. -/
theorem Continues.settle (h : s.Continues (attached ops) none) (o : Outcome T E)
    (valueSet : Bool) :
    ∃ w, EStateM.run Future.maybeCallback { s.world with valueSet := valueSet, source := .done o } =
        .ok () w ∧ w.valueSet = valueSet ∧ w.source = .done o ∧
      ({ s with world := w } : PromiseLife T U E).Continues (attached ops) (some o) := by
  cases hk : attached ops with
  | none =>
    rw [hk] at h
    obtain ⟨hresult, hcb, hcalls⟩ := h
    exact ⟨_, Future.run_maybeCallback_none hcb, rfl, rfl, hresult, hcb, hcalls⟩
  | some k =>
    rw [hk] at h
    obtain ⟨p, i, hresult, hcb, hp, hcalls⟩ := h
    obtain ⟨w, hrun, hw⟩ := Future.run_maybeCallback_fired
      (w := { s.world with valueSet := valueSet, source := .done o }) hcb rfl hp
    refine ⟨w, hrun, hw.valueSet, hw.source, .shared i, hresult, hw.cell, ?_⟩
    rw [hw.calls]
    simp [hcalls]

/-- A write that is not the first throws and changes nothing. -/
theorem step_late {op : PromiseOp T U E} (h : s.Follows ops) (hr : repeats ops op = true) :
    s.step op = (s, some .invalidPromise) := by
  have hset : op.outcome?.isSome = true → s.world.valueSet = true := by
    intro hwrites
    rw [h.valueSet]
    cases op with
    | getFuture => simp [PromiseOp.outcome?] at hwrites
    | andThen k => simp [PromiseOp.outcome?] at hwrites
    | set o => simpa [repeats, PromiseOp.isGetFuture, PromiseOp.outcome?] using hr
    | apply r => simpa [repeats, PromiseOp.isGetFuture, hwrites] using hr
  cases op with
  | getFuture =>
    have hm : made ops = true := by simpa [repeats, PromiseOp.isGetFuture, PromiseOp.outcome?] using hr
    simp [step, h.futureMade, hm]
  | andThen k => simp [repeats, PromiseOp.isGetFuture, PromiseOp.outcome?] at hr
  | set o => simp [step, perform, Future.run_set_late _ (hset rfl)]
  | apply r =>
    have hwrites : (PromiseOp.apply r : PromiseOp T U E).outcome?.isSome = true := by cases r <;> rfl
    simp [step, perform, Future.run_applyTo_late _ (hset hwrites)]

/-- The first write settles the future. -/
theorem perform_first {o : Outcome T E} {m : Eff T U E Unit} {op : PromiseOp T U E}
    (h : s.Follows ops) (hw : written ops = none) (hop : op.outcome? = some o)
    (hm : ∀ w, EStateM.run (Future.set o) s.world = .ok () w → EStateM.run m s.world = .ok () w) :
    (s.perform m).2 = none ∧ (s.perform m).1.Follows (ops ++ [op]) := by
  have hcont := h.continues
  rw [hw] at hcont
  obtain ⟨w, hrun, hvalue, hsource, hcont⟩ := hcont.settle o true
  have hfirst : s.world.valueSet = false := by rw [h.valueSet, hw]; rfl
  have hset : EStateM.run (Future.set o) s.world = .ok () w := by
    rw [Future.run_set_first o hfirst]
    exact hrun
  have hperform : s.perform m = ({ s with world := w }, none) := by
    simp [perform, hm w hset]
  have hnot : op.isGetFuture = false ∧ op.continuation? = none := by
    cases op <;> simp_all [PromiseOp.outcome?, PromiseOp.isGetFuture, PromiseOp.continuation?]
  have hwritten : written (ops ++ [op]) = some o := by simp [written_snoc, hw, hop]
  have hattached : attached (ops ++ [op]) = attached ops := by simp [attached_snoc, hnot.2]
  rw [hperform]
  refine ⟨rfl, ?_, ?_, ?_, ?_⟩
  · simp [made_snoc, hnot.1, h.futureMade]
  · simp [hwritten, hvalue]
  · simp [hwritten, hsource]
  · rw [hwritten, hattached]
    exact hcont

/-- An operation that writes nothing new. -/
theorem Follows.silent {s' : PromiseLife T U E} {op : PromiseOp T U E} (h : s.Follows ops)
    (hop : (written ops).or op.outcome? = written ops)
    (hmade : s'.futureMade = (s.futureMade || op.isGetFuture))
    (hvalue : s'.world.valueSet = s.world.valueSet) (hsource : s'.world.source = s.world.source)
    (hcont : s'.Continues (attached (ops ++ [op])) (written ops)) : s'.Follows (ops ++ [op]) := by
  have hwritten : written (ops ++ [op]) = written ops := by rw [written_snoc, hop]
  constructor
  · rw [hmade, made_snoc, h.futureMade]
  · rw [hvalue, hwritten, h.valueSet]
  · rw [hsource, hwritten, h.source]
  · rw [hwritten]
    exact hcont

theorem step_getFuture (h : s.Follows ops) (hm : made ops = false) :
    (s.step .getFuture).2 = none ∧ (s.step .getFuture).1.Follows (ops ++ [.getFuture]) := by
  have hstep : s.step .getFuture = ({ s with futureMade := true }, none) := by
    simp [step, h.futureMade, hm]
  have hattached : attached (ops ++ [.getFuture]) = attached ops := by
    simp [attached_snoc, PromiseOp.continuation?]
  rw [hstep]
  refine ⟨rfl, h.silent (by simp [PromiseOp.outcome?]) (by simp [PromiseOp.isGetFuture]) rfl rfl ?_⟩
  rw [hattached]
  exact h.continues

theorem Follows.result_isNone (h : s.Follows ops) : s.result.isNone = (attached ops).isNone := by
  have hcont := h.continues
  cases hk : attached ops with
  | none =>
    rw [hk] at hcont
    simp [hcont.1]
  | some k =>
    rw [hk] at hcont
    cases hw : written ops with
    | none =>
      rw [hw] at hcont
      obtain ⟨p, i, hresult, -⟩ := hcont
      simp [hresult]
    | some o =>
      rw [hw] at hcont
      obtain ⟨f, hresult, -⟩ := hcont
      simp [hresult]

/-- The call of `then`, made once there is a future. -/
theorem run_andThen_continues (h : s.Follows ops) (hnone : attached ops = none)
    (k : T → Except (Exc E) U) :
    ∃ f w, EStateM.run (Future.andThen (replyOf k)) s.world = .ok f w ∧
      w.valueSet = s.world.valueSet ∧ w.source = s.world.source ∧
      ({ s with world := w, result := some f } : PromiseLife T U E).Continues (some k) (written ops) := by
  have hcont := h.continues
  rw [hnone] at hcont
  obtain ⟨-, -, hcalls⟩ := hcont
  have hsource := h.source
  cases hw : written ops with
  | none =>
    rw [hw] at hsource
    refine ⟨_, _, Future.run_andThen_pending hsource, rfl, rfl, ?_⟩
    exact ⟨s.world.nextPromise, s.world.nextCell, rfl, rfl, by simp, hcalls⟩
  | some o =>
    rw [hw] at hsource
    refine ⟨_, _, Future.run_andThen_ready hsource, rfl, rfl, ?_⟩
    exact ⟨.localState (thenOutcome k o), rfl, rfl, by simp [hcalls]⟩

theorem step_andThen (h : s.Follows ops) (k : T → Except (Exc E) U) :
    (s.step (.andThen k)).2 = none ∧ (s.step (.andThen k)).1.Follows (ops ++ [.andThen k]) := by
  have hsilent : (written ops).or (PromiseOp.andThen k : PromiseOp T U E).outcome? = written ops := by
    simp [PromiseOp.outcome?]
  by_cases hgo : (made ops && (attached ops).isNone) = true
  · rw [Bool.and_eq_true] at hgo
    have hnone : attached ops = none := by simpa using hgo.2
    have hattached : attached (ops ++ [.andThen k]) = some k := by
      simp [attached_snoc, hnone, hgo.1, PromiseOp.continuation?]
    obtain ⟨f, w, hrun, hvalue, hsource, hcont⟩ := run_andThen_continues h hnone k
    have hstep : s.step (.andThen k) = ({ s with world := w, result := some f }, none) := by
      simp [step, h.futureMade, hgo.1, h.result_isNone, hnone, hrun]
    rw [hstep]
    refine ⟨rfl, h.silent hsilent (by simp [PromiseOp.isGetFuture]) hvalue hsource ?_⟩
    rw [hattached]
    exact hcont
  · have hstep : s.step (.andThen k) = (s, none) := by
      simp only [step, h.futureMade, h.result_isNone, hgo]
      rfl
    have hattached : attached (ops ++ [.andThen k]) = attached ops := by
      rw [attached_snoc]
      cases hk : attached ops with
      | some k' => rfl
      | none =>
        have hm : made ops = false := by simpa [hk] using hgo
        simp [hm]
    rw [hstep]
    refine ⟨rfl, h.silent hsilent (by simp [PromiseOp.isGetFuture]) rfl rfl ?_⟩
    rw [hattached]
    exact h.continues

/-- An operation that comes too late leaves the state as the others made it. -/
theorem Follows.late {op : PromiseOp T U E} (h : s.Follows ops) (hr : repeats ops op = true) :
    s.Follows (ops ++ [op]) := by
  rw [repeats, Bool.or_eq_true, Bool.and_eq_true, Bool.and_eq_true] at hr
  have hnone : op.continuation? = none := by
    cases op <;> simp_all [PromiseOp.isGetFuture, PromiseOp.outcome?, PromiseOp.continuation?]
  have hattached : attached (ops ++ [op]) = attached ops := by simp [attached_snoc, hnone]
  have hcont := h.continues
  rw [← hattached] at hcont
  rcases hr with ⟨hget, hm⟩ | ⟨hwrites, hset⟩
  · have hop : op.outcome? = none := by
      cases op <;> simp_all [PromiseOp.isGetFuture, PromiseOp.outcome?]
    exact h.silent (by simp [hop]) (by simp [h.futureMade, hm]) rfl rfl hcont
  · have hget : op.isGetFuture = false := by
      cases op <;> simp_all [PromiseOp.isGetFuture, PromiseOp.outcome?]
    obtain ⟨o, ho⟩ := Option.isSome_iff_exists.mp hset
    exact h.silent (by simp [ho]) (by simp [hget]) rfl rfl hcont

theorem step_first {op : PromiseOp T U E} (h : s.Follows ops) (hr : repeats ops op = false) :
    (s.step op).2 = none ∧ (s.step op).1.Follows (ops ++ [op]) := by
  cases op with
  | getFuture =>
    have hm : made ops = false := by
      simpa [repeats, PromiseOp.isGetFuture, PromiseOp.outcome?] using hr
    exact step_getFuture h hm
  | andThen k => exact step_andThen h k
  | set o =>
    have hw : written ops = none := by
      simpa [repeats, PromiseOp.isGetFuture, PromiseOp.outcome?] using hr
    exact perform_first h hw rfl (fun w hrun => hrun)
  | apply r =>
    obtain ⟨o, ho⟩ : ∃ o, (PromiseOp.apply r : PromiseOp T U E).outcome? = some o := by
      cases r
      · exact ⟨_, rfl⟩
      · exact ⟨_, rfl⟩
    have hw : written ops = none := by
      simpa [repeats, PromiseOp.isGetFuture, ho] using hr
    exact perform_first h hw ho (fun w hrun => Future.run_applyTo_first ho hrun)

theorem step_follows {op : PromiseOp T U E} (h : s.Follows ops) :
    (s.step op).1.Follows (ops ++ [op]) := by
  cases hr : repeats ops op with
  | true =>
    rw [step_late h hr]
    exact h.late hr
  | false => exact (step_first h hr).2

theorem run_follows (ops : List (PromiseOp T U E)) : (run ops).Follows ops := by
  induction ops using List.reverseRecOn with
  | nil => exact follows_start
  | append_singleton ops op ih =>
    rw [run, List.foldl_append]
    exact step_follows ih

theorem destroyed_spec (h : s.Follows ops) :
    s.destroyed.2 = none ∧
      s.destroyed.1.world.source = .done ((written ops).getD (.exception .brokenPromise)) ∧
      s.destroyed.1.Continues (attached ops) (some ((written ops).getD (.exception .brokenPromise))) := by
  have hsource := h.source
  have hcont := h.continues
  cases hw : written ops with
  | none =>
    rw [hw] at hsource hcont
    obtain ⟨w, hrun, -, hdone, hcont⟩ :=
      hcont.settle (.exception .brokenPromise) s.world.valueSet
    have hdestroy : s.destroyed = ({ s with world := w }, none) := by
      simp only [destroyed, perform, Future.run_destroy_unwritten hsource, hrun]
    rw [hdestroy]
    exact ⟨rfl, hdone, hcont⟩
  | some o =>
    rw [hw] at hsource hcont
    have hdestroy : s.destroyed = (s, none) := by
      simp only [destroyed, perform, Future.run_destroy_written hsource]
    rw [hdestroy]
    exact ⟨rfl, hsource, hcont⟩

/-- A promise is written once: whatever is done with it, the first outcome written
is the future's, or else that of the destructor; what comes too late throws and
changes nothing; and the continuation sees that one outcome, once. -/
theorem promise_write_once (ops : List (PromiseOp T U E)) :
    (∀ (pre : List (PromiseOp T U E)) (op : PromiseOp T U E),
      if repeats pre op then (run pre).step op = (run pre, some .invalidPromise)
      else ((run pre).step op).2 = none) ∧
    (run ops).destroyed.2 = none ∧
    (run ops).destroyed.1.world.source =
      .done ((written ops).getD (.exception .brokenPromise)) ∧
    match attached ops with
    | none => (run ops).destroyed.1.result = none ∧ (run ops).destroyed.1.world.calls = 0
    | some k => ∃ f, (run ops).destroyed.1.result = some f ∧
        (run ops).destroyed.1.world.stateOf f =
          .done (thenOutcome k ((written ops).getD (.exception .brokenPromise))) ∧
        (run ops).destroyed.1.world.calls = callsFor ((written ops).getD (.exception .brokenPromise)) := by
  obtain ⟨hthrown, hsource, hcont⟩ := destroyed_spec (run_follows ops)
  refine ⟨?_, hthrown, hsource, ?_⟩
  · intro pre op
    split
    next hr => exact step_late (run_follows pre) hr
    next hr => exact (step_first (run_follows pre) (by simpa using hr)).1
  · cases hk : attached ops with
    | none =>
      rw [hk] at hcont
      exact ⟨hcont.1, hcont.2.2⟩
    | some k =>
      rw [hk] at hcont
      exact hcont

end PromiseLife

end XiRuntime
