import XiRuntime.Future

namespace XiRuntime

variable {T U E : Type}

namespace FutureWorld

@[simp] theorem setPromise_setCell (w : FutureWorld T U E) (i : Nat) (st : FutureState U E) (p : Nat)
    (pr : Promise) : (w.setCell i st).setPromise p pr = (w.setPromise p pr).setCell i st := rfl

@[simp] theorem setPromise_setPromise (w : FutureWorld T U E) (p : Nat) (pr pr' : Promise) :
    (w.setPromise p pr).setPromise p pr' = w.setPromise p pr' := by
  simp [setPromise]

@[simp] theorem stateOf_setPromise (w : FutureWorld T U E) (p : Nat) (pr : Promise) (g : Future U E) :
    (w.setPromise p pr).stateOf g = w.stateOf g := by
  cases g <;> rfl

end FutureWorld

namespace Promise

variable {w : FutureWorld T U E} {p i : Nat}

theorem run_set (o : Outcome U E) (hp : w.promises p = ⟨some i, true, false⟩) :
    EStateM.run (set p o) w = .ok () ((w.setPromise p ⟨some i, true, true⟩).setCell i (.done o)) := by
  simp [set, hp]

theorem run_set_again (o : Outcome U E) (hp : (w.promises p).valueSet = true) :
    EStateM.run (set p o) w = .error .invalidPromise w := by
  simp [set, hp]

theorem run_extractIntoSharedState_value {g : Future U E} {u : U} (st : Nat)
    (hg : w.stateOf g = .done (.value u)) :
    EStateM.run (extractIntoSharedState g st) w = .ok st (w.setCell st (.done (.value u))) := by
  simp [extractIntoSharedState, hg, getValue]

theorem run_setFuture_value {g : Future U E} {u : U} (hp : w.promises p = ⟨some i, true, false⟩)
    (hg : w.stateOf g = .done (.value u)) :
    EStateM.run (setFuture p g) w =
      .ok () ((w.setPromise p ⟨some i, true, true⟩).setCell i (.done (.value u))) := by
  have hx := run_extractIntoSharedState_value (w := w.setPromise p ⟨none, true, true⟩) i
    (by rw [FutureWorld.stateOf_setPromise, hg])
  simp [setFuture, hp, hx]

/-- The exception of a ready future leaves the promise without its state. -/
theorem run_setFuture_exception {g : Future U E} {x : Exc E}
    (hp : w.promises p = ⟨some i, true, false⟩) (hg : w.stateOf g = .done (.exception x)) :
    EStateM.run (setFuture p g) w = .error x (w.setPromise p ⟨none, true, true⟩) := by
  simp [setFuture, hp, extractIntoSharedState, hg, getValue]

/-- The state of a pending future replaces the promise's own. -/
theorem run_setFuture_pending {j : Nat} (hp : w.promises p = ⟨some i, true, false⟩)
    (hg : w.stateOf (.shared j) = .unfulfilled) :
    EStateM.run (setFuture p (.shared j)) w = .ok () (w.setPromise p ⟨some j, true, true⟩) := by
  simp [setFuture, hp, extractIntoSharedState, hg]

theorem run_destroy_ready {pr : Promise} (hp : w.promises p = pr) {o : Outcome U E}
    (hs : ∀ j, pr.state = some j → w.cells j = .done o) :
    EStateM.run (destroy p) w = .ok () w := by
  subst hp
  cases hst : (w.promises p).state with
  | none => simp [destroy, hst]
  | some j => simp [destroy, hst, hs j hst, FutureState.isReady]

theorem run_destroy_pending {j : Nat} (hp : (w.promises p).state = some j)
    (hs : w.cells j = .unfulfilled) :
    EStateM.run (destroy p) w = .ok () (w.setCell j (.done (.exception .brokenPromise))) := by
  simp [destroy, hp, hs, FutureState.isReady]

end Promise

namespace Future

variable {w : FutureWorld T U E} {p i : Nat} {f : T → Reply U E} {v : T}

/-- The world in which the continuation's promise was kept. -/
def kept (w : FutureWorld T U E) (p i : Nat) (o : Outcome U E) : FutureWorld T U E :=
  (w.setPromise p ⟨some i, true, true⟩).setCell i (.done o)

def counted (w : FutureWorld T U E) : FutureWorld T U E := { w with calls := w.calls + 1 }

theorem run_destroy_kept (o : Outcome U E) :
    EStateM.run (Promise.destroy p) (kept w p i o) = .ok () (kept w p i o) := by
  have promise : (kept w p i o).promises p = ⟨some i, true, true⟩ := by
    simp [kept, FutureWorld.setPromise, FutureWorld.setCell]
  refine Promise.run_destroy_ready (o := o) promise ?_
  · intro j hj
    cases Option.some.inj hj
    simp [kept, FutureWorld.setPromise, FutureWorld.setCell]

theorem run_maybeCallback (hcb : w.callback = some ⟨p, f⟩) :
    EStateM.run maybeCallback w =
      EStateM.run (tryFinally (onReady ⟨p, f⟩) (Promise.destroy p)) w := by
  simp [maybeCallback, hcb]

/-- Whatever the lambda does, if it keeps its promise then so does the callback. -/
theorem run_maybeCallback_kept {w' : FutureWorld T U E} {o : Outcome U E}
    (hcb : w.callback = some ⟨p, f⟩) (h : EStateM.run (onReady ⟨p, f⟩) w = .ok () (kept w' p i o)) :
    EStateM.run maybeCallback w = .ok () (kept w' p i o) := by
  rw [run_maybeCallback hcb]
  simp [h, run_destroy_kept]

theorem run_onReady_exception {x : Exc E} (hs : w.source = .done (.exception x))
    (hp : w.promises p = ⟨some i, true, false⟩) :
    EStateM.run (onReady ⟨p, f⟩) w = .ok () (kept w p i (.exception x)) := by
  simp [onReady, hs, Promise.run_set _ hp, kept]

theorem run_onReady_value (hs : w.source = .done (.value v)) :
    EStateM.run (onReady ⟨p, f⟩) w =
      EStateM.run (tryCatch (do let r ← apply f v; setReply p r)
        fun x => Promise.set p (.exception x)) w := by
  simp [onReady, hs]

theorem run_apply :
    EStateM.run (apply f v) w =
      match f v with
      | .plain u => .ok (.inl u) (counted w)
      | .throws x => .error x (counted w)
      | .future g => .ok (.inr g) (counted w) := by
  cases hf : f v <;> simp [apply, hf, counted]

theorem run_onReady_plain {u : U} (hs : w.source = .done (.value v))
    (hp : w.promises p = ⟨some i, true, false⟩) (hf : f v = .plain u) :
    EStateM.run (onReady ⟨p, f⟩) w = .ok () (kept (counted w) p i (.value u)) := by
  have hp' : (counted w).promises p = ⟨some i, true, false⟩ := hp
  rw [run_onReady_value hs]
  simp [run_apply, hf, setReply, Promise.run_set _ hp', kept]

theorem run_onReady_throws {x : Exc E} (hs : w.source = .done (.value v))
    (hp : w.promises p = ⟨some i, true, false⟩) (hf : f v = .throws x) :
    EStateM.run (onReady ⟨p, f⟩) w = .ok () (kept (counted w) p i (.exception x)) := by
  have hp' : (counted w).promises p = ⟨some i, true, false⟩ := hp
  rw [run_onReady_value hs]
  simp [run_apply, hf, Promise.run_set _ hp', kept]

theorem run_onReady_readyValue {g : Future U E} {u : U} (hs : w.source = .done (.value v))
    (hp : w.promises p = ⟨some i, true, false⟩) (hf : f v = .future g)
    (hg : w.stateOf g = .done (.value u)) :
    EStateM.run (onReady ⟨p, f⟩) w = .ok () (kept (counted w) p i (.value u)) := by
  have hp' : (counted w).promises p = ⟨some i, true, false⟩ := hp
  have hg' : (counted w).stateOf g = .done (.value u) := by cases g <;> exact hg
  rw [run_onReady_value hs]
  simp [run_apply, hf, setReply, Promise.run_setFuture_value hp' hg', kept]

/-- The promise refuses the exception in the handler, since its flag is set. -/
theorem run_maybeCallback_readyException {g : Future U E} {x : Exc E}
    (hcb : w.callback = some ⟨p, f⟩) (hs : w.source = .done (.value v))
    (hp : w.promises p = ⟨some i, true, false⟩) (hf : f v = .future g)
    (hg : w.stateOf g = .done (.exception x)) :
    EStateM.run maybeCallback w =
      .error .invalidPromise ((counted w).setPromise p ⟨none, true, true⟩) := by
  have hp' : (counted w).promises p = ⟨some i, true, false⟩ := hp
  have hg' : (counted w).stateOf g = .done (.exception x) := by cases g <;> exact hg
  have hmoved : ((counted w).setPromise p ⟨none, true, true⟩).promises p = ⟨none, true, true⟩ := by
    simp [FutureWorld.setPromise]
  have hagain := Promise.run_set_again (w := (counted w).setPromise p ⟨none, true, true⟩)
    (.exception x) (by rw [hmoved])
  have hdestroy := Promise.run_destroy_ready hmoved (o := .exception x) (by simp)
  rw [run_maybeCallback hcb]
  simp [run_onReady_value hs, run_apply, hf, setReply, Promise.run_setFuture_exception hp' hg',
    hagain, hdestroy]

/-- The lambda's promise now stands for the inner state and breaks it when it is
destroyed; its own state is left as it is. -/
theorem run_maybeCallback_pending {j : Nat} (hcb : w.callback = some ⟨p, f⟩)
    (hs : w.source = .done (.value v)) (hp : w.promises p = ⟨some i, true, false⟩)
    (hf : f v = .future (.shared j)) (hj : w.stateOf (.shared j) = .unfulfilled) :
    EStateM.run maybeCallback w =
      .ok () (((counted w).setPromise p ⟨some j, true, true⟩).setCell j
        (.done (.exception .brokenPromise))) := by
  have hp' : (counted w).promises p = ⟨some i, true, false⟩ := hp
  have hj' : (counted w).stateOf (.shared j) = .unfulfilled := hj
  have hdestroy := Promise.run_destroy_pending
    (w := (counted w).setPromise p ⟨some j, true, true⟩) (p := p) (j := j)
    (by simp [FutureWorld.setPromise]) hj'
  rw [run_maybeCallback hcb]
  simp [run_onReady_value hs, run_apply, hf, setReply, Promise.run_setFuture_pending hp' hj', hdestroy]

end Future

namespace Scene

/-- The outcome is a value for which the continuation returns a future that is
not ready with a value. -/
def Diverts (s : Scene T U E) : Prop :=
  ∃ v g, s.outcome = .value v ∧ s.k v = .future g ∧ ∀ u, s.start.stateOf g ≠ .done (.value u)

/-- `p` is set and its future has the continuation attached. -/
def fired (s : Scene T U E) : FutureWorld T U E where
  valueSet := true
  source := .done s.outcome
  callback := some ⟨1, s.k⟩
  cells := Function.update s.cells s.nextCell .unfulfilled
  nextCell := s.nextCell + 1
  promises := Function.update (fun _ => ⟨some s.inner, true, false⟩) 1 ⟨some s.nextCell, true, false⟩
  nextPromise := 2
  calls := 0

theorem nextCell_ne_inner (s : Scene T U E) : s.nextCell ≠ s.inner := Nat.ne_of_gt s.inner_alloc

theorem fired_promise (s : Scene T U E) : s.fired.promises 1 = ⟨some s.nextCell, true, false⟩ := by
  simp [fired]

theorem fired_stateOf {s : Scene T U E} {v : T} {g : Future U E} (hk : s.k v = .future g) :
    s.fired.stateOf g = s.start.stateOf g := by
  cases g with
  | localState o => rfl
  | shared i =>
    have hne : i ≠ s.nextCell := Nat.ne_of_lt (s.k_alloc v i hk)
    simp [fired, start, FutureWorld.stateOf, hne]

theorem run_finish {s : Scene T U E} {w : FutureWorld T U E} (r : Future U E) (x : Option (Exc E))
    (hp : w.promises 0 = ⟨some s.inner, true, false⟩) :
    EStateM.run' (s.finish r x) w =
      some ⟨(w.setCell s.inner (.done s.later)).stateOf r, w.calls, x⟩ := by
  have hset := Promise.run_set s.later hp
  simp only [finish, Throwing.run'_eq, EStateM.run_bind, hset, EStateM.run_get, EStateM.run_pure]
  cases r <;> rfl

/-- `p.set` is the callback's run, and what escapes from it. -/
theorem thenFirst_eq (s : Scene T U E) :
    s.thenFirst =
      match EStateM.run Future.maybeCallback s.fired with
      | .ok _ w => EStateM.run' (s.finish (.shared s.nextCell) none) w
      | .error x w => EStateM.run' (s.finish (.shared s.nextCell) (some x)) w := by
  simp only [fired, thenFirst, Future.andThen, Future.makePromise, bind_pure_comp, bind_assoc,
    bind_map_left, setP, Future.set, map_bind, start, Throwing.run'_eq, EStateM.run_get,
    EStateM.run_modify, Nat.reduceAdd, Throwing.run_tryCatch, EStateM.run_bind, Bool.false_eq_true,
    if_false, Throwing.run_map, EStateM.run_pure]
  cases EStateM.run Future.maybeCallback _ <;> simp

theorem thenFirst_returns {s : Scene T U E} {w : FutureWorld T U E}
    (h : EStateM.run Future.maybeCallback s.fired = .ok () w)
    (hp : w.promises 0 = ⟨some s.inner, true, false⟩) :
    s.thenFirst = some ⟨w.cells s.nextCell, w.calls, none⟩ := by
  rw [thenFirst_eq, h]
  simp only [run_finish _ _ hp]
  simp [FutureWorld.stateOf, FutureWorld.setCell, s.nextCell_ne_inner]

theorem thenFirst_escapes {s : Scene T U E} {w : FutureWorld T U E} {x : Exc E}
    (h : EStateM.run Future.maybeCallback s.fired = .error x w)
    (hp : w.promises 0 = ⟨some s.inner, true, false⟩) :
    s.thenFirst = some ⟨w.cells s.nextCell, w.calls, some x⟩ := by
  rw [thenFirst_eq, h]
  simp only [run_finish _ _ hp]
  simp [FutureWorld.stateOf, FutureWorld.setCell, s.nextCell_ne_inner]

/-- The callback kept its promise. -/
theorem thenFirst_kept {s : Scene T U E} {w : FutureWorld T U E} {o : Outcome U E}
    (h : EStateM.run (Future.onReady ⟨1, s.k⟩) s.fired = .ok () (Future.kept w 1 s.nextCell o))
    (hp : w.promises 0 = ⟨some s.inner, true, false⟩) :
    s.thenFirst = some ⟨.done o, w.calls, none⟩ := by
  have hcb := Future.run_maybeCallback_kept rfl h
  have hp' : (Future.kept w 1 s.nextCell o).promises 0 = ⟨some s.inner, true, false⟩ := by
    simpa [Future.kept, FutureWorld.setPromise, FutureWorld.setCell] using hp
  rw [thenFirst_returns hcb hp']
  simp [Future.kept, FutureWorld.setPromise, FutureWorld.setCell]

/-- With the outcome there, `then` hands on the future that it makes. -/
theorem setFirst_eq {s : Scene T U E} {r : Future U E} {n : Nat}
    (h : EStateM.run (Future.setContinuation s.k s.outcome)
      { s.start with valueSet := true, source := .done s.outcome } =
        .ok r { s.start with valueSet := true, source := .done s.outcome, calls := n }) :
    s.setFirst = some ⟨(s.start.setCell s.inner (.done s.later)).stateOf r, n, none⟩ := by
  have hrun : s.setFirst = EStateM.run' (s.finish r none)
      { s.start with valueSet := true, source := .done s.outcome, calls := n } := by
    simp only [start] at h
    simp [setFirst, Throwing.run'_eq, Future.andThen, setP, Future.set, start, Future.maybeCallback, h]
  rw [hrun, run_finish _ _ rfl]
  cases r <;> rfl

theorem inner_stateOf_done {s : Scene T U E} {g : Future U E} {o : Outcome U E}
    (hg : s.start.stateOf g = .done o) :
    (s.start.setCell s.inner (.done s.later)).stateOf g = .done o := by
  cases g with
  | localState o' => exact hg
  | shared i =>
    have hne : i ≠ s.inner := by
      rintro rfl
      simp [FutureWorld.stateOf, start, s.inner_pending] at hg
    simpa [FutureWorld.stateOf, FutureWorld.setCell, hne] using hg

theorem agree_exception {s : Scene T U E} {x : Exc E} (ho : s.outcome = .exception x) : s.Agree := by
  have hthen := thenFirst_kept
    (Future.run_onReady_exception (w := s.fired) (x := x) (by simp [fired, ho]) s.fired_promise)
    (by simp [fired])
  have hset := setFirst_eq (s := s) (r := .localState (.exception x)) (n := 0)
    (by simp [ho, Future.setContinuation, start])
  exact ⟨_, hthen, hset, rfl⟩

theorem agree_plain {s : Scene T U E} {v : T} {u : U} (ho : s.outcome = .value v)
    (hk : s.k v = .plain u) : s.Agree := by
  have hthen := thenFirst_kept
    (Future.run_onReady_plain (w := s.fired) (by simp [fired, ho]) s.fired_promise hk)
    (by simp [fired, Future.counted])
  have hset := setFirst_eq (s := s) (r := .localState (.value u)) (n := 1)
    (by simp [ho, Future.setContinuation, Future.run_apply, hk, Future.counted, start])
  exact ⟨_, hthen, hset, rfl⟩

theorem agree_throws {s : Scene T U E} {v : T} {x : Exc E} (ho : s.outcome = .value v)
    (hk : s.k v = .throws x) : s.Agree := by
  have hthen := thenFirst_kept
    (Future.run_onReady_throws (w := s.fired) (by simp [fired, ho]) s.fired_promise hk)
    (by simp [fired, Future.counted])
  have hset := setFirst_eq (s := s) (r := .localState (.exception x)) (n := 1)
    (by simp [ho, Future.setContinuation, Future.run_apply, hk, Future.counted, start])
  exact ⟨_, hthen, hset, rfl⟩

theorem setFirst_future {s : Scene T U E} {v : T} {g : Future U E} (ho : s.outcome = .value v)
    (hk : s.k v = .future g) :
    s.setFirst = some ⟨(s.start.setCell s.inner (.done s.later)).stateOf g, 1, none⟩ :=
  setFirst_eq (by simp [ho, Future.setContinuation, Future.run_apply, hk, Future.counted, start])

theorem agree_readyValue {s : Scene T U E} {v : T} {g : Future U E} {u : U}
    (ho : s.outcome = .value v) (hk : s.k v = .future g) (hg : s.start.stateOf g = .done (.value u)) :
    s.Agree := by
  have hthen := thenFirst_kept
    (Future.run_onReady_readyValue (w := s.fired) (by simp [fired, ho]) s.fired_promise hk
      (by rw [fired_stateOf hk, hg])) (by simp [fired, Future.counted])
  have hset := setFirst_future ho hk
  rw [inner_stateOf_done hg] at hset
  exact ⟨_, hthen, hset, rfl⟩

theorem thenFirst_readyException {s : Scene T U E} {v : T} {g : Future U E} {x : Exc E}
    (ho : s.outcome = .value v) (hk : s.k v = .future g)
    (hg : s.start.stateOf g = .done (.exception x)) :
    s.thenFirst = some ⟨.unfulfilled, 1, some .invalidPromise⟩ := by
  have hrun := Future.run_maybeCallback_readyException (w := s.fired) rfl (by simp [fired, ho])
    s.fired_promise hk (by rw [fired_stateOf hk, hg])
  rw [thenFirst_escapes hrun (by simp [fired, Future.counted, FutureWorld.setPromise])]
  simp [fired, Future.counted, FutureWorld.setPromise]

theorem thenFirst_pending {s : Scene T U E} {v : T} {j : Nat} (ho : s.outcome = .value v)
    (hk : s.k v = .future (.shared j)) (hj : s.start.stateOf (.shared j) = .unfulfilled) :
    s.thenFirst = some ⟨.unfulfilled, 1, none⟩ := by
  have hne : s.nextCell ≠ j := Nat.ne_of_gt (s.k_alloc v j hk)
  have hrun := Future.run_maybeCallback_pending (w := s.fired) rfl (by simp [fired, ho])
    s.fired_promise hk (by rw [fired_stateOf hk, hj])
  rw [thenFirst_returns hrun
    (by simp [fired, Future.counted, FutureWorld.setPromise, FutureWorld.setCell])]
  simp [fired, Future.counted, FutureWorld.setPromise, FutureWorld.setCell, hne]

/-- Attaching the continuation before or after `p` is set makes no difference
exactly when the continuation does not return a future that is still pending or
holds an exception. -/
theorem then_order_agree_iff (s : Scene T U E) : s.Agree ↔ ¬ s.Diverts := by
  cases ho : s.outcome with
  | exception x =>
    refine iff_of_true (agree_exception ho) ?_
    rintro ⟨v, g, hv, -⟩
    simp [ho] at hv
  | value v =>
    have hdiv : ∀ {r}, s.k v = r → (∀ g, r ≠ .future g) → ¬ s.Diverts := by
      rintro r hr hne ⟨v', g, hv, hk, -⟩
      rw [ho] at hv
      cases Outcome.value.inj hv
      exact hne g (hr.symm.trans hk)
    cases hk : s.k v with
    | plain u => exact iff_of_true (agree_plain ho hk) (hdiv hk (by simp))
    | throws x => exact iff_of_true (agree_throws ho hk) (hdiv hk (by simp))
    | future g =>
      cases hg : s.start.stateOf g with
      | done o =>
        cases o with
        | value u =>
          refine iff_of_true (agree_readyValue ho hk hg) ?_
          rintro ⟨v', g', hv, hk', hnot⟩
          rw [ho] at hv
          cases Outcome.value.inj hv
          rw [hk] at hk'
          cases Reply.future.inj hk'
          exact hnot u hg
        | exception x =>
          refine iff_of_false ?_ (not_not.mpr ⟨v, g, ho, hk, by simp [hg]⟩)
          rintro ⟨obs, hthen, -, hesc⟩
          rw [thenFirst_readyException ho hk hg] at hthen
          cases Option.some.inj hthen
          simp at hesc
      | unfulfilled =>
        refine iff_of_false ?_ (not_not.mpr ⟨v, g, ho, hk, by simp [hg]⟩)
        rintro ⟨obs, hthen, hset, -⟩
        cases g with
        | localState o => simp [FutureWorld.stateOf] at hg
        | shared j =>
          have hj : j = s.inner := s.k_completed v j hk hg
          rw [thenFirst_pending ho hk hg] at hthen
          rw [setFirst_future ho hk, ← hthen] at hset
          simp [FutureWorld.stateOf, FutureWorld.setCell, hj] at hset

/-- A continuation of `p` that answers with the future `g`; cell 0 is pending. -/
def answering (g : Future Nat Nat) (h : ∀ i, g = .shared i → i = 0) : Scene Nat Nat Nat where
  cells := fun _ => .unfulfilled
  nextCell := 1
  inner := 0
  outcome := .value 42
  k := fun _ => .future g
  later := .value 7
  inner_alloc := Nat.zero_lt_one
  inner_pending := rfl
  k_alloc := fun _ i hi => by
    rw [h i (Reply.future.inj hi)]
    exact Nat.zero_lt_one
  k_completed := fun _ i hi _ => h i (Reply.future.inj hi)

def answeringException : Scene Nat Nat Nat :=
  answering (.localState (.exception (.user 5))) (fun _ h => nomatch h)

def answeringPending : Scene Nat Nat Nat := answering (.shared 0) (fun _ h => (Future.shared.inj h).symm)

/-- A ready exceptional future: attached first, the exception is lost and
`invalid_promise_exception` escapes. A pending one: attached first, its value
never arrives. -/
theorem then_order_matters :
    answeringException.thenFirst = some ⟨.unfulfilled, 1, some .invalidPromise⟩ ∧
      answeringException.setFirst = some ⟨.done (.exception (.user 5)), 1, none⟩ ∧
      answeringPending.thenFirst = some ⟨.unfulfilled, 1, none⟩ ∧
      answeringPending.setFirst = some ⟨.done (.value 7), 1, none⟩ ∧
      ¬ ∀ s : Scene Nat Nat Nat, s.Agree := by
  refine ⟨by decide, by decide, by decide, by decide, ?_⟩
  intro h
  obtain ⟨o, hthen, hset, -⟩ := h answeringPending
  have heq := hthen.trans hset.symm
  exact absurd heq (by decide)

end Scene

end XiRuntime
