import Mathlib.Data.List.Count
import Mathlib.Logic.Function.Basic
import XiRuntime.Runs

namespace XiRuntime

/-- The values of `event_state` that handlers are armed with. -/
def kRead : UInt16 := 1
def kWrite : UInt16 := 2

def epollin : UInt32 := 0x001
def epollout : UInt32 := 0x004
def epollrdhup : UInt32 := 0x2000

def eventStateToShort (state : UInt16) : UInt32 :=
  (if state &&& kRead ≠ 0 then epollin else 0) ||| (if state &&& kWrite ≠ 0 then epollout else 0) |||
    epollrdhup

/-- `epoll::event`. -/
structure EpollEvent where
  state : UInt16
  isActive : Bool
deriving DecidableEq, Repr

/-- An `event_handler` in the `_handlers` of a reactor. `serial` tells it from others that had
its address before; `socket` is the descriptor that it closes when it is destroyed, if it has
not closed it or given it away. -/
structure EventHandler where
  serial : Nat
  descriptor : Nat
  socket : Option Nat
  event : EpollEvent
deriving DecidableEq, Repr

/-- The `_handlers` of a reactor by address, what its epoll descriptor watches, the rest of the
events of the last `epoll_wait`, and the deferred tasks of `cancel`. -/
structure Reactor where
  handlers : Nat → Option EventHandler
  interest : Nat → Option (Nat × UInt32)
  batch : List (Nat × UInt32)
  deferred : List (Nat × Nat)
  created : Nat

namespace Reactor

def initial : Reactor := ⟨fun _ => none, fun _ => none, [], [], 0⟩

/-- `epoll_ctl`; `none` is the exception it throws. -/
def epollAdd (r : Reactor) (fd address : Nat) (flags : UInt32) : Option Reactor :=
  if (r.interest fd).isSome then none
  else some { r with interest := Function.update r.interest fd (some (address, flags)) }

def epollMod (r : Reactor) (fd address : Nat) (flags : UInt32) : Option Reactor :=
  if (r.interest fd).isSome then
    some { r with interest := Function.update r.interest fd (some (address, flags)) }
  else none

def epollDel (r : Reactor) (fd : Nat) : Option Reactor :=
  if (r.interest fd).isSome then some { r with interest := Function.update r.interest fd none }
  else none

def put (r : Reactor) (address : Nat) (h : Option EventHandler) : Reactor :=
  { r with handlers := Function.update r.handlers address h }

/-- Epoll stops watching a descriptor that is closed. -/
def closeSocket (r : Reactor) : Option Nat → Reactor
  | none => r
  | some fd => { r with interest := Function.update r.interest fd none }

/-- A handler is erased, and nothing else owns it. -/
def destroy (r : Reactor) (address : Nat) (h : EventHandler) : Reactor :=
  (r.closeSocket h.socket).put address none

/-- A new handler with a socket, or again one that is attached, and the event that is created
for it. -/
def attaching (r : Reactor) (address fd : Nat) (state : UInt16) : EventHandler :=
  match r.handlers address with
  | some h => { h with event := ⟨state, false⟩ }
  | none => ⟨r.created, fd, some fd, ⟨state, false⟩⟩

/-- `attach_handler`. When the event cannot be armed, the handler is erased. -/
def attach (r : Reactor) (address fd : Nat) (state : UInt16) : Reactor :=
  let h := r.attaching address fd state
  let r := { r.put address (some h) with created := r.created + 1 }
  match r.epollAdd h.descriptor address (eventStateToShort state) with
  | some r => r.put address (some { h with event := ⟨state, true⟩ })
  | none => r.destroy address h

/-- `event_handler::cancel`. An exception of `epoll_ctl` leaves everything as it was; `none` is
a call of a destroyed handler, here and below. -/
def cancel (r : Reactor) (address : Nat) : Option Reactor := do
  let h ← r.handlers address
  if h.event.isActive then
    match r.epollDel h.descriptor with
    | none => some r
    | some r =>
      some { r.put address (some { h with event := ⟨h.event.state, false⟩ }) with
        deferred := r.deferred ++ [(address, h.serial)] }
  else some r

/-- `change_state`, with the bits that `expect_read` or `expect_write` adds or removes. The new
state stays when `epoll_ctl` throws. -/
def changeState (r : Reactor) (address : Nat) (change : UInt16 → UInt16) : Option Reactor := do
  let h ← r.handlers address
  let e : EpollEvent := ⟨change h.event.state, h.event.isActive⟩
  let r := r.put address (some { h with event := e })
  some ((r.epollMod h.descriptor address (eventStateToShort e.state)).getD r)

/-- `socket::close` by the handler itself. -/
def close (r : Reactor) (address : Nat) : Option Reactor := do
  let h ← r.handlers address
  some ((r.closeSocket h.socket).put address (some { h with socket := none }))

/-- The descriptor is given away: `_descriptor = -1`. -/
def handOver (r : Reactor) (address : Nat) : Option Reactor := do
  let h ← r.handlers address
  some (r.put address (some { h with socket := none }))

/-- `dispatch_events`: for each descriptor that is ready the address its event was armed with. -/
def poll (r : Reactor) (ready : List (Nat × UInt32)) : Reactor :=
  { r with batch := ready.filterMap fun e => (r.interest e.1).map fun i => (i.1, e.2) }

/-- `event_callback`. What the handler does is up to it, and taken for the steps behind. -/
def dispatch (r : Reactor) : Option Reactor :=
  match r.batch with
  | [] => some r
  | e :: rest => if (r.handlers e.1).isSome then some { r with batch := rest } else none

/-- The task of `cancel`: `lock` finds the handler if it is still the same one, and then nothing
else owns it. -/
def runTask (r : Reactor) : Reactor :=
  match r.deferred with
  | [] => r
  | t :: rest =>
    match r.handlers t.1 with
    | none => { r with deferred := rest }
    | some h =>
      if h.serial = t.2 then { r.destroy t.1 h with deferred := rest }
      else { r with deferred := rest }

inductive Action
  | attach (address fd : Nat) (state : UInt16)
  | cancel (address : Nat)
  | expect (address : Nat) (state : UInt16) (flag : Bool)
  | close (address : Nat)
  | handOver (address : Nat)
  | poll (ready : List (Nat × UInt32))
  | dispatch
  | task
deriving DecidableEq, Repr

/-- Pollers and tasks take turns, so neither a poll nor a task comes between the events of one
batch. -/
def step (r : Reactor) : Action → Option Reactor
  | .attach address fd state => some (r.attach address fd state)
  | .cancel address => r.cancel address
  | .expect address state flag =>
    r.changeState address fun old => if flag then old ||| state else old &&& ~~~state
  | .close address => r.close address
  | .handOver address => r.handOver address
  | .poll ready => if r.batch = [] then some (r.poll ready) else some r
  | .dispatch => r.dispatch
  | .task => if r.batch = [] then some r.runTask else some r

def run (acts : List Action) : Option Reactor := acts.foldlM step initial

/-- How often the task of `cancel` waits for a handler. -/
def releases (e : EpollEvent) : Nat := if e.isActive then 0 else 1

/-- The handlers of a batch are there, epoll watches the descriptors of the handlers that were
not cancelled, for what these expect, and a handler that was cancelled is released by one task. -/
structure Good (r : Reactor) : Prop where
  batch : ∀ e ∈ r.batch, (r.handlers e.1).isSome = true
  interest : ∀ fd address flags, r.interest fd = some (address, flags) ↔
    ∃ h, r.handlers address = some h ∧ h.descriptor = fd ∧ h.event.isActive = true ∧
      flags = eventStateToShort h.event.state
  pending : ∀ address h, r.handlers address = some h →
    r.deferred.count (address, h.serial) = releases h.event

/-- Serials are given out once. -/
structure Bounded (r : Reactor) : Prop where
  serial : ∀ address h, r.handlers address = some h → h.serial < r.created
  deferred : ∀ t ∈ r.deferred, t.2 < r.created

structure Sound (r : Reactor) : Prop extends Good r, Bounded r

theorem sound_initial : Sound initial := by
  refine ⟨⟨?_, ?_, ?_⟩, ?_, ?_⟩ <;> simp [initial]

variable {r : Reactor} {address : Nat} {h : EventHandler}

theorem Sound.armed (s : Sound r) (here : r.handlers address = some h)
    (active : h.event.isActive = true) :
    r.interest h.descriptor = some (address, eventStateToShort h.event.state) :=
  (s.interest _ _ _).mpr ⟨h, here, rfl, active, rfl⟩

/-- What epoll watches for a handler with this event. -/
def watched (address : Nat) (e : EpollEvent) : Option (Nat × UInt32) :=
  if e.isActive then some (address, eventStateToShort e.state) else none

/-- The descriptor of an armed handler is watched for no other one. -/
theorem Sound.own (s : Sound r) (here : r.handlers address = some h)
    (active : h.event.isActive = true) {other : Nat} {flags : UInt32}
    (watches : r.interest h.descriptor = some (other, flags)) : other = address := by
  rw [s.armed here active] at watches
  exact (Prod.mk.inj (Option.some.inj watches)).1.symm

theorem attach_unwatched {fd : Nat} {state : UInt16}
    (unwatched : r.interest (r.attaching address fd state).descriptor = none) :
    r.attach address fd state =
      ⟨Function.update r.handlers address
          (some { r.attaching address fd state with event := ⟨state, true⟩ }),
        Function.update r.interest (r.attaching address fd state).descriptor
          (watched address ⟨state, true⟩), r.batch, r.deferred, r.created + 1⟩ := by
  simp [attach, epollAdd, put, unwatched, watched]

theorem attach_watched {fd : Nat} {state : UInt16} {watch : Nat × UInt32}
    (watches : r.interest (r.attaching address fd state).descriptor = some watch) :
    r.attach address fd state =
      ⟨Function.update r.handlers address none,
        (r.closeSocket (r.attaching address fd state).socket).interest, r.batch, r.deferred,
        r.created + 1⟩ := by
  cases owned : (r.attaching address fd state).socket with
  | none => simp [attach, epollAdd, put, watches, destroy, closeSocket, owned]
  | some d => simp [attach, epollAdd, put, watches, destroy, closeSocket, owned]

/-- Handlers and tasks that come have serials that were given out. -/
theorem Bounded.put (b : Bounded r) (new : Option EventHandler) {created : Nat}
    (more : r.created ≤ created) (serial : ∀ h, new = some h → h.serial < created)
    {interest : Nat → Option (Nat × UInt32)} {batch : List (Nat × UInt32)}
    {deferred : List (Nat × Nat)} (queue : ∀ t ∈ deferred, t ∈ r.deferred ∨ t.2 < created) :
    Bounded ⟨Function.update r.handlers address new, interest, batch, deferred, created⟩ := by
  constructor
  · intro other h there
    have there : Function.update r.handlers address new other = some h := there
    by_cases now : other = address
    · rw [now, Function.update_self] at there
      exact serial h there
    · rw [Function.update_of_ne now] at there
      exact Nat.lt_of_lt_of_le (b.serial other h there) more
  · intro t ht
    rcases queue t ht with old | new
    · exact Nat.lt_of_lt_of_le (b.deferred t old) more
    · exact new

theorem Bounded.attach (b : Bounded r) (address fd : Nat) (state : UInt16) :
    Bounded (r.attach address fd state) := by
  have serial : (r.attaching address fd state).serial < r.created + 1 := by
    unfold attaching
    split
    next h here => exact Nat.lt_succ_of_lt (b.serial address h here)
    next => exact Nat.lt_succ_self _
  cases watches : r.interest (r.attaching address fd state).descriptor with
  | none =>
    rw [attach_unwatched watches]
    refine b.put _ (Nat.le_succ _) ?_ fun t ht => Or.inl ht
    rintro h ⟨⟩
    exact serial
  | some watch =>
    rw [attach_watched watches]
    exact b.put none (Nat.le_succ _) (by simp) fun t ht => Or.inl ht

theorem Bounded.destroy (b : Bounded r) (address : Nat) (h : EventHandler)
    {deferred : List (Nat × Nat)} (queue : ∀ t ∈ deferred, t ∈ r.deferred) :
    Bounded { r.destroy address h with deferred := deferred } := by
  unfold Reactor.destroy
  cases h.socket with
  | none => exact b.put none (Nat.le_refl _) (by simp) fun t ht => Or.inl (queue t ht)
  | some fd => exact b.put none (Nat.le_refl _) (by simp) fun t ht => Or.inl (queue t ht)

/-- The handler at an address stays the same one. -/
theorem Bounded.renew (b : Bounded r) (here : r.handlers address = some h) {socket : Option Nat}
    {e : EpollEvent} {interest : Nat → Option (Nat × UInt32)} {batch : List (Nat × UInt32)}
    {deferred : List (Nat × Nat)} (queue : ∀ t ∈ deferred, t ∈ r.deferred ∨ t.2 < r.created) :
    Bounded ⟨Function.update r.handlers address (some ⟨h.serial, h.descriptor, socket, e⟩),
      interest, batch, deferred, r.created⟩ := by
  refine b.put _ (Nat.le_refl _) ?_ queue
  rintro h' ⟨⟩
  exact b.serial address h here

theorem Bounded.epollMod (b : Bounded r) (fd address : Nat) (flags : UInt32) :
    Bounded ((r.epollMod fd address flags).getD r) := by
  unfold Reactor.epollMod
  split
  next => exact ⟨b.serial, b.deferred⟩
  next => exact b

theorem Bounded.cancel (b : Bounded r) {r' : Reactor} (done : r.cancel address = some r') : Bounded r' := by
  obtain ⟨h, here, done⟩ := Option.bind_eq_some_iff.mp done
  split at done
  next =>
    unfold epollDel at done
    split at done
    next =>
      cases done
      exact b
    next r₁ deleted =>
      split at deleted
      next =>
        cases deleted
        cases done
        refine b.renew here ?_
        intro t ht
        rcases List.mem_append.mp ht with old | new
        · exact Or.inl old
        · rw [List.mem_singleton.mp new]
          exact Or.inr (b.serial address h here)
      next => cases deleted
  next =>
    cases done
    exact b

theorem Bounded.runTask (b : Bounded r) : Bounded r.runTask := by
  unfold Reactor.runTask
  split
  next => exact b
  next t rest queue =>
    have less : ∀ t' ∈ rest, t' ∈ r.deferred := by
      intro t' ht
      rw [queue]
      exact List.mem_cons_of_mem t ht
    split
    next => exact ⟨b.serial, fun t' ht => b.deferred t' (less t' ht)⟩
    next h here =>
      split
      next => exact b.destroy t.1 h less
      next => exact ⟨b.serial, fun t' ht => b.deferred t' (less t' ht)⟩

theorem Bounded.step (b : Bounded r) {a : Action} {r' : Reactor} (done : r.step a = some r') :
    Bounded r' := by
  cases a with
  | attach address fd state =>
    cases done
    exact b.attach address fd state
  | cancel address =>
    exact b.cancel done
  | expect address state flag =>
    obtain ⟨h, here, done⟩ := Option.bind_eq_some_iff.mp done
    cases done
    refine Bounded.epollMod ?_ _ _ _
    exact b.renew here fun t ht => Or.inl ht
  | close address =>
    obtain ⟨h, here, done⟩ := Option.bind_eq_some_iff.mp done
    cases done
    cases h.socket with
    | none => exact b.renew here fun t ht => Or.inl ht
    | some fd => exact b.renew here fun t ht => Or.inl ht
  | handOver address =>
    obtain ⟨h, here, done⟩ := Option.bind_eq_some_iff.mp done
    cases done
    exact b.renew here fun t ht => Or.inl ht
  | poll ready =>
    simp only [Reactor.step] at done
    split at done
    next =>
      cases done
      exact ⟨b.serial, b.deferred⟩
    next =>
      cases done
      exact b
  | dispatch =>
    simp only [Reactor.step, Reactor.dispatch] at done
    split at done
    next =>
      cases done
      exact b
    next =>
      split at done
      next =>
        cases done
        exact ⟨b.serial, b.deferred⟩
      next => cases done
  | task =>
    simp only [Reactor.step] at done
    split at done
    next =>
      cases done
      exact b.runTask
    next =>
      cases done
      exact b

/-- A pipe for the descriptor of a `connecting_socket`, made in the `handle_write` of that before
it cancels itself: neither is left, the pipe destroyed and the descriptor closed. -/
example : (run [.attach 1 5 kWrite, .poll [(5, epollout)], .dispatch, .attach 2 5 kRead]).map
    (fun r => (r.interest 5, r.handlers 1, r.handlers 2)) =
      some (none, some ⟨0, 5, some 5, ⟨kWrite, true⟩⟩, none) := by decide

end Reactor

end XiRuntime
