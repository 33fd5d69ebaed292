import Mathlib.Logic.Function.Basic
import Mathlib.Data.List.Basic

namespace XiRuntime

/-- `buffer<T, Size>`; `size` is passed to its operations. -/
structure ChannelBuffer (T : Type) where
  queue : Nat → T
  head : Nat
  tail : Nat

namespace ChannelBuffer

variable {T : Type}

def nextIdx (size cur : Nat) : Nat := (cur + 1) % size

/-- Under the lock of the bus the exchange succeeds at once. The value goes to the
index behind the old tail. -/
def push (size : Nat) (b : ChannelBuffer T) (v : T) : Option (ChannelBuffer T) :=
  if size = 0 then none
  else if nextIdx size b.tail = b.head then none
  else some { b with
    queue := Function.update b.queue (nextIdx size b.tail) v
    tail := nextIdx size b.tail }

/-- The value comes from the index of the old head. -/
def pop (size : Nat) (b : ChannelBuffer T) : Option (T × ChannelBuffer T) :=
  if size = 0 then none
  else if b.tail = b.head then none
  else some (b.queue b.head, { b with head := nextIdx size b.head })

/-- How many values are inside, and how many more will be accepted. -/
def count (size : Nat) (b : ChannelBuffer T) : Nat := (b.tail + size - b.head) % size

def free (size : Nat) (b : ChannelBuffer T) : Nat := size - 1 - b.count size

def Valid (size : Nat) (b : ChannelBuffer T) : Prop :=
  (b.head < size ∧ b.tail < size) ∨ (size = 0 ∧ b.head = 0 ∧ b.tail = 0)

end ChannelBuffer

/-- `receiver`; the storage is named by the call of `get` that it belongs to. -/
structure Receiver (P : Type) where
  storage : Nat
  process : P
deriving DecidableEq, Repr

/-- Where a task stands: outside the bus; inside `put`, blocked or woken up again;
inside `get`, blocked or woken up. -/
inductive CallStatus (T : Type)
  | running
  | blockedSend (call : Nat) (value : T)
  | sending (call : Nat) (value : T)
  | blockedRecv (call : Nat)
  | resumed (call : Nat)
deriving DecidableEq, Repr

/-- A value written by a `put` into the storage of a `get`. -/
structure Delivery (T : Type) where
  put : Nat
  get : Nat
  value : T
deriving DecidableEq, Repr

/-- What has happened: the calls of `put` with their values, the calls of `get`
in the order in which they blocked, the storages written by a `put` and those
written from the buffer, and the calls that have returned. -/
structure ChannelHistory (T : Type) where
  puts : List (Nat × T)
  blockOrder : List Nat
  delivered : List (Delivery T)
  filled : List (Nat × T)
  putsDone : List Nat
  getsDone : List Nat

namespace ChannelHistory

variable {T : Type} (h : ChannelHistory T)

def empty : ChannelHistory T := ⟨[], [], [], [], [], []⟩

def callPut (c : Nat) (v : T) : ChannelHistory T := { h with puts := h.puts ++ [(c, v)] }
def block (c : Nat) : ChannelHistory T := { h with blockOrder := h.blockOrder ++ [c] }
def deliver (d : Delivery T) : ChannelHistory T := { h with delivered := h.delivered ++ [d] }
def fill (c : Nat) (v : T) : ChannelHistory T := { h with filled := h.filled ++ [(c, v)] }
def putReturns (c : Nat) : ChannelHistory T := { h with putsDone := h.putsDone ++ [c] }
def getReturns (c : Nat) : ChannelHistory T := { h with getsDone := h.getsDone ++ [c] }

end ChannelHistory

/-- A `message_bus<T, Size>` and the tasks that use it. -/
structure MessageBus (P T : Type) where
  blockedSenders : List P
  blockedReceivers : List (Receiver P)
  buffer : ChannelBuffer T
  status : P → CallStatus T
  nextCall : Nat
  history : ChannelHistory T

inductive ChannelAction (P T : Type)
  | put (p : P) (v : T)
  | get (p : P)
  | resume (p : P)
deriving DecidableEq, Repr

namespace MessageBus

variable {P T : Type} [DecidableEq P]

def setStatus (w : MessageBus P T) (p : P) (s : CallStatus T) : MessageBus P T :=
  { w with status := Function.update w.status p s }

/-- `resumable::unblock`. -/
def unblock (w : MessageBus P T) (p : P) : MessageBus P T :=
  match w.status p with
  | .blockedSend c v => w.setStatus p (.sending c v)
  | .blockedRecv c => w.setStatus p (.resumed c)
  | _ => w

/-- A receiver that is filled from the buffer is taken off the queue and not
unblocked. -/
def maybeDeliver (size : Nat) (w : MessageBus P T) (c : Nat) (v : T) : Bool × MessageBus P T :=
  match w.blockedReceivers with
  | [] => (false, w)
  | recv :: rest =>
    match w.buffer.pop size with
    | some (x, b) =>
      (false, { w with
        blockedReceivers := rest, buffer := b, history := w.history.fill recv.storage x })
    | none =>
      let w' := { w with
        blockedReceivers := rest, history := w.history.deliver ⟨c, recv.storage, v⟩ }
      (true, w'.unblock recv.process)

def maybeFill (w : MessageBus P T) : MessageBus P T :=
  match w.blockedSenders with
  | [] => w
  | s :: rest => { w with blockedSenders := rest }.unblock s

def putReturns (w : MessageBus P T) (p : P) (c : Nat) : MessageBus P T :=
  { w with history := w.history.putReturns c }.setStatus p .running

def getReturns (w : MessageBus P T) (p : P) (c : Nat) : MessageBus P T :=
  { w with history := w.history.getReturns c }.setStatus p .running

/-- One pass of the loop in `put`, under the lock. -/
def putSection (size : Nat) (w : MessageBus P T) (p : P) (c : Nat) (v : T) : MessageBus P T :=
  match w.maybeDeliver size c v with
  | (true, w) => w.putReturns p c
  | (false, w) =>
    match w.buffer.push size v with
    | some b => { w with buffer := b }.putReturns p c
    | none => { w with blockedSenders := w.blockedSenders ++ [p] }.setStatus p (.blockedSend c v)

/-- `get`, under the lock. -/
def getSection (size : Nat) (w : MessageBus P T) (p : P) (c : Nat) : MessageBus P T :=
  match w.buffer.pop size with
  | some (x, b) => ({ w with buffer := b, history := w.history.fill c x }.getReturns p c).maybeFill
  | none =>
    let w' := { w with
      blockedReceivers := w.blockedReceivers ++ [(⟨c, p⟩ : Receiver P)], history := w.history.block c }
    (w'.setStatus p (.blockedRecv c)).maybeFill

/-- A task calls `put` or `get`, or goes on after it was unblocked. -/
def step (size : Nat) (w : MessageBus P T) : ChannelAction P T → Option (MessageBus P T)
  | .put p v =>
    match w.status p with
    | .running =>
      let w' := { w with nextCall := w.nextCall + 1, history := w.history.callPut w.nextCall v }
      some (w'.putSection size p w.nextCall v)
    | _ => none
  | .get p =>
    match w.status p with
    | .running => some ({ w with nextCall := w.nextCall + 1 }.getSection size p w.nextCall)
    | _ => none
  | .resume p =>
    match w.status p with
    | .sending c v => some (w.putSection size p c v)
    | .resumed c => some (w.getReturns p c)
    | _ => none

def start (queue : Nat → T) : MessageBus P T where
  blockedSenders := []
  blockedReceivers := []
  buffer := ⟨queue, 0, 0⟩
  status := fun _ => .running
  nextCall := 0
  history := .empty

inductive Reachable (size : Nat) : MessageBus P T → Prop
  | start (queue : Nat → T) : Reachable size (start queue)
  | step {w w' : MessageBus P T} (a : ChannelAction P T) :
      Reachable size w → w.step size a = some w' → Reachable size w'

end MessageBus

namespace ChannelBuffer

variable {T : Type} {size : Nat} {b b' : ChannelBuffer T}

theorem valid_start (queue : Nat → T) : (⟨queue, 0, 0⟩ : ChannelBuffer T).Valid size := by
  rcases Nat.eq_zero_or_pos size with h | h
  · exact Or.inr ⟨h, rfl, rfl⟩
  · exact Or.inl ⟨h, h⟩

/-- The number of values between two indices of the ring. -/
theorem count_eq (h : b.Valid size) :
    b.count size = if b.head ≤ b.tail then b.tail - b.head else b.tail + size - b.head := by
  unfold count
  rcases h with ⟨hh, ht⟩ | ⟨rfl, hh, ht⟩
  · split
    next hle =>
      have heq : b.tail + size - b.head = b.tail - b.head + size := by omega
      rw [heq, Nat.add_mod_right, Nat.mod_eq_of_lt (by omega)]
    next hle => exact Nat.mod_eq_of_lt (by omega)
  · simp [hh, ht]

theorem nextIdx_eq {cur : Nat} (h : cur < size) :
    nextIdx size cur = if cur + 1 = size then 0 else cur + 1 := by
  unfold nextIdx
  split
  next heq => rw [heq, Nat.mod_self]
  next hne => exact Nat.mod_eq_of_lt (by omega)

theorem push_some {v : T} (h : b.Valid size) (hp : b.push size v = some b') :
    b'.Valid size ∧ b'.count size = b.count size + 1 ∧ b'.free size + 1 = b.free size := by
  unfold push at hp
  split at hp
  next => simp at hp
  next hs =>
    split at hp
    next => simp at hp
    next hne =>
      cases Option.some.inj hp
      rcases h with ⟨hh, ht⟩ | ⟨h0, -⟩
      · have hidx := nextIdx_eq ht
        have hlt : nextIdx size b.tail < size := Nat.mod_lt _ (by omega)
        have hcount := count_eq (Or.inl ⟨hh, ht⟩)
        have hcount' := count_eq (b := { b with
          queue := Function.update b.queue (nextIdx size b.tail) v
          tail := nextIdx size b.tail }) (Or.inl ⟨hh, hlt⟩)
        simp only at hcount'
        refine ⟨Or.inl ⟨hh, hlt⟩, ?_⟩
        unfold free
        rw [hcount, hcount']
        split at hidx <;> split_ifs <;> omega
      · exact absurd h0 hs

theorem push_none {v : T} (h : b.Valid size) (hp : b.push size v = none) : b.free size = 0 := by
  unfold free
  unfold push at hp
  split at hp
  next hs => omega
  next hs =>
    split at hp
    next heq =>
      rcases h with ⟨hh, ht⟩ | ⟨h0, -⟩
      · have hidx := nextIdx_eq ht
        have hcount := count_eq (Or.inl ⟨hh, ht⟩)
        rw [hcount]
        split at hidx <;> split_ifs <;> omega
      · exact absurd h0 hs
    next => simp at hp

theorem pop_some {x : T} (h : b.Valid size) (hp : b.pop size = some (x, b')) :
    b'.Valid size ∧ b'.count size + 1 = b.count size ∧ b'.free size = b.free size + 1 := by
  unfold pop at hp
  split at hp
  next => simp at hp
  next hs =>
    split at hp
    next => simp at hp
    next hne =>
      cases Option.some.inj hp
      rcases h with ⟨hh, ht⟩ | ⟨h0, -⟩
      · have hidx := nextIdx_eq hh
        have hlt : nextIdx size b.head < size := Nat.mod_lt _ (by omega)
        have hcount := count_eq (Or.inl ⟨hh, ht⟩)
        have hcount' := count_eq (b := { b with head := nextIdx size b.head }) (Or.inl ⟨hlt, ht⟩)
        simp only at hcount'
        refine ⟨Or.inl ⟨hlt, ht⟩, ?_⟩
        unfold free
        rw [hcount, hcount']
        split at hidx <;> split_ifs <;> omega
      · exact absurd h0 hs

theorem pop_none_iff (h : b.Valid size) : b.pop size = none ↔ b.count size = 0 := by
  unfold pop
  rw [count_eq h]
  rcases h with ⟨hh, ht⟩ | ⟨rfl, hh, ht⟩
  · have hs : size ≠ 0 := by omega
    simp only [hs, if_false]
    split
    next heq => simp [heq]
    next hne =>
      simp only [reduceCtorEq, false_iff]
      split_ifs <;> omega
  · simp [hh, ht]

end ChannelBuffer

end XiRuntime
