import Mathlib.Algebra.Order.Ring.Nat
import Mathlib.Data.List.Pairwise
import XiRuntime.Runs

namespace XiRuntime

/-- What happens to messages: `reply` is the call of `_reply`, the others are the two
handlers and the destructor. -/
inductive BusEvent
  | processRequest (m : Nat)
  | reply (m : Nat)
  | processReply (m : Nat)
  | delete (m : Nat)
deriving DecidableEq, Repr

namespace BusEvent

def request? : BusEvent → Option Nat
  | .processRequest m => some m
  | _ => none

def reply? : BusEvent → Option Nat
  | .processReply m => some m
  | _ => none

def delete? : BusEvent → Option Nat
  | .delete m => some m
  | _ => none

end BusEvent

structure WorkQueue where
  backlog : List Nat
  messages : List Nat
  messageCount : Nat
deriving DecidableEq, Repr

/-- `core::message_bus`. Messages are owned, so that each `submit` has one of its own:
they are numbered in the order in which they are submitted. -/
structure CoreMessageBus where
  pending : WorkQueue
  complete : WorkQueue
  submitted : Nat
  events : List BusEvent
deriving DecidableEq, Repr

inductive BusAction
  | submit
  | processPending
  | processComplete
deriving DecidableEq, Repr

def queueCapacity : Nat := 128

def queueBatch : Nat := 16

/-- `messages.push(begin, end)` takes as many as there is room for. -/
def WorkQueue.flushBacklog (w : WorkQueue) : WorkQueue × Nat :=
  let queueRoom := (queueCapacity + 2 ^ 64 - w.messageCount) % 2 ^ 64
  let moveCount := min queueRoom w.backlog.length
  if moveCount = 0 then (w, 0)
  else
    ({ backlog := w.backlog.drop moveCount
       messages := w.messages ++ (w.backlog.take moveCount).take (queueCapacity - w.messages.length)
       messageCount := (w.messageCount + moveCount) % 2 ^ 64 }, moveCount)

/-- The end of `submit` and of `_reply`. -/
def WorkQueue.add (w : WorkQueue) (m : Nat) : WorkQueue :=
  let w := { w with backlog := w.backlog ++ [m] }
  if w.backlog.length ≥ queueBatch then w.flushBacklog.1 else w

namespace CoreMessageBus

def log (b : CoreMessageBus) (e : BusEvent) : CoreMessageBus := { b with events := b.events ++ [e] }

def reply (b : CoreMessageBus) (m : Nat) : CoreMessageBus :=
  { b.log (.reply m) with complete := b.complete.add m }

/-- The queue that is passed is not looked at. -/
def processQueue (b : CoreMessageBus) (_q : List Nat) (f : CoreMessageBus → Nat → CoreMessageBus) :
    CoreMessageBus × Nat :=
  let items := b.pending.messages.take queueCapacity
  let pending := { b.pending with messages := b.pending.messages.drop queueCapacity }
  (items.foldl f { b with pending := pending }, items.length)

def processPending (b : CoreMessageBus) : CoreMessageBus × Nat :=
  let b := { b with pending := b.pending.flushBacklog.1 }
  b.processQueue b.pending.messages (fun b m => (b.log (.processRequest m)).reply m)

def processComplete (b : CoreMessageBus) : CoreMessageBus × Nat :=
  let b := { b with complete := b.complete.flushBacklog.1 }
  b.processQueue b.complete.messages (fun b m => (b.log (.processReply m)).log (.delete m))

def submit (b : CoreMessageBus) : CoreMessageBus :=
  { b with pending := b.pending.add b.submitted, submitted := b.submitted + 1 }

def step (b : CoreMessageBus) : BusAction → CoreMessageBus
  | .submit => b.submit
  | .processPending => b.processPending.1
  | .processComplete => b.processComplete.1

def start : CoreMessageBus := ⟨⟨[], [], 0⟩, ⟨[], [], 0⟩, 0, []⟩

def run (acts : List BusAction) : CoreMessageBus := runFrom step start acts

def requests (b : CoreMessageBus) : List Nat := b.events.filterMap BusEvent.request?

def replies (b : CoreMessageBus) : List Nat := b.events.filterMap BusEvent.reply?

def deletes (b : CoreMessageBus) : List Nat := b.events.filterMap BusEvent.delete?

/-- Each message is handled at most once in each direction, replies come behind the
request they answer, and requests are run in the order of submission. -/
structure Proper (b : CoreMessageBus) : Prop where
  requests_once : b.requests.Nodup
  replies_once : b.replies.Nodup
  deletes_once : b.deletes.Nodup
  answered : ∀ before m after, b.events = before ++ .processReply m :: after →
    .processRequest m ∈ before ∧ .reply m ∈ before
  in_order : b.requests.Pairwise (· < ·)

end CoreMessageBus

/-- What is in the ring never exceeds the count, which is never lowered. -/
def WorkQueue.Bounded (w : WorkQueue) : Prop :=
  w.messages.length ≤ w.messageCount ∧ w.messageCount ≤ queueCapacity

def WorkQueue.line (w : WorkQueue) : List Nat := w.messages ++ w.backlog

namespace WorkQueue

/-- The ring has room for all that the count leaves room for. -/
theorem flushBacklog_eq {w : WorkQueue} (h : w.Bounded) :
    let moveCount := min (queueCapacity - w.messageCount) w.backlog.length
    w.flushBacklog =
      ({ backlog := w.backlog.drop moveCount
         messages := w.messages ++ w.backlog.take moveCount
         messageCount := w.messageCount + moveCount }, moveCount) := by
  intro moveCount
  obtain ⟨hlen, hcount⟩ := h
  have capacity : queueCapacity = 128 := rfl
  have room : (queueCapacity + 2 ^ 64 - w.messageCount) % 2 ^ 64 = queueCapacity - w.messageCount := by
    omega
  unfold flushBacklog
  simp only [room]
  split
  next none =>
    rw [show moveCount = 0 from none]
    simp
  next =>
    have fits : (w.backlog.take moveCount).length ≤ queueCapacity - w.messages.length := by
      rw [List.length_take]
      omega
    have small : (w.messageCount + moveCount) % 2 ^ 64 = w.messageCount + moveCount := by omega
    change (WorkQueue.mk (w.backlog.drop moveCount)
      (w.messages ++ (w.backlog.take moveCount).take (queueCapacity - w.messages.length))
      ((w.messageCount + moveCount) % 2 ^ 64), moveCount) = _
    rw [List.take_of_length_le fits, small]

/-- Everything that leaves the backlog is in the ring. -/
theorem flushBacklog_spec {w : WorkQueue} (h : w.Bounded) :
    w.flushBacklog.1.Bounded ∧ w.flushBacklog.1.line = w.line := by
  rw [flushBacklog_eq h]
  obtain ⟨hlen, hcount⟩ := h
  refine ⟨⟨?_, ?_⟩, ?_⟩
  · simp only [List.length_append, List.length_take]
    omega
  · simp only
    omega
  · simp [line]

theorem add_spec {w : WorkQueue} (h : w.Bounded) (m : Nat) :
    (w.add m).Bounded ∧ (w.add m).line = w.line ++ [m] := by
  have longer : WorkQueue.Bounded { w with backlog := w.backlog ++ [m] } := h
  have line : WorkQueue.line { w with backlog := w.backlog ++ [m] } = w.line ++ [m] := by
    simp [WorkQueue.line]
  unfold add
  simp only
  split
  next =>
    obtain ⟨bounded, same⟩ := flushBacklog_spec longer
    exact ⟨bounded, same.trans line⟩
  next => exact ⟨longer, line⟩

end WorkQueue

namespace CoreMessageBus

/-- The messages whose request is still to be run stand in line behind those whose
request was run. -/
structure Sound (b : CoreMessageBus) : Prop where
  pending : b.pending.Bounded
  complete : b.complete.Bounded
  ordered : (b.requests ++ b.pending.line).Pairwise (· < ·)
  submitted : ∀ m ∈ b.requests ++ b.pending.line, m < b.submitted

theorem foldl_request (items : List Nat) {b : CoreMessageBus} (h : b.complete.Bounded) :
    ∃ complete, complete.Bounded ∧
      items.foldl (fun b m => (b.log (.processRequest m)).reply m) b =
        { b with
          complete := complete
          events := b.events ++ items.flatMap (fun m => [.processRequest m, .reply m]) } := by
  induction items generalizing b with
  | nil => exact ⟨b.complete, h, by simp⟩
  | cons m items ih =>
    have next : ((b.log (.processRequest m)).reply m).complete.Bounded := (WorkQueue.add_spec h m).1
    obtain ⟨complete, bounded, eq⟩ := ih next
    exact ⟨complete, bounded, by rw [List.foldl_cons, eq]; simp [log, reply]⟩

theorem foldl_reply (items : List Nat) (b : CoreMessageBus) :
    items.foldl (fun b m => (b.log (.processReply m)).log (.delete m)) b =
      { b with events := b.events ++ items.flatMap (fun m => [.processReply m, .delete m]) } := by
  induction items generalizing b with
  | nil => simp
  | cons m items ih =>
    rw [List.foldl_cons, ih]
    simp [log]

theorem filterMap_request (items : List Nat) :
    (items.flatMap (fun m => [BusEvent.processRequest m, .reply m])).filterMap BusEvent.request? = items := by
  induction items with
  | nil => rfl
  | cons m items ih => simp [List.filterMap_cons, BusEvent.request?, ih]

theorem take_messages {w : WorkQueue} (h : w.Bounded) :
    w.messages.take queueCapacity = w.messages ∧ w.messages.drop queueCapacity = [] := by
  have short := h.1.trans h.2
  exact ⟨List.take_of_length_le short, List.drop_of_length_le short⟩

/-- `process_pending` runs the requests of the whole ring. -/
theorem processPending_eq {b : CoreMessageBus} (h : b.Sound) :
    ∃ complete, complete.Bounded ∧
      b.processPending.1 =
        { b with
          pending := { b.pending.flushBacklog.1 with messages := [] }
          complete := complete
          events := b.events ++
            b.pending.flushBacklog.1.messages.flatMap (fun m => [.processRequest m, .reply m]) } := by
  have short := take_messages (WorkQueue.flushBacklog_spec h.pending).1
  unfold processPending processQueue
  simp only [short.1, short.2]
  exact foldl_request _ h.complete

/-- So does `process_complete`, but it runs replies. -/
theorem processComplete_eq {b : CoreMessageBus} (h : b.Sound) :
    b.processComplete.1 =
      { b with
        pending := { b.pending with messages := [] }
        complete := b.complete.flushBacklog.1
        events := b.events ++ b.pending.messages.flatMap (fun m => [.processReply m, .delete m]) } := by
  have short := take_messages h.pending
  unfold processComplete processQueue
  simp only [short.1, short.2]
  exact foldl_reply _ _

theorem filterMap_request_of_replies (items : List Nat) :
    (items.flatMap (fun m => [BusEvent.processReply m, .delete m])).filterMap BusEvent.request? = [] := by
  induction items with
  | nil => rfl
  | cons m items ih => simp [List.filterMap_cons, BusEvent.request?, ih]

theorem sound_start : start.Sound where
  pending := ⟨Nat.le_refl 0, Nat.zero_le _⟩
  complete := ⟨Nat.le_refl 0, Nat.zero_le _⟩
  ordered := List.Pairwise.nil
  submitted := by simp [start, requests, WorkQueue.line]

theorem Sound.submit {b : CoreMessageBus} (h : b.Sound) : b.submit.Sound := by
  obtain ⟨bounded, line⟩ := WorkQueue.add_spec h.pending b.submitted
  have all : b.submit.requests ++ b.submit.pending.line =
      (b.requests ++ b.pending.line) ++ [b.submitted] := by
    rw [List.append_assoc, ← line]
    rfl
  refine ⟨bounded, h.complete, ?_, ?_⟩
  · rw [all]
    refine List.pairwise_append.mpr ⟨h.ordered, List.pairwise_singleton _ _, ?_⟩
    intro m hm n hn
    rw [List.mem_singleton.mp hn]
    exact h.submitted m hm
  · intro m hm
    rw [all] at hm
    rcases List.mem_append.mp hm with hm | hm
    · exact Nat.lt_succ_of_lt (h.submitted m hm)
    · rw [List.mem_singleton.mp hm]
      exact Nat.lt_succ_self _

theorem Sound.processPending {b : CoreMessageBus} (h : b.Sound) : b.processPending.1.Sound := by
  obtain ⟨complete, bounded, eq⟩ := processPending_eq h
  obtain ⟨flushed, line⟩ := WorkQueue.flushBacklog_spec h.pending
  have all : b.processPending.1.requests ++ b.processPending.1.pending.line =
      b.requests ++ b.pending.line := by
    rw [eq, ← line]
    simp [requests, filterMap_request, WorkQueue.line]
  rw [eq] at all ⊢
  refine ⟨⟨Nat.zero_le _, flushed.2⟩, bounded, ?_, ?_⟩
  · rw [all]
    exact h.ordered
  · rw [all]
    exact h.submitted

theorem Sound.processComplete {b : CoreMessageBus} (h : b.Sound) : b.processComplete.1.Sound := by
  have less : (b.processComplete.1.requests ++ b.processComplete.1.pending.line).Sublist
      (b.requests ++ b.pending.line) := by
    rw [processComplete_eq h]
    simp [requests, filterMap_request_of_replies, WorkQueue.line]
  rw [processComplete_eq h] at less ⊢
  exact ⟨⟨Nat.zero_le _, h.pending.2⟩, (WorkQueue.flushBacklog_spec h.complete).1,
    h.ordered.sublist less, fun m hm => h.submitted m (less.subset hm)⟩

theorem Sound.step {b : CoreMessageBus} (h : b.Sound) (a : BusAction) : (b.step a).Sound := by
  cases a with
  | submit => exact h.submit
  | processPending => exact h.processPending
  | processComplete => exact h.processComplete

theorem run_sound (acts : List BusAction) (n : Nat) : (run (acts.take n)).Sound :=
  Runs.invariant sound_start (fun _ a _ h => h.step a) n

/-- The next call is a `process_complete` that finds requests in the ring. -/
def Misroutes (b : CoreMessageBus) (a : BusAction) : Prop :=
  a = .processComplete ∧ b.pending.messages ≠ []

def Silent (b : CoreMessageBus) : Prop := b.replies = [] ∧ b.deletes = []

theorem filterMap_of_requests (items : List Nat) :
    (items.flatMap (fun m => [BusEvent.processRequest m, .reply m])).filterMap BusEvent.reply? = [] ∧
      (items.flatMap (fun m => [BusEvent.processRequest m, .reply m])).filterMap BusEvent.delete? = [] := by
  induction items with
  | nil => exact ⟨rfl, rfl⟩
  | cons m items ih => simp [List.filterMap_cons, BusEvent.reply?, BusEvent.delete?, ih]

/-- Only `process_complete` runs replies, and only with something in the ring. -/
theorem step_quiet {b : CoreMessageBus} {a : BusAction} (h : b.Sound) (quiet : ¬ b.Misroutes a) :
    (b.step a).replies = b.replies ∧ (b.step a).deletes = b.deletes := by
  cases a with
  | submit => exact ⟨rfl, rfl⟩
  | processPending =>
    obtain ⟨complete, -, eq⟩ := processPending_eq h
    simp [step, eq, replies, deletes, filterMap_of_requests]
  | processComplete =>
    have empty : b.pending.messages = [] := by
      by_contra hne
      exact quiet ⟨rfl, hne⟩
    simp [step, processComplete_eq h, replies, deletes, empty]

theorem proper_of_silent {b : CoreMessageBus} (h : b.Sound) (silent : b.Silent) : b.Proper := by
  have ordered : b.requests.Pairwise (· < ·) := (List.pairwise_append.mp h.ordered).1
  refine ⟨ordered.imp Nat.ne_of_lt, ?_, ?_, ?_, ordered⟩
  · rw [silent.1]
    exact List.nodup_nil
  · rw [silent.2]
    exact List.nodup_nil
  · intro before m after events
    have none := silent.1
    rw [replies, events] at none
    simp [BusEvent.reply?] at none

/-- The oldest request in the ring is answered without having been run. -/
theorem not_proper_of_misroutes {b : CoreMessageBus} {a : BusAction} (h : b.Sound)
    (bad : b.Misroutes a) : ¬ (b.step a).Proper := by
  obtain ⟨rfl, hne⟩ := bad
  obtain ⟨m, rest, messages⟩ := List.exists_cons_of_ne_nil hne
  intro proper
  have events : (b.step .processComplete).events = b.events ++ .processReply m ::
      (.delete m :: rest.flatMap (fun m => [.processReply m, .delete m])) := by
    simp [step, processComplete_eq h, messages]
  have request : m ∈ b.requests :=
    List.mem_filterMap.mpr ⟨_, (proper.answered _ _ _ events).1, rfl⟩
  have line : m ∈ b.pending.line := by simp [WorkQueue.line, messages]
  have self := (List.pairwise_append.mp h.ordered).2.2 m request m line
  exact Nat.lt_irrefl m self

/-- Each message is handled once in each direction exactly as long as no
`process_complete` finds requests in the ring that it takes for its own. -/
theorem message_bus_exactly_once_iff (acts : List BusAction) :
    ((∀ n, (run (acts.take n)).Proper) ∧
      ∀ n a, acts[n]? = some a → a ≠ .processComplete →
        (run (acts.take (n + 1))).replies = (run (acts.take n)).replies) ↔
    ∀ n a, acts[n]? = some a → ¬ (run (acts.take n)).Misroutes a := by
  constructor
  · intro ⟨proper, _⟩ n a ha bad
    have next : run (acts.take (n + 1)) = (run (acts.take n)).step a := Runs.take_succ ha
    exact not_proper_of_misroutes (run_sound acts n) bad (next ▸ proper (n + 1))
  · intro good
    refine ⟨?_, ?_⟩
    · have silent : ∀ n, (run (acts.take n)).Silent := by
        apply Runs.invariant
        · exact ⟨rfl, rfl⟩
        · intro n a ha silent
          have quiet := step_quiet (run_sound acts n) (good n a ha)
          exact ⟨quiet.1.trans silent.1, quiet.2.trans silent.2⟩
      intro n
      exact proper_of_silent (run_sound acts n) (silent n)
    · intro n a ha _
      have next : run (acts.take (n + 1)) = (run (acts.take n)).step a := Runs.take_succ ha
      rw [next]
      exact (step_quiet (run_sound acts n) (good n a ha)).1

/-- Sixteen messages fill a batch, and `process_complete` answers them unread. -/
theorem message_bus_replies_unasked :
    let b := run (List.replicate 16 .submit ++ [.processComplete])
    .processReply 0 ∈ b.events ∧ .processRequest 0 ∉ b.events ∧ ¬ b.Proper := by
  refine ⟨by decide, by decide, ?_⟩
  intro proper
  have answered := proper.answered [] 0 _ rfl
  simp at answered

end CoreMessageBus

end XiRuntime
