import Mathlib.Algebra.Order.Ring.Nat
import Mathlib.Data.List.Induction
import XiRuntime.Channel
import XiRuntime.Runs

namespace XiRuntime

variable {T : Type}

inductive QueueOp (T : Type)
  | push (v : T)
  | pop
deriving DecidableEq, Repr

/-- A queue of bounded capacity that gives its values back in the order they came. -/
structure BoundedFifo (T : Type) where
  waiting : List T
  taken : List T
deriving DecidableEq, Repr

namespace BoundedFifo

def step (capacity : Nat) (f : BoundedFifo T) : QueueOp T → BoundedFifo T
  | .push v => if f.waiting.length < capacity then { f with waiting := f.waiting ++ [v] } else f
  | .pop =>
    match f.waiting with
    | [] => f
    | v :: rest => ⟨rest, f.taken ++ [v]⟩

def run (capacity : Nat) (ops : List (QueueOp T)) : BoundedFifo T :=
  runFrom (step capacity) ⟨[], []⟩ ops

/-- What was taken out stays so. -/
theorem taken_prefix (capacity : Nat) (f : BoundedFifo T) (ops : List (QueueOp T)) :
    f.taken <+: (runFrom (step capacity) f ops).taken := by
  induction ops generalizing f with
  | nil => exact List.prefix_refl _
  | cons op ops ih =>
    have hstep : f.taken <+: (f.step capacity op).taken := by
      cases op with
      | push v =>
        simp only [step]
        split <;> exact List.prefix_refl _
      | pop =>
        simp only [step]
        split
        · exact List.prefix_refl _
        · exact List.prefix_append _ _
    exact hstep.trans (ih _)

end BoundedFifo

/-- A `buffer<T, Size>` with the values that were pushed into it and those that its pops
returned. -/
structure BufferRun (T : Type) where
  buffer : ChannelBuffer T
  pushed : List T
  popped : List T

namespace BufferRun

def step (size : Nat) (s : BufferRun T) : QueueOp T → BufferRun T
  | .push v =>
    match s.buffer.push size v with
    | none => s
    | some b => { s with buffer := b, pushed := s.pushed ++ [v] }
  | .pop =>
    match s.buffer.pop size with
    | none => s
    | some (v, b) => { s with buffer := b, popped := s.popped ++ [v] }

/-- The array begins with `slots` in it. -/
def start (slots : Nat → T) : BufferRun T := ⟨⟨slots, 0, 0⟩, [], []⟩

def run (size : Nat) (slots : Nat → T) (ops : List (QueueOp T)) : BufferRun T :=
  runFrom (step size) (start slots) ops

/-- What was popped is what was pushed, and calls fail just when the buffer is empty or has
`Size - 1` values in it. -/
def Fifo (size : Nat) (s : BufferRun T) : Prop :=
  s.popped = s.pushed.take s.popped.length ∧
    (s.buffer.pop size = none ↔ s.popped.length = s.pushed.length) ∧
    ∀ v, s.buffer.push size v = none ↔ s.pushed.length - s.popped.length = size - 1

/-- Pushed values stand one index behind the one they are popped from: the pops give what
slot 0 held at first, and then the values pushed. -/
structure Shifted (size : Nat) (first : T) (f : BoundedFifo T) (s : BufferRun T) : Prop where
  head : s.buffer.head = s.popped.length % size
  tail : s.buffer.tail = s.pushed.length % size
  le : s.popped.length ≤ s.pushed.length
  room : s.pushed.length < s.popped.length + size
  slots : ∀ k v, s.popped.length ≤ k → (first :: s.pushed)[k]? = some v →
    s.buffer.queue (k % size) = v
  popped : s.popped = (first :: s.pushed).take s.popped.length
  waiting : f.waiting = s.pushed.drop s.popped.length
  taken : f.taken = s.pushed.take s.popped.length

theorem mod_ne {size a b : Nat} (hlt : a < b) (hb : b < a + size) : b % size ≠ a % size := by
  intro heq
  have hdvd : size ∣ b - a := Nat.dvd_of_mod_eq_zero (Nat.sub_mod_eq_zero_of_mod_eq heq)
  have hle := Nat.le_of_dvd (by omega) hdvd
  omega

theorem mod_eq_iff {size a b : Nat} (hle : a ≤ b) (hb : b < a + size) :
    b % size = a % size ↔ a = b := by
  constructor
  · intro heq
    rcases Nat.lt_or_eq_of_le hle with hlt | heq'
    · exact absurd heq (mod_ne hlt hb)
    · exact heq'
  · rintro rfl
    rfl

variable {size : Nat} {first : T} {f : BoundedFifo T} {s : BufferRun T}

theorem Shifted.pop_eq (h : Shifted size first f s) (hsize : 1 ≤ size) :
    s.buffer.pop size =
      if s.popped.length = s.pushed.length then none
      else some (s.buffer.queue (s.popped.length % size),
        { s.buffer with head := (s.popped.length + 1) % size }) := by
  have hempty := mod_eq_iff h.le h.room
  unfold ChannelBuffer.pop
  rw [if_neg (by omega), ChannelBuffer.nextIdx, h.head, h.tail, Nat.mod_add_mod]
  simp only [hempty, h.tail]

theorem Shifted.push_eq (h : Shifted size first f s) (hsize : 1 ≤ size) (v : T) :
    s.buffer.push size v =
      if s.pushed.length - s.popped.length = size - 1 then none
      else some { s.buffer with
        queue := Function.update s.buffer.queue ((s.pushed.length + 1) % size) v
        tail := (s.pushed.length + 1) % size } := by
  have hle := h.le
  have hroom := h.room
  unfold ChannelBuffer.push
  rw [if_neg (by omega), ChannelBuffer.nextIdx, h.head, h.tail, Nat.mod_add_mod]
  by_cases hfull : s.pushed.length + 1 = s.popped.length + size
  · rw [hfull, Nat.add_mod_right, if_pos rfl, if_pos (by omega)]
  · have hne : (s.pushed.length + 1) % size ≠ s.popped.length % size := mod_ne (by omega) (by omega)
    rw [if_neg hne, if_neg (by omega), ← h.head]

theorem shifted_start (hsize : 1 ≤ size) (slots : Nat → T) :
    Shifted size (slots 0) ⟨[], []⟩ (start slots) := by
  refine ⟨?_, ?_, Nat.le_refl _, ?_, ?_, rfl, rfl, rfl⟩
  · simp [start]
  · simp [start]
  · simp only [start, List.length_nil]
    omega
  · intro k v _ hk
    have hzero : k = 0 := by
      have := (List.getElem?_eq_some_iff.mp hk).1
      simp only [start, List.length_singleton] at this
      omega
    subst hzero
    cases hk
    simp [start]

/-- The value goes behind the last one, over a slot that is not needed any more. -/
theorem Shifted.push (h : Shifted size first f s) (hsize : 1 ≤ size) (v : T) :
    Shifted size first (f.step (size - 1) (.push v)) (s.step size (.push v)) := by
  have hle := h.le
  have hroom := h.room
  have hpush := h.push_eq hsize v
  have hwaiting : f.waiting.length = s.pushed.length - s.popped.length := by
    rw [h.waiting, List.length_drop]
  unfold step BoundedFifo.step
  simp only
  by_cases hfull : s.pushed.length - s.popped.length = size - 1
  · rw [if_pos hfull] at hpush
    rw [hpush, if_neg (by omega)]
    exact h
  · rw [if_neg hfull] at hpush
    rw [hpush, if_pos (by omega)]
    refine ⟨h.head, by simp, ?_, ?_, ?_, ?_, ?_, ?_⟩
    · simp only [List.length_append, List.length_singleton]
      omega
    · simp only [List.length_append, List.length_singleton]
      omega
    · intro k w hk hw
      simp only at hk hw ⊢
      rw [← List.cons_append] at hw
      rcases Nat.lt_or_ge k (s.pushed.length + 1) with hlt | hge
      · rw [List.getElem?_append_left (by simpa using hlt)] at hw
        rw [Function.update_of_ne (mod_ne hlt (by omega)).symm]
        exact h.slots k w hk hw
      · rw [List.getElem?_append_right (by simpa using hge)] at hw
        have hlast : k = s.pushed.length + 1 := by
          have := (List.getElem?_eq_some_iff.mp hw).1
          simp only [List.length_cons, List.length_nil] at this
          omega
        subst hlast
        simp only [List.length_cons, Nat.sub_self, List.getElem?_cons_zero, Option.some.injEq] at hw
        rw [Function.update_self, hw]
    · simp only
      rw [← List.cons_append, List.take_append_of_le_length (by simp; omega)]
      exact h.popped
    · simp only
      rw [h.waiting, List.drop_append_of_le_length hle]
    · simp only
      rw [h.taken, List.take_append_of_le_length hle]

theorem Shifted.pop (h : Shifted size first f s) (hsize : 1 ≤ size) :
    Shifted size first (f.step (size - 1) .pop) (s.step size .pop) := by
  have hle := h.le
  have hroom := h.room
  have hpop := h.pop_eq hsize
  unfold step BoundedFifo.step
  simp only
  by_cases hempty : s.popped.length = s.pushed.length
  · rw [if_pos hempty] at hpop
    have hnone : f.waiting = [] := by rw [h.waiting, hempty, List.drop_length]
    rw [hpop, hnone]
    exact h
  · rw [if_neg hempty] at hpop
    have hlt : s.popped.length < s.pushed.length := by omega
    have hwaiting : f.waiting = s.pushed[s.popped.length] :: s.pushed.drop (s.popped.length + 1) := by
      rw [h.waiting, List.drop_eq_getElem_cons hlt]
    have hhere : s.popped.length < (first :: s.pushed).length := by
      rw [List.length_cons]
      omega
    have hvalue : s.buffer.queue (s.popped.length % size) = (first :: s.pushed)[s.popped.length] :=
      h.slots _ _ (Nat.le_refl _) (List.getElem?_eq_getElem hhere)
    have hlength : ∀ v, (s.popped ++ [v]).length = s.popped.length + 1 := by simp
    rw [hpop, hwaiting, hvalue]
    refine ⟨?_, h.tail, ?_, ?_, ?_, ?_, ?_, ?_⟩
    · simp only [hlength]
    · simp only [hlength]
      omega
    · simp only [hlength]
      omega
    · intro k w hk hw
      simp only [hlength] at hk
      exact h.slots k w (by omega) hw
    · simp only [hlength]
      rw [List.take_succ_eq_append_getElem hhere, ← h.popped]
    · simp only [hlength]
    · simp only [hlength]
      rw [h.taken, List.take_succ_eq_append_getElem hlt]

theorem Shifted.step (h : Shifted size first f s) (hsize : 1 ≤ size) (op : QueueOp T) :
    Shifted size first (f.step (size - 1) op) (s.step size op) := by
  cases op with
  | push v => exact h.push hsize v
  | pop => exact h.pop hsize

theorem run_shifted (hsize : 1 ≤ size) (slots : Nat → T) (ops : List (QueueOp T)) :
    Shifted size (slots 0) (BoundedFifo.run (size - 1) ops) (run size slots ops) := by
  induction ops using List.reverseRecOn with
  | nil => exact shifted_start hsize slots
  | append_singleton ops op ih =>
    have hfifo : BoundedFifo.run (size - 1) (ops ++ [op]) =
        (BoundedFifo.run (size - 1) ops).step (size - 1) op := Runs.snoc ops op
    have hrun : run size slots (ops ++ [op]) = (run size slots ops).step size op := Runs.snoc ops op
    rw [hfifo, hrun]
    exact ih.step hsize op

/-- A list behind one more value begins as it does itself as long as it repeats that value. -/
theorem take_cons_eq_take {a : T} {vs : List T} {n : Nat} (h : n ≤ vs.length) :
    (a :: vs).take n = vs.take n ↔ ∀ v ∈ vs.take n, v = a := by
  induction n generalizing a vs with
  | zero => simp
  | succ n ih =>
    cases vs with
    | nil => simp at h
    | cons v vs =>
      have hlen : n ≤ vs.length := by simpa using h
      simp only [List.take_succ_cons, List.cons.injEq, List.mem_cons, forall_eq_or_imp]
      constructor
      · rintro ⟨rfl, htail⟩
        exact ⟨rfl, (ih hlen).mp htail⟩
      · rintro ⟨rfl, htail⟩
        exact ⟨rfl, (ih hlen).mpr htail⟩

theorem Shifted.fifo_iff (h : Shifted size first f s) (hsize : 1 ≤ size) :
    s.Fifo size ↔ ∀ v ∈ f.taken, v = first := by
  have hcalls : (s.buffer.pop size = none ↔ s.popped.length = s.pushed.length) ∧
      ∀ v, s.buffer.push size v = none ↔ s.pushed.length - s.popped.length = size - 1 := by
    refine ⟨?_, fun v => ?_⟩
    · rw [h.pop_eq hsize]
      simp
    · rw [h.push_eq hsize v]
      simp
  have hvalues : s.popped = s.pushed.take s.popped.length ↔ ∀ v ∈ f.taken, v = first := by
    rw [h.taken, ← take_cons_eq_take h.le, ← h.popped]
  unfold Fifo
  rw [hvalues]
  exact ⟨fun hf => hf.1, fun hf => ⟨hf, hcalls⟩⟩

/-- In a run the buffer is a queue of `Size - 1` values exactly when all the values that such
a queue gives back are the one that slot 0 held at first. -/
theorem buffer_fifo_iff (hsize : 1 ≤ size) (slots : Nat → T) (ops : List (QueueOp T)) :
    (∀ n, (run size slots (ops.take n)).Fifo size) ↔
      ∀ v ∈ (BoundedFifo.run (size - 1) ops).taken, v = slots 0 := by
  have hstate := fun n => (run_shifted hsize slots (ops.take n)).fifo_iff hsize
  constructor
  · intro hfifo
    have hlast := (hstate ops.length).mp (hfifo ops.length)
    rw [List.take_length] at hlast
    exact hlast
  · intro hsame n
    refine (hstate n).mpr fun v hv => hsame v ?_
    have hprefix := BoundedFifo.taken_prefix (size - 1) (BoundedFifo.run (size - 1) (ops.take n)) (ops.drop n)
    have hall : runFrom (BoundedFifo.step (size - 1)) (BoundedFifo.run (size - 1) (ops.take n)) (ops.drop n) =
        BoundedFifo.run (size - 1) ops := by
      rw [BoundedFifo.run, runFrom, runFrom, ← List.foldl_append, List.take_append_drop]
      rfl
    rw [hall] at hprefix
    exact hprefix.subset hv

theorem buffer_fifo_of_sevens :
    (BoundedFifo.run 2 [.push 7, .push 7, .pop]).taken = [7] ∧
      ∀ n, (run 3 (fun _ => 7) ([.push 7, .push 7, .pop].take n)).Fifo 3 :=
  ⟨rfl, (buffer_fifo_iff (by decide) (fun _ => 7) [.push 7, .push 7, .pop]).mpr (by decide)⟩

/-- The first value to be popped is what the array began with. -/
theorem buffer_pops_unpushed :
    ¬ ∀ (size : Nat) (slots : Nat → Nat) (ops : List (QueueOp Nat)), 1 ≤ size →
      ∀ n, (run size slots (ops.take n)).Fifo size := by
  intro h
  have hfifo := h 2 (fun _ => 0) [.push 7, .pop] (by decide) 2
  exact absurd hfifo.1 (by decide)

end BufferRun

end XiRuntime
