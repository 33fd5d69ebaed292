import Mathlib.Data.List.Basic
import Mathlib.Logic.Relation

namespace XiRuntime

variable {Message : Type}

/-- What a filter context is to its pipe: an address and the messages it has a `read_link`
and a `write_link` for. -/
structure Filter (Message : Type) where
  address : Nat
  reads : Message → Bool
  writes : Message → Bool

/-- A filter context with its `_next_read` and `_next_write`. -/
structure Context (Message : Type) where
  filter : Filter Message
  nextRead : Message → Option Nat
  nextWrite : Message → Option Nat

namespace Context

def new (f : Filter Message) : Context Message := ⟨f, fun _ => none, fun _ => none⟩

def addReadIfNull (cx other : Context Message) : Context Message :=
  { cx with nextRead := fun m =>
      if cx.filter.reads m && other.filter.reads m && (cx.nextRead m).isNone then
        some other.filter.address
      else cx.nextRead m }

def addWriteIfNull (cx other : Context Message) : Context Message :=
  { cx with nextWrite := fun m =>
      if cx.filter.writes m && other.filter.writes m && (cx.nextWrite m).isNone then
        some other.filter.address
      else cx.nextWrite m }

/-- `unlink_read` and `unlink_write` of a context with the address `gone`, whose own links
are `read` and `write`. -/
def unlink (gone : Nat) (read write : Message → Option Nat) (cx : Context Message) :
    Context Message :=
  { cx with
    nextRead := fun m => if cx.nextRead m = some gone then read m else cx.nextRead m
    nextWrite := fun m => if cx.nextWrite m = some gone then write m else cx.nextWrite m }

end Context

/-- A pipe that can `read` and `write` some messages, and the removals that are deferred. A
message the pipe cannot read has no `_head`, and one it cannot write no `_tail`. -/
structure Pipe (Message : Type) where
  reads : Message → Bool
  writes : Message → Bool
  contexts : List (Context Message)
  head : Message → Option Nat
  tail : Message → Option Nat
  deferred : List Nat

namespace Pipe

def new (reads writes : Message → Bool) : Pipe Message :=
  ⟨reads, writes, [], fun _ => none, fun _ => none, []⟩

def maybeUpdateHead (p : Pipe Message) (f : Filter Message) : Pipe Message :=
  { p with
    head := fun m => if p.reads m && f.reads m then some f.address else p.head m
    tail := fun m =>
      if p.writes m && (p.tail m).isNone && f.writes m then some f.address else p.tail m }

def maybeUpdateTail (p : Pipe Message) (f : Filter Message) : Pipe Message :=
  { p with
    tail := fun m => if p.writes m && f.writes m then some f.address else p.tail m
    head := fun m =>
      if p.reads m && (p.head m).isNone && f.reads m then some f.address else p.head m }

/-- `pipe_base::push_front`; the new context only gets write links and the old ones only
read links. -/
def linkFront (contexts : List (Context Message)) (cx : Context Message) : List (Context Message) :=
  contexts.foldl Context.addWriteIfNull cx :: contexts.map (·.addReadIfNull cx)

/-- `pipe_base::push_back`. -/
def linkBack (contexts : List (Context Message)) (cx : Context Message) : List (Context Message) :=
  contexts.map (·.addReadIfNull cx) ++ [contexts.reverse.foldl Context.addWriteIfNull cx]

def pushFront (p : Pipe Message) (f : Filter Message) : Pipe Message :=
  { p with contexts := linkFront p.contexts (.new f) }.maybeUpdateHead f

def pushBack (p : Pipe Message) (f : Filter Message) : Pipe Message :=
  { p with contexts := linkBack p.contexts (.new f) }.maybeUpdateTail f

def find (p : Pipe Message) (address : Nat) : Option (Context Message) :=
  p.contexts.find? (·.filter.address = address)

/-- `maybe_change_head`, `maybe_change_tail` and the deferral of
`pipe_control_interface::remove`. -/
def remove (p : Pipe Message) (address : Nat) : Pipe Message :=
  { p with
    head := fun m =>
      if p.head m = some address then (p.find address).bind (·.nextRead m) else p.head m
    tail := fun m =>
      if p.tail m = some address then (p.find address).bind (·.nextWrite m) else p.tail m
    deferred := p.deferred ++ [address] }

/-- `pipe_base::remove`. -/
def unlinkAndErase (p : Pipe Message) (address : Nat) : Pipe Message :=
  let read := fun m => (p.find address).bind (·.nextRead m)
  let write := fun m => (p.find address).bind (·.nextWrite m)
  let unlinked := p.contexts.map (Context.unlink address read write)
  { p with contexts := unlinked.filter (·.filter.address ≠ address) }

/-- The next deferred removal is run. -/
def runDeferred (p : Pipe Message) : Pipe Message :=
  match p.deferred with
  | [] => p
  | address :: rest => { p with deferred := rest }.unlinkAndErase address

/-- The pipe that `push_back` of the filters builds. -/
def build (reads writes : Message → Bool) (filters : List (Filter Message)) : Pipe Message :=
  filters.foldl pushBack (new reads writes)

/-- `forward_read` goes from one context to the other. -/
def ForwardsRead (p : Pipe Message) (m : Message) (a b : Nat) : Prop :=
  ∃ cx ∈ p.contexts, cx.filter.address = a ∧ cx.nextRead m = some b

def ForwardsWrite (p : Pipe Message) (m : Message) (a b : Nat) : Prop :=
  ∃ cx ∈ p.contexts, cx.filter.address = a ∧ cx.nextWrite m = some b

end Pipe

/-- The address of the first filter that is able. -/
def nearest (able : Filter Message → Bool) (filters : List (Filter Message)) : Option Nat :=
  (filters.find? able).map Filter.address

/-- The context of a filter with those before and those after it: `forward_read` goes to the
nearest later reader and `forward_write` to the nearest earlier writer. -/
def selectedContext (before : List (Filter Message)) (f : Filter Message)
    (after : List (Filter Message)) : Context Message where
  filter := f
  nextRead m := if f.reads m then nearest (·.reads m) after else none
  nextWrite m := if f.writes m then nearest (·.writes m) before.reverse else none

/-- The contexts of a part of the pipe. -/
def selected (before : List (Filter Message)) :
    List (Filter Message) → List (Filter Message) → List (Context Message)
  | [], _ => []
  | f :: part, after => selectedContext before f (part ++ after) :: selected (before ++ [f]) part after

/-- In-order selection by capability. -/
def selection (reads writes : Message → Bool) (filters : List (Filter Message)) : Pipe Message where
  reads := reads
  writes := writes
  contexts := selected [] filters []
  head m := if reads m then nearest (·.reads m) filters else none
  tail m := if writes m then nearest (·.writes m) filters.reverse else none
  deferred := []

theorem nearest_append (able : Filter Message → Bool) (fs gs : List (Filter Message)) :
    nearest able (fs ++ gs) = (nearest able fs).or (nearest able gs) := by
  unfold nearest
  rw [List.find?_append]
  cases fs.find? able <;> rfl

theorem nearest_cons (able : Filter Message → Bool) (f : Filter Message)
    (fs : List (Filter Message)) :
    nearest able (f :: fs) = if able f then some f.address else nearest able fs := by
  unfold nearest
  rw [List.find?_cons]
  cases able f <;> rfl

theorem nearest_none {able : Filter Message → Bool} {fs : List (Filter Message)}
    (h : ∀ f ∈ fs, able f = false) : nearest able fs = none := by
  unfold nearest
  rw [List.find?_eq_none.mpr (fun f hf => by simp [h f hf])]
  rfl

theorem nearest_ne_none {able : Filter Message → Bool} {fs : List (Filter Message)}
    {f : Filter Message} (hf : f ∈ fs) (h : able f = true) : nearest able fs ≠ none := by
  unfold nearest
  intro none
  exact List.find?_eq_none.mp (Option.map_eq_none_iff.mp none) f hf h

theorem nearest_mem {able : Filter Message → Bool} {fs : List (Filter Message)} {a : Nat}
    (h : nearest able fs = some a) : ∃ f ∈ fs, f.address = a := by
  obtain ⟨f, found, rfl⟩ := Option.map_eq_some_iff.mp h
  exact ⟨f, List.mem_of_find?_eq_some found, rfl⟩

theorem selected_append (before part part' after : List (Filter Message)) :
    selected before (part ++ part') after =
      selected before part (part' ++ after) ++ selected (before ++ part) part' after := by
  induction part generalizing before with
  | nil => simp [selected]
  | cons f part ih => simp [selected, ih, List.append_assoc]

theorem selected_filters (before part after : List (Filter Message)) :
    (selected before part after).map Context.filter = part := by
  induction part generalizing before with
  | nil => rfl
  | cons f part ih => simp [selected, selectedContext, ih]

end XiRuntime
