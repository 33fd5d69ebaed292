import XiRuntime.Slots

namespace XiRuntime

namespace Guard

/-- The tagged pointer of a guard: `raw` has the bit `USE_FREE`. -/
inductive Ptr
  | null
  | raw (r : Nat)
  | impl (n : Nat)
deriving DecidableEq, Repr

/-- What a `void*` points to. -/
inductive Address
  | object (r : Nat)
  | impl (n : Nat)
deriving DecidableEq, Repr

/-- `tagged_ptr::get`. -/
def Ptr.get : Ptr → Option Address
  | .null => none
  | .raw r => some (.object r)
  | .impl n => some (.impl n)

/-- The classes derived from `guard::impl`: `object_guard_impl<T>`, `free_guard_impl` and
the `object_guard_impl<guard>` of `append`. -/
inductive Payload
  | object (r : Nat)
  | free (obj : Address)
  | guard (p : Ptr)
deriving DecidableEq, Repr

/-- `refs` counts guards, each of them eight bytes of memory, so an `u64` does not wrap. -/
structure Impl where
  refs : Nat
  next : Ptr
  payload : Payload
deriving DecidableEq, Repr

def Payload.pointers : Payload → List Ptr
  | .guard p => [p]
  | _ => []

def Payload.resources : Payload → List Nat
  | .object r | .free (.object r) => [r]
  | _ => []

def Impl.pointers (i : Impl) : List Ptr := i.payload.pointers ++ [i.next]

/-- The guards of the program and the heap. A resource is numbered when its guard is made,
`released` lists the release actions that ran, and `freedImpls` the memory of an `impl`
that was passed to `free`. -/
structure State where
  guards : Slots Ptr
  impls : Slots Impl
  resources : Nat
  released : List Nat
  freedImpls : List Nat
deriving DecidableEq, Repr

namespace State

def initial : State := ⟨.empty, .empty, 0, [], []⟩

def setGuard (s : State) (a : Nat) (p : Ptr) : State := { s with guards := s.guards.set a (some p) }

def addGuard (s : State) (p : Ptr) : State := { s with guards := s.guards.add p }

def dropGuard (s : State) (a : Nat) : State := { s with guards := s.guards.set a none }

def setImpl (s : State) (n : Nat) (i : Impl) : State := { s with impls := s.impls.set n (some i) }

def newImpl (s : State) (i : Impl) : State := { s with impls := s.impls.add i }

def dropImpl (s : State) (n : Nat) : State := { s with impls := s.impls.set n none }

/-- A release action, or `free` of what is no resource. -/
def release (s : State) : Address → State
  | .object r => { s with released := s.released ++ [r] }
  | .impl n => { s with freedImpls := s.freedImpls ++ [n] }

/-- The derived part of `~impl`. -/
def dispose (s : State) : Payload → State
  | .object r => s.release (.object r)
  | .free obj => s.release obj
  | .guard _ => s

/-- `~guard` of the pointers in turn. An `impl` that goes away leaves its payload and its
`next` to be destroyed. `none` is the use of a deleted `impl`, or no fuel. -/
def destroyLoop : Nat → State → List Ptr → Option State
  | _, s, [] => some s
  | 0, _, _ :: _ => none
  | fuel + 1, s, .null :: ps => destroyLoop fuel s ps
  | fuel + 1, s, .raw r :: ps => destroyLoop fuel (s.release (.object r)) ps
  | fuel + 1, s, .impl n :: ps =>
    match s.impls.get n with
    | none => none
    | some i =>
      if i.refs = 1 then
        destroyLoop fuel ((s.dropImpl n).dispose i.payload) (i.pointers ++ ps)
      else destroyLoop fuel (s.setImpl n { i with refs := i.refs - 1 }) ps

def destroyPtr (s : State) (p : Ptr) : Option State := destroyLoop (2 * s.impls.next + 2) s [p]

def shareImpl (s : State) (n : Nat) : Option State := do
  let i ← s.impls.get n
  some ((s.setImpl n { i with refs := i.refs + 1 }).addGuard (.impl n))

/-- `guard::share`. -/
def share (s : State) (a : Nat) : Option State := do
  match ← s.guards.get a with
  | .null => some (s.addGuard .null)
  | .raw r =>
    let upgraded := (s.newImpl ⟨1, .null, .free (.object r)⟩).setGuard a (.impl s.impls.next)
    upgraded.shareImpl s.impls.next
  | .impl n => s.shareImpl n

/-- A guard that `append` walks through: one of the program, or the `next` of an `impl`. -/
inductive Loc
  | guard (a : Nat)
  | next (n : Nat)
deriving DecidableEq, Repr

def read (s : State) : Loc → Option Ptr
  | .guard a => s.guards.get a
  | .next n => (s.impls.get n).map Impl.next

def write (s : State) (l : Loc) (p : Ptr) : State :=
  match l with
  | .guard a => s.setGuard a p
  | .next n =>
    match s.impls.get n with
    | none => s
    | some i => s.setImpl n { i with next := p }

/-- The loop of `guard::append` of `this = a`, at the guard `l`. `none` is the failed
assertion, the use of a deleted `impl`, or no fuel. -/
def appendLoop (a : Nat) (g : Ptr) : Nat → State → Loc → Option State
  | 0, _, _ => none
  | fuel + 1, s, l => do
    let p ← s.read l
    if p = .null then some (s.write l g)
    else if p = g then none
    else
      match p with
      | .null => none
      | .raw _ =>
        -- the source takes `_impl.get()` of `this` here, not of `next`
        let this ← s.guards.get a
        let obj ← this.get
        appendLoop a g fuel ((s.newImpl ⟨1, .null, .free obj⟩).write l (.impl s.impls.next))
          (.next s.impls.next)
      | .impl n => do
        let i ← s.impls.get n
        if i.refs = 1 then appendLoop a g fuel s (.next n)
        else
          let taken := s.setImpl n { i with next := .null }
          appendLoop a g fuel
            ((taken.newImpl ⟨1, i.next, .guard (.impl n)⟩).write l (.impl s.impls.next))
            (.next s.impls.next)

/-- `a.append(move(b))`. -/
def append (s : State) (a b : Nat) : Option State := do
  let _ ← s.guards.get a
  let g ← s.guards.get b
  let s := s.setGuard b .null
  if g = .null then some s else appendLoop a g (s.impls.next + 2) s (.guard a)

/-- `a = move(b)`. -/
def assign (s : State) (a b : Nat) : Option State := do
  let p ← s.guards.get a
  let q ← s.guards.get b
  if a = b then some s
  else
    let s ← (s.setGuard a .null).destroyPtr p
    some ((s.setGuard b .null).setGuard a q)

inductive Op
  | makeEmpty
  | makeSimple
  | makeObject
  | share (a : Nat)
  | moveNew (a : Nat)
  | assign (a b : Nat)
  | append (a b : Nat)
  | destroy (a : Nat)
deriving DecidableEq, Repr

def step (s : State) : Op → Option State
  | .makeEmpty => some (s.addGuard .null)
  | .makeSimple => some { s.addGuard (.raw s.resources) with resources := s.resources + 1 }
  | .makeObject =>
    some { (s.newImpl ⟨1, .null, .object s.resources⟩).addGuard (.impl s.impls.next) with
      resources := s.resources + 1 }
  | .share a => s.share a
  | .moveNew a => do
    let p ← s.guards.get a
    some ((s.setGuard a .null).addGuard p)
  | .assign a b => s.assign a b
  | .append a b => s.append a b
  | .destroy a => do
    let p ← s.guards.get a
    (s.dropGuard a).destroyPtr p

def run (ops : List Op) : Option State := ops.foldlM step initial

/-- The `next` pointers from `p` lead over the impls `ns` and end in `e`. -/
inductive Chain (s : State) : Ptr → List Nat → Ptr → Prop
  | null : Chain s .null [] .null
  | raw (r : Nat) : Chain s (.raw r) [] (.raw r)
  | impl {n : Nat} {i : Impl} {ns : List Nat} {e : Ptr} :
      s.impls.get n = some i → Chain s i.next ns e → Chain s (.impl n) (n :: ns) e

/-- A resource that a guard would release, directly or through its chain. -/
inductive Reaches (s : State) : Ptr → Nat → Prop
  | raw (r : Nat) : Reaches s (.raw r) r
  | payload {n r : Nat} {i : Impl} :
      s.impls.get n = some i → r ∈ i.payload.resources → Reaches s (.impl n) r
  | pointer {n r : Nat} {i : Impl} {p : Ptr} :
      s.impls.get n = some i → p ∈ i.pointers → Reaches s p r → Reaches s (.impl n) r

/-- The guards of the call are there, and `append` joins distinct chains. -/
def Admits (s : State) : Op → Prop
  | .makeEmpty | .makeSimple | .makeObject => True
  | .share a | .moveNew a | .destroy a => (s.guards.get a).isSome
  | .assign a b => (s.guards.get a).isSome ∧ (s.guards.get b).isSome
  | .append a b => (s.guards.get a).isSome ∧ (s.guards.get b).isSome ∧
    ∀ p ns e n, a ≠ b → s.guards.get a = some p → Chain s p ns e → n ∈ ns →
      s.guards.get b ≠ some (.impl n)

/-- A guard is appended to a chain that ends, after an `impl`, in a tagged pointer. -/
def FreesImpl (s : State) : Op → Prop
  | .append a b => a ≠ b ∧ s.guards.get b ≠ some .null ∧
    ∃ n ns r, s.guards.get a = some (.impl n) ∧ Chain s (.impl n) ns (.raw r)
  | _ => False

end State

end Guard

end XiRuntime
