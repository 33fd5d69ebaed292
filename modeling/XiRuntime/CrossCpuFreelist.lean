import XiRuntime.LinkChain
import XiRuntime.Runs

namespace XiRuntime

open LinkChain

/-- Where a thread stands in `free_cross_cpu`, behind the look at `live_cpus`. -/
inductive PushPc
  | idle
  | load (p : Nat)
  | store (p : Nat) (old : Option Nat)
  | exchange (p : Nat) (old : Option Nat)
deriving DecidableEq, Repr

/-- The object that a thread has not handed over yet. -/
def PushPc.item : PushPc → Option Nat
  | .idle => none
  | .load p | .store p _ | .exchange p _ => some p

/-- Where the owner of the list stands in `drain_cross_cpu_freelist`. -/
inductive DrainPc
  | idle
  | exchange
  | loop (p : Option Nat)
  | free (p : Nat) (n : Option Nat)
deriving DecidableEq, Repr

/-- `xcpu_freelist` of one cpu. `next` is the first word of every object, read as a
`cross_cpu_free_item`; the last three lists note the calls of `free_cross_cpu` for this cpu, the
calls of `free` in the drain, and the objects that a dead cpu leaks. -/
structure CrossCpuFreelist where
  live : Bool
  next : Nat → Option Nat
  xcpuFreelist : Option Nat
  pushers : Nat → PushPc
  drain : DrainPc
  given : List Nat
  freed : List Nat
  leaked : List Nat

/-- `push` is the next step of a thread, in which a weak exchange may fail for no reason;
`write` is one into an object by whoever uses it. -/
inductive FreelistAction
  | freeCrossCpu (t : Nat) (p : Nat)
  | push (t : Nat) (spurious : Bool)
  | drain
  | destroy
  | write (x : Nat) (v : Option Nat)
deriving DecidableEq, Repr

namespace CrossCpuFreelist

def start (next : Nat → Option Nat) : CrossCpuFreelist :=
  ⟨true, next, none, fun _ => .idle, .idle, [], [], []⟩

def setPusher (s : CrossCpuFreelist) (t : Nat) (pc : PushPc) : CrossCpuFreelist :=
  { s with pushers := Function.update s.pushers t pc }

def push (s : CrossCpuFreelist) (t : Nat) (spurious : Bool) : Option CrossCpuFreelist :=
  match s.pushers t with
  | .idle => none
  | .load p => some (s.setPusher t (.store p s.xcpuFreelist))
  | .store p old =>
    some { s.setPusher t (.exchange p old) with next := Function.update s.next p old }
  | .exchange p old =>
    if spurious = false ∧ s.xcpuFreelist = old then
      some { s.setPusher t .idle with xcpuFreelist := some p }
    else some (s.setPusher t (.store p s.xcpuFreelist))

def drainStep (s : CrossCpuFreelist) : Option CrossCpuFreelist :=
  match s.drain with
  | .idle =>
    if s.live = false then none
    else if s.xcpuFreelist = none then some s
    else some { s with drain := .exchange }
  | .exchange => some { s with drain := .loop s.xcpuFreelist, xcpuFreelist := none }
  | .loop none => some { s with drain := .idle }
  | .loop (some p) => some { s with drain := .free p (s.next p) }
  | .free p n => some { s with drain := .loop n, freed := s.freed ++ [p] }

def step (s : CrossCpuFreelist) : FreelistAction → Option CrossCpuFreelist
  | .freeCrossCpu t p =>
    if s.pushers t ≠ .idle then none
    else if s.live = false then some { s with given := s.given ++ [p], leaked := s.leaked ++ [p] }
    else some { s.setPusher t (.load p) with given := s.given ++ [p] }
  | .push t spurious => s.push t spurious
  | .drain => s.drainStep
  | .destroy => if s.drain = .idle then some { s with live := false } else none
  | .write x v => some { s with next := Function.update s.next x v }

def run (next : Nat → Option Nat) (acts : List FreelistAction) : Option CrossCpuFreelist :=
  acts.foldlM step (start next)

/-- An object that was handed over, and has not been freed since. -/
def InFlight (s : CrossCpuFreelist) (x : Nat) : Prop :=
  s.given.count x ≠ s.freed.count x + s.leaked.count x

instance (s : CrossCpuFreelist) (x : Nat) : Decidable (s.InFlight x) :=
  inferInstanceAs (Decidable (_ ≠ _))

/-- No object is freed twice, or written after it was freed. -/
def Admits (s : CrossCpuFreelist) : FreelistAction → Prop
  | .freeCrossCpu _ p => ¬ s.InFlight p
  | .write x _ => ¬ s.InFlight x
  | _ => True

def Admitted (next : Nat → Option Nat) (acts : List FreelistAction) : Prop :=
  ∀ n a s, acts[n]? = some a → run next (acts.take n) = some s → s.Admits a

/-- What the owner has taken off the list, and not freed yet. -/
def Drains (next : Nat → Option Nat) : DrainPc → List Nat → Prop
  | .idle, xs | .exchange, xs => xs = []
  | .loop p, xs => Chained next p xs
  | .free p n, xs => ∃ rest, xs = p :: rest ∧ Chained next n rest

theorem Drains.congr {next next' : Nat → Option Nat} {pc : DrainPc} {xs : List Nat}
    (h : Drains next pc xs) (same : ∀ x ∈ xs, next' x = next x) : Drains next' pc xs := by
  cases pc with
  | idle => exact h
  | exchange => exact h
  | loop p => exact Chained.congr h same
  | free p n =>
    obtain ⟨rest, rfl, chained⟩ := h
    exact ⟨rest, rfl, chained.congr (fun x hx => same x (List.mem_cons_of_mem p hx))⟩

/-- The objects in flight: those in the hands of a thread, those on the list, and those that the
owner has taken. A thread that is about to exchange has linked its object to the head that it
read. -/
structure Sound (s : CrossCpuFreelist) (held stack drained : List Nat) : Prop where
  chained : Chained s.next s.xcpuFreelist stack
  drains : Drains s.next s.drain drained
  nodup : (held ++ (stack ++ drained)).Nodup
  counted : s.given.Perm (s.freed ++ s.leaked ++ (held ++ (stack ++ drained)))
  holds : ∀ x, x ∈ held ↔ ∃ t, (s.pushers t).item = some x
  single : ∀ t t' x, (s.pushers t).item = some x → (s.pushers t').item = some x → t = t'
  linked : ∀ t p old, s.pushers t = .exchange p old → s.next p = old

theorem Sound.away {s : CrossCpuFreelist} {held stack drained : List Nat} (h : s.Sound held stack drained)
    {x : Nat} (rest : ¬ s.InFlight x) : x ∉ held ∧ x ∉ stack ∧ x ∉ drained := by
  have counts := h.counted.count_eq x
  unfold InFlight at rest
  rw [not_not] at rest
  simp only [List.count_append] at counts
  refine ⟨?_, ?_, ?_⟩
  · exact List.count_eq_zero.mp (by omega)
  · exact List.count_eq_zero.mp (by omega)
  · exact List.count_eq_zero.mp (by omega)

/-- Writing outside of the list, of what was taken off it, and of what a thread has linked. -/
theorem Sound.write {s : CrossCpuFreelist} {held stack drained : List Nat} (h : s.Sound held stack drained)
    {x : Nat} (rest : ¬ s.InFlight x) (v : Option Nat) :
    { s with next := Function.update s.next x v }.Sound held stack drained := by
  obtain ⟨away, free, taken⟩ := h.away rest
  refine ⟨h.chained.update free v, ?_, h.nodup, h.counted, h.holds, h.single, ?_⟩
  · exact h.drains.congr (fun y hy => Function.update_of_ne (ne_of_mem_of_not_mem hy taken) _ _)
  · intro t p old pc
    have mine : p ∈ held := (h.holds p).mpr ⟨t, by rw [show s.pushers t = .exchange p old from pc]; rfl⟩
    have linked := h.linked t p old pc
    simp only
    rw [Function.update_of_ne (ne_of_mem_of_not_mem mine away)]
    exact linked

/-- What is held is neither linked from the list nor taken off it. -/
theorem Sound.held_away {s : CrossCpuFreelist} {held stack drained : List Nat}
    (h : s.Sound held stack drained) {x : Nat} (mine : x ∈ held) : x ∉ stack ∧ x ∉ drained := by
  have apart := (List.nodup_append.mp h.nodup).2.2
  refine ⟨?_, ?_⟩
  · intro there
    exact apart x mine x (List.mem_append_left drained there) rfl
  · intro there
    exact apart x mine x (List.mem_append_right stack there) rfl

theorem Sound.held_of {s : CrossCpuFreelist} {held stack drained : List Nat}
    (h : s.Sound held stack drained) {t p : Nat} (item : (s.pushers t).item = some p) : p ∈ held :=
  (h.holds p).mpr ⟨t, item⟩

theorem pushers_setPusher (s : CrossCpuFreelist) (t : Nat) (pc : PushPc) (t' : Nat) :
    (s.setPusher t pc).pushers t' = if t' = t then pc else s.pushers t' := by
  split
  next same =>
    subst same
    exact Function.update_self ..
  next other => exact Function.update_of_ne other ..

theorem item_setPusher {s : CrossCpuFreelist} {t : Nat} {pc : PushPc}
    (same : pc.item = (s.pushers t).item) (t' : Nat) :
    ((s.setPusher t pc).pushers t').item = (s.pushers t').item := by
  rw [pushers_setPusher]
  split
  next here => rw [here, same]
  next => rfl

/-- A thread goes on, and keeps its object. -/
theorem Sound.setPusher {s : CrossCpuFreelist} {held stack drained : List Nat}
    (h : s.Sound held stack drained) {t : Nat} {pc : PushPc} (same : pc.item = (s.pushers t).item)
    (linked : ∀ p old, pc = .exchange p old → s.next p = old) :
    (s.setPusher t pc).Sound held stack drained := by
  refine ⟨h.chained, h.drains, h.nodup, h.counted, ?_, ?_, ?_⟩
  · intro x
    simp only [item_setPusher same]
    exact h.holds x
  · intro t₁ t₂ x
    simp only [item_setPusher same]
    exact h.single t₁ t₂ x
  · intro t' p old exchanges
    rw [pushers_setPusher] at exchanges
    split at exchanges
    next => exact linked p old exchanges
    next => exact h.linked t' p old exchanges

/-- `p->next = old`. -/
theorem Sound.store {s : CrossCpuFreelist} {held stack drained : List Nat}
    (h : s.Sound held stack drained) {t p : Nat} {old : Option Nat} (pc : s.pushers t = .store p old) :
    { s.setPusher t (.exchange p old) with next := Function.update s.next p old }.Sound
      held stack drained := by
  have item : (s.pushers t).item = some p := by rw [pc, PushPc.item]
  have same : (PushPc.exchange p old).item = (s.pushers t).item := item.symm
  obtain ⟨free, taken⟩ := h.held_away (h.held_of item)
  refine ⟨h.chained.update free old, ?_, h.nodup, h.counted, ?_, ?_, ?_⟩
  · exact h.drains.congr (fun y hy => Function.update_of_ne (ne_of_mem_of_not_mem hy taken) _ _)
  · intro x
    simp only [item_setPusher same]
    exact h.holds x
  · intro t₁ t₂ x
    simp only [item_setPusher same]
    exact h.single t₁ t₂ x
  · intro t' p' old' exchanges
    simp only [pushers_setPusher] at exchanges ⊢
    split at exchanges
    next =>
      cases exchanges
      rw [Function.update_self]
    next other =>
      have different : p' ≠ p := by
        rintro rfl
        exact other (h.single t' t p' (by rw [exchanges, PushPc.item]) item)
      rw [Function.update_of_ne different]
      exact h.linked t' p' old' exchanges

/-- The exchange succeeds: the object is linked to the head that it replaces, also when that
head was off the list in the meantime. -/
theorem Sound.exchange {s : CrossCpuFreelist} {held stack drained : List Nat}
    (h : s.Sound held stack drained) {t p : Nat} (pc : s.pushers t = .exchange p s.xcpuFreelist) :
    { s.setPusher t .idle with xcpuFreelist := some p }.Sound (held.erase p) (p :: stack) drained := by
  have item : (s.pushers t).item = some p := by rw [pc, PushPc.item]
  have mine := h.held_of item
  have moved : (held.erase p ++ (p :: stack ++ drained)).Perm (held ++ (stack ++ drained)) := by
    have front := (List.perm_cons_erase mine).append_right (stack ++ drained)
    exact List.perm_middle.trans front.symm
  have unique : held.Nodup := (List.nodup_append.mp h.nodup).1
  refine ⟨h.chained.push (h.linked t p _ pc), h.drains, moved.nodup_iff.mpr h.nodup,
    h.counted.trans (moved.symm.append_left _), ?_, ?_, ?_⟩
  · intro x
    rw [unique.mem_erase_iff, h.holds x]
    simp only [pushers_setPusher]
    constructor
    · rintro ⟨other, t', holds⟩
      have different : t' ≠ t := by
        rintro rfl
        rw [item] at holds
        cases holds
        exact other rfl
      exact ⟨t', by rw [if_neg different]; exact holds⟩
    · rintro ⟨t', holds⟩
      split at holds
      next => cases holds
      next different =>
        refine ⟨?_, t', holds⟩
        rintro rfl
        exact different (h.single t' t x holds item)
  · intro t₁ t₂ x
    simp only [pushers_setPusher]
    intro first second
    split at first
    next => cases first
    next =>
      split at second
      next => cases second
      next => exact h.single t₁ t₂ x first second
  · intro t' p' old' exchanges
    simp only [pushers_setPusher] at exchanges
    split at exchanges
    next => cases exchanges
    next => exact h.linked t' p' old' exchanges

theorem Sound.push {s s' : CrossCpuFreelist} {held stack drained : List Nat}
    (h : s.Sound held stack drained) {t : Nat} {spurious : Bool} (done : s.push t spurious = some s') :
    ∃ held' stack', s'.Sound held' stack' drained := by
  unfold CrossCpuFreelist.push at done
  split at done
  next => cases done
  next p pc =>
    cases done
    refine ⟨held, stack, h.setPusher ?_ ?_⟩
    · rw [pc, PushPc.item, PushPc.item]
    · intro p' old exchanges
      cases exchanges
  next p old pc =>
    cases done
    exact ⟨held, stack, h.store pc⟩
  next p old pc =>
    split at done
    next swaps =>
      cases done
      rw [← swaps.2] at pc
      exact ⟨held.erase p, p :: stack, h.exchange pc⟩
    next =>
      cases done
      refine ⟨held, stack, h.setPusher ?_ ?_⟩
      · rw [pc, PushPc.item, PushPc.item]
      · intro p' old exchanges
        cases exchanges

theorem Sound.drainStep {s s' : CrossCpuFreelist} {held stack drained : List Nat}
    (h : s.Sound held stack drained) (done : s.drainStep = some s') :
    ∃ stack' drained', s'.Sound held stack' drained' := by
  have drains := h.drains
  unfold CrossCpuFreelist.drainStep at done
  split at done
  next pc =>
    rw [pc] at drains
    split at done
    next => cases done
    next =>
      split at done
      next =>
        cases done
        exact ⟨stack, drained, h⟩
      next =>
        cases done
        exact ⟨stack, drained, h.chained, drains, h.nodup, h.counted, h.holds, h.single, h.linked⟩
  next pc =>
    rw [pc] at drains
    cases done
    have empty : drained = [] := drains
    subst empty
    refine ⟨[], stack, rfl, h.chained, ?_, ?_, h.holds, h.single, h.linked⟩
    · have nodup := h.nodup
      rw [List.append_nil] at nodup
      exact nodup
    · have counted := h.counted
      rw [List.append_nil] at counted
      exact counted
  next pc =>
    rw [pc] at drains
    cases done
    exact ⟨stack, drained, h.chained, Chained.eq_nil drains, h.nodup, h.counted, h.holds, h.single,
      h.linked⟩
  next p pc =>
    rw [pc] at drains
    cases done
    exact ⟨stack, drained, h.chained, Chained.tail drains, h.nodup, h.counted, h.holds, h.single,
      h.linked⟩
  next p n pc =>
    rw [pc] at drains
    cases done
    obtain ⟨rest, rfl, chained⟩ := drains
    have cut : (held ++ (stack ++ p :: rest)).Perm (p :: (held ++ (stack ++ rest))) := by
      rw [← List.append_assoc, ← List.append_assoc]
      exact List.perm_middle
    refine ⟨stack, rest, h.chained, chained, ?_, ?_, h.holds, h.single, h.linked⟩
    · exact (List.nodup_cons.mp (cut.nodup_iff.mp h.nodup)).2
    · refine h.counted.trans ?_
      rw [List.perm_iff_count]
      intro x
      have counts := cut.count_eq x
      simp only [List.count_append, List.count_cons, List.count_nil] at counts ⊢
      omega

theorem Sound.freeCrossCpu {s : CrossCpuFreelist} {held stack drained : List Nat}
    (h : s.Sound held stack drained) {t p : Nat} (idle : s.pushers t = .idle) (rest : ¬ s.InFlight p) :
    { s.setPusher t (.load p) with given := s.given ++ [p] }.Sound (p :: held) stack drained := by
  obtain ⟨away, free, taken⟩ := h.away rest
  refine ⟨h.chained, h.drains, ?_, ?_, ?_, ?_, ?_⟩
  · refine List.nodup_cons.mpr ⟨?_, h.nodup⟩
    intro there
    rcases List.mem_append.mp there with there | there
    · exact away there
    · exact (List.mem_append.mp there).elim free taken
  · rw [List.perm_iff_count]
    intro x
    have counts := h.counted.count_eq x
    simp only [CrossCpuFreelist.setPusher, List.count_append, List.count_cons,
      List.count_nil] at counts ⊢
    omega
  · intro x
    simp only [pushers_setPusher]
    rw [List.mem_cons, h.holds x]
    constructor
    · rintro (rfl | ⟨t', holds⟩)
      · exact ⟨t, by rw [if_pos rfl, PushPc.item]⟩
      · have different : t' ≠ t := by
          rintro rfl
          rw [idle] at holds
          cases holds
        exact ⟨t', by rw [if_neg different]; exact holds⟩
    · rintro ⟨t', holds⟩
      split at holds
      next =>
        cases holds
        exact Or.inl rfl
      next => exact Or.inr ⟨t', holds⟩
  · intro t₁ t₂ x first second
    simp only [pushers_setPusher] at first second
    split at first
    next here =>
      cases first
      split at second
      next here' => rw [here, here']
      next => exact absurd (h.held_of second) away
    next =>
      split at second
      next =>
        cases second
        exact absurd (h.held_of first) away
      next => exact h.single t₁ t₂ x first second
  · intro t' p' old' exchanges
    simp only [pushers_setPusher] at exchanges
    split at exchanges
    next => cases exchanges
    next => exact h.linked t' p' old' exchanges

theorem Sound.step {s s' : CrossCpuFreelist} {held stack drained : List Nat}
    (h : s.Sound held stack drained) {a : FreelistAction} (admits : s.Admits a)
    (done : s.step a = some s') : ∃ held' stack' drained', s'.Sound held' stack' drained' := by
  cases a with
  | freeCrossCpu t p =>
    simp only [CrossCpuFreelist.step] at done
    split at done
    next => cases done
    next idle =>
      rw [not_not] at idle
      split at done
      next =>
        cases done
        refine ⟨held, stack, drained, h.chained, h.drains, h.nodup, ?_, h.holds, h.single, h.linked⟩
        rw [List.perm_iff_count]
        intro x
        have counts := h.counted.count_eq x
        simp only [List.count_append, List.count_cons, List.count_nil] at counts ⊢
        omega
      next =>
        cases done
        exact ⟨p :: held, stack, drained, h.freeCrossCpu idle admits⟩
  | push t spurious =>
    obtain ⟨held', stack', sound⟩ := h.push done
    exact ⟨held', stack', drained, sound⟩
  | drain =>
    obtain ⟨stack', drained', sound⟩ := h.drainStep done
    exact ⟨held, stack', drained', sound⟩
  | destroy =>
    simp only [CrossCpuFreelist.step] at done
    split at done
    next =>
      cases done
      exact ⟨held, stack, drained, h.chained, h.drains, h.nodup, h.counted, h.holds, h.single, h.linked⟩
    next => cases done
  | write x v =>
    cases done
    exact ⟨held, stack, drained, h.write admits v⟩

theorem sound_start (next : Nat → Option Nat) : (start next).Sound [] [] [] := by
  refine ⟨rfl, rfl, List.nodup_nil, List.Perm.refl _, ?_, ?_, ?_⟩
  · intro x
    constructor
    · intro hx
      cases hx
    · rintro ⟨t, holds⟩
      cases holds
  · intro t t' x holds
    cases holds
  · intro t p old exchanges
    cases exchanges

/-- Over all interleavings of the threads that hand objects over with the owner that drains them,
each object that was handed over is freed once, or leaked by a dead cpu, or in one place on its
way: in the hands of one thread, on the list, or taken by the owner. -/
theorem cross_cpu_frees_once (next : Nat → Option Nat) (acts : List FreelistAction)
    (admitted : Admitted next acts) (n : Nat) (s : CrossCpuFreelist)
    (reached : run next (acts.take n) = some s) :
    ∃ held stack drained, Chained s.next s.xcpuFreelist stack ∧ Drains s.next s.drain drained ∧
      (∀ x, x ∈ held ↔ ∃ t, (s.pushers t).item = some x) ∧ (held ++ (stack ++ drained)).Nodup ∧
      s.given.Perm (s.freed ++ s.leaked ++ (held ++ (stack ++ drained))) := by
  have sound : ∃ held stack drained, s.Sound held stack drained := by
    refine Runs.partial_invariant (P := fun s => ∃ held stack drained, s.Sound held stack drained)
      ⟨[], [], [], sound_start next⟩ ?_ n reached
    rintro k a t t' ha before done ⟨held, stack, drained, here⟩
    exact here.step (admitted k a t ha before) done
  obtain ⟨held, stack, drained, h⟩ := sound
  exact ⟨held, stack, drained, h.chained, h.drains, h.holds, h.nodup, h.counted⟩

/-- A thread reads the head and is overtaken: the owner frees that head, and it is handed over
again before the exchange. -/
def sameHeadAgain : List FreelistAction :=
  [.freeCrossCpu 0 16, .push 0 false, .push 0 false, .push 0 false, .freeCrossCpu 1 32, .push 1 false,
    .push 1 false, .drain, .drain, .drain, .drain, .drain, .freeCrossCpu 0 16, .push 0 false,
    .push 0 false, .push 0 false, .push 1 false]

theorem sameHeadAgain_rests :
    (run (fun _ => none) (sameHeadAgain.take 4)).map (fun s => decide (s.InFlight 32)) = some false ∧
      (run (fun _ => none) (sameHeadAgain.take 12)).map (fun s => decide (s.InFlight 16)) =
        some false := by decide

theorem admitted_sameHeadAgain : Admitted (fun _ => none) sameHeadAgain := by
  intro n a s ha reached
  obtain ⟨first, second⟩ := sameHeadAgain_rests
  match n, ha with
  | 0, ha =>
    cases ha
    cases reached
    exact not_not.mpr rfl
  | 4, ha =>
    cases ha
    rw [reached] at first
    exact of_decide_eq_false (Option.some.inj first)
  | 12, ha =>
    cases ha
    rw [reached] at second
    exact of_decide_eq_false (Option.some.inj second)
  | 1, ha | 2, ha | 3, ha | 5, ha | 6, ha | 7, ha | 8, ha | 9, ha | 10, ha | 11, ha | 13, ha | 14, ha
  | 15, ha | 16, ha =>
    cases ha
    trivial

theorem cross_cpu_frees_same_head :
    ∃ s held stack drained, run (fun _ => none) (sameHeadAgain.take 17) = some s ∧
      Chained s.next (some 32) stack ∧
      [16, 32, 16].Perm ([16] ++ (held ++ (stack ++ drained))) := by
  have last : (run (fun _ => none) (sameHeadAgain.take 17)).map
      (fun s => (s.xcpuFreelist, s.given, s.freed, s.leaked)) =
      some (some 32, [16, 32, 16], [16], []) := by decide
  obtain ⟨s, reached, state⟩ := Option.map_eq_some_iff.mp last
  obtain ⟨head, state⟩ := Prod.mk.inj state
  obtain ⟨given, state⟩ := Prod.mk.inj state
  obtain ⟨freed, leaked⟩ := Prod.mk.inj state
  obtain ⟨held, stack, drained, chained, -, -, -, counted⟩ :=
    cross_cpu_frees_once _ _ admitted_sameHeadAgain 17 s reached
  rw [given, freed, leaked] at counted
  rw [head] at chained
  exact ⟨s, held, stack, drained, reached, chained, counted⟩

end CrossCpuFreelist

end XiRuntime
