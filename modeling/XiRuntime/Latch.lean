import Mathlib.Algebra.Order.Ring.Nat
import XiRuntime.PromiseOnce
import XiRuntime.Runs

namespace XiRuntime

/-- Where a call of `count_down` stands: about to load the count, to exchange the
old count it holds, to set the promise, or done. -/
inductive LatchPc
  | load
  | exchange (oldCount : UInt64)
  | set
  | finished
deriving DecidableEq, Repr

structure LatchCall where
  amount : UInt64
  pc : LatchPc
deriving DecidableEq, Repr

structure Latch (U E : Type) where
  count : UInt64
  promise : PromiseLife Unit U E
  calls : List LatchCall
  /-- What escaped from `_promise.set()`. -/
  thrown : List (Exc E)

inductive LatchAction
  | countDown (amount : UInt64)
  | advance (call : Nat) (spurious : Bool)

namespace LatchPc

/-- The test at the top of the loop, of a count just read. -/
def test (oldCount : UInt64) : LatchPc := if oldCount = 0 then finished else exchange oldCount

def newCount (oldCount amount : UInt64) : UInt64 :=
  if oldCount > amount then oldCount - amount else 0

end LatchPc

namespace Latch

variable {U E : Type}

/-- `_promise.set()`. -/
def setPromise (l : Latch U E) : Latch U E :=
  let r := l.promise.step (.set (.value ()))
  { l with promise := r.1, thrown := l.thrown ++ r.2.toList }

/-- `latch::latch`. -/
def create (c : UInt64) : Latch U E :=
  let l : Latch U E := ⟨c, .start, [], []⟩
  if 0 = c then l.setPromise else l

def goTo (l : Latch U E) (i : Nat) (call : LatchCall) (pc : LatchPc) : Latch U E :=
  { l with calls := l.calls.set i { call with pc := pc } }

/-- One atomic step of the `i`-th call of `count_down`. A `compare_exchange_weak`
that fails, spuriously or not, leaves the count it found in `old_count`. -/
def advance (l : Latch U E) (i : Nat) (spurious : Bool) : Latch U E :=
  match l.calls[i]? with
  | none => l
  | some call =>
    match call.pc with
    | .load => l.goTo i call (.test l.count)
    | .exchange oldCount =>
      if l.count = oldCount ∧ spurious = false then
        let l' := { l with count := LatchPc.newCount oldCount call.amount }
        l'.goTo i call (if l'.count = 0 then .set else .finished)
      else l.goTo i call (.test l.count)
    | .set => l.setPromise.goTo i call .finished
    | .finished => l

def step (l : Latch U E) : LatchAction → Latch U E
  | .countDown amount => { l with calls := l.calls ++ [⟨amount, .load⟩] }
  | .advance i spurious => l.advance i spurious

/-- The promise has been set: its future is ready. -/
def isOpen (l : Latch U E) : Bool := l.promise.world.source.isReady

/-- The calls that are about to set the promise. -/
def setting (l : Latch U E) : Nat := l.calls.countP (fun call => call.pc = .set)

def amounts (l : Latch U E) : Nat := (l.calls.map (fun call => call.amount.toNat)).sum

end Latch

/-- What a call has taken off the count, as far as there was something left. -/
def LatchCall.counted (call : LatchCall) : Nat :=
  match call.pc with
  | .set | .finished => call.amount.toNat
  | _ => 0

theorem LatchPc.newCount_toNat (oldCount amount : UInt64) :
    (newCount oldCount amount).toNat = oldCount.toNat - amount.toNat := by
  rw [newCount]
  split
  next h => exact UInt64.toNat_sub_of_le _ _ (UInt64.le_of_lt h)
  next h =>
    have := UInt64.le_iff_toNat_le.mp (UInt64.not_lt.mp h)
    rw [UInt64.toNat_zero]
    omega

theorem sum_map_set {α : Type} (f : α → Nat) {l : List α} {i : Nat} {a : α} (b : α)
    (h : l[i]? = some a) : ((l.set i b).map f).sum + f a = (l.map f).sum + f b := by
  induction l generalizing i with
  | nil => simp at h
  | cons x l ih =>
    cases i with
    | zero =>
      cases Option.some.inj h
      simp only [List.set_cons_zero, List.map_cons, List.sum_cons]
      omega
    | succ i =>
      have := ih h
      simp only [List.set_cons_succ, List.map_cons, List.sum_cons]
      omega

namespace Latch

variable {U E : Type} {c : UInt64} {l : Latch U E} {i : Nat} {call : LatchCall} {pc : LatchPc}

def counted (l : Latch U E) : Nat := (l.calls.map LatchCall.counted).sum

/-- The calls of `set` so far: the one that brought the count to 0, when it is through. -/
def sets (l : Latch U E) : List (PromiseOp Unit U E) :=
  if l.count = 0 ∧ l.setting = 0 then [.set (.value ())] else []

/-- A call about to set the promise has brought the count to 0, and the count only
reaches 0 once. -/
structure Sound (c : UInt64) (l : Latch U E) : Prop where
  thrown : l.thrown = []
  promise : l.promise = PromiseLife.run l.sets
  setting : l.setting ≤ if l.count = 0 then 1 else 0
  count : l.count.toNat = c.toNat - l.counted
  exchange : ∀ call ∈ l.calls, call.pc ≠ .exchange 0

theorem Sound.isOpen_iff (h : l.Sound c) : l.isOpen = true ↔ l.count = 0 ∧ l.setting = 0 := by
  have source := (PromiseLife.run_follows l.sets).source
  rw [isOpen, h.promise, source, sets]
  split
  next opened => exact iff_of_true rfl opened
  next closed => exact iff_of_false Bool.false_ne_true closed

/-- The first `set` goes through. -/
theorem setPromise_eq (ht : l.thrown = []) (hp : l.promise = PromiseLife.run []) :
    l.setPromise = { l with promise := PromiseLife.run [.set (.value ())] } := by
  have first : ((PromiseLife.run []).step (.set (.value ())) : PromiseLife Unit U E × _).2 = none :=
    (PromiseLife.step_first (PromiseLife.run_follows []) rfl).1
  rw [setPromise, hp, first, ht]
  rfl

theorem goTo_counted (pc : LatchPc) (h : l.calls[i]? = some call) :
    (l.goTo i call pc).counted + call.counted = l.counted + LatchCall.counted { call with pc := pc } :=
  sum_map_set LatchCall.counted _ h

theorem goTo_taken (pc : LatchPc) (h : l.calls[i]? = some call) (before : call.counted = 0)
    (hpc : pc = .set ∨ pc = .finished) :
    (l.goTo i call pc).counted = l.counted + call.amount.toNat := by
  have counts := goTo_counted pc h
  have after : LatchCall.counted { call with pc := pc } = call.amount.toNat := by
    rcases hpc with rfl | rfl <;> rfl
  omega

theorem goTo_kept (h : l.calls[i]? = some call)
    (same : LatchCall.counted { call with pc := pc } = call.counted) :
    (l.goTo i call pc).counted = l.counted := by
  have counts := goTo_counted pc h
  omega

theorem goTo_setting (pc : LatchPc) (h : l.calls[i]? = some call) :
    (l.goTo i call pc).setting + (if call.pc = .set then 1 else 0) =
      l.setting + if pc = .set then 1 else 0 := by
  obtain ⟨hi, rfl⟩ := List.getElem?_eq_some_iff.mp h
  have here := List.boole_getElem_le_countP (p := fun call : LatchCall => call.pc = .set) hi
  rw [setting, goTo, List.countP_set hi, setting]
  simp only [decide_eq_true_eq] at here ⊢
  omega

theorem sound_create : (create c : Latch U E).Sound c := by
  rw [create]
  split
  next zero =>
    subst zero
    rw [setPromise_eq rfl rfl]
    exact ⟨rfl, rfl, Nat.zero_le _, rfl, by simp⟩
  next more =>
    have more' : ¬ c = 0 := fun h => more h.symm
    exact ⟨rfl, by simp [sets, more', PromiseLife.run], Nat.zero_le _, rfl, by simp⟩

theorem mem_goTo {call' : LatchCall} (h : call' ∈ (l.goTo i call pc).calls) :
    call' ∈ l.calls ∨ call'.pc = pc := by
  rcases List.mem_or_eq_of_mem_set h with old | rfl
  · exact Or.inl old
  · exact Or.inr rfl

theorem exchange_goTo (h : ∀ call' ∈ l.calls, call'.pc ≠ .exchange 0) (hpc : pc ≠ .exchange 0) :
    ∀ call' ∈ (l.goTo i call pc).calls, call'.pc ≠ .exchange 0 := by
  intro call' mem
  rcases mem_goTo mem with old | new
  · exact h call' old
  · rw [new]
    exact hpc

/-- A call that found a count goes round the loop, or leaves at 0. -/
theorem Sound.test (h : l.Sound c) (hcall : l.calls[i]? = some call) (hset : call.pc ≠ .set)
    (before : call.counted = 0) : (l.goTo i call (.test l.count)).Sound c := by
  have count := h.count
  have other : LatchPc.test l.count ≠ .set := by
    rw [LatchPc.test]
    split <;> exact LatchPc.noConfusion
  have setting : (l.goTo i call (.test l.count)).setting = l.setting := by
    have := goTo_setting (.test l.count) hcall
    rw [if_neg hset, if_neg other] at this
    exact this
  refine ⟨h.thrown, ?_, setting ▸ h.setting, ?_, ?_⟩
  · rw [sets, setting]
    exact h.promise
  · by_cases zero : l.count = 0
    · have taken := goTo_taken (.test l.count) hcall before (Or.inr (if_pos zero))
      have := congrArg UInt64.toNat zero
      rw [UInt64.toNat_zero] at this
      rw [taken]
      change l.count.toNat = _
      omega
    · have round : LatchPc.test l.count = .exchange l.count := if_neg zero
      rw [goTo_kept hcall (by rw [round, before]; rfl)]
      exact count
  · apply exchange_goTo h.exchange
    rw [LatchPc.test]
    split
    next => simp
    next more => simpa using more

/-- An exchange that succeeds takes the amount off, and sets the promise next if
nothing is left. -/
theorem Sound.exchanged (h : l.Sound c) (hcall : l.calls[i]? = some call)
    (hpc : call.pc = .exchange l.count) {new : UInt64}
    (left : new.toNat = l.count.toNat - call.amount.toNat) :
    Sound c (goTo { l with count := new } i call (if new = 0 then .set else .finished)) := by
  have more : l.count ≠ 0 := by
    intro zero
    exact h.exchange call (List.mem_of_getElem? hcall) (by rw [hpc, zero])
  have idle : l.setting = 0 := by
    have := h.setting
    rw [if_neg more] at this
    omega
  have setting : (goTo { l with count := new } i call (if new = 0 then .set else .finished)).setting =
      if new = 0 then 1 else 0 := by
    have moved := goTo_setting (l := { l with count := new })
      (if new = 0 then .set else .finished) hcall
    have here : call.pc ≠ .set := by simp [hpc]
    have same : Latch.setting { l with count := new } = 0 := idle
    rw [if_neg here, Nat.add_zero, same, Nat.zero_add] at moved
    rw [moved]
    split <;> rfl
  have pending : ¬ (new = 0 ∧ (if new = 0 then 1 else 0) = 0) := by
    intro both
    rw [if_pos both.1] at both
    exact Nat.one_ne_zero both.2
  have closed : l.sets = [] := if_neg (fun opened => more opened.1)
  refine Sound.mk h.thrown ?_ setting.le ?_ ?_
  · rw [sets, setting]
    have promise := h.promise
    rw [closed] at promise
    exact promise.trans (congrArg _ (if_neg pending).symm)
  · have taken := goTo_taken (l := { l with count := new })
      (if new = 0 then .set else .finished) hcall (by rw [LatchCall.counted, hpc])
      (by split <;> simp)
    have count := h.count
    rw [taken]
    change new.toNat = c.toNat - (l.counted + call.amount.toNat)
    omega
  · apply exchange_goTo (l := { l with count := new }) h.exchange
    split <;> simp

/-- Only one call is about to set the promise, and it has brought the count to 0. -/
theorem Sound.last (h : l.Sound c) (hcall : l.calls[i]? = some call) (hpc : call.pc = .set) :
    l.count = 0 ∧ 0 < l.setting ∧ (l.goTo i call .finished).setting = 0 := by
  have here : 0 < l.setting :=
    List.countP_pos_iff.mpr ⟨call, List.mem_of_getElem? hcall, by simpa using hpc⟩
  have bound := h.setting
  have zero : l.count = 0 := by
    by_contra more
    rw [if_neg more] at bound
    omega
  rw [if_pos zero] at bound
  have moved := goTo_setting .finished hcall
  rw [if_pos hpc, if_neg (by simp)] at moved
  exact ⟨zero, here, by omega⟩

/-- That call sets it, for the first time. -/
theorem Sound.opened (h : l.Sound c) (hcall : l.calls[i]? = some call) (hpc : call.pc = .set) :
    (l.setPromise.goTo i call .finished).Sound c ∧
      (l.setPromise.goTo i call .finished).isOpen = true := by
  obtain ⟨zero, here, idle⟩ := h.last hcall hpc
  have closed : l.sets = [] := if_neg (fun opened => Nat.ne_of_gt here opened.2)
  have promise := h.promise
  rw [closed] at promise
  rw [setPromise_eq h.thrown promise]
  have kept : (l.goTo i call .finished).counted = l.counted :=
    goTo_kept hcall (by rw [LatchCall.counted, LatchCall.counted, hpc])
  have sound : Sound c (goTo { l with promise := PromiseLife.run [.set (.value ())] } i call .finished) :=
    ⟨h.thrown, congrArg PromiseLife.run (if_pos ⟨zero, idle⟩).symm, idle.trans_le (Nat.zero_le _),
      h.count.trans (congrArg _ kept.symm), exchange_goTo h.exchange (by simp)⟩
  exact ⟨sound, sound.isOpen_iff.mpr ⟨zero, idle⟩⟩

theorem Sound.advance (h : l.Sound c) (i : Nat) (spurious : Bool) : (l.advance i spurious).Sound c := by
  rw [Latch.advance]
  split
  next => exact h
  next call hcall =>
    split
    next hpc => exact h.test hcall (by simp [hpc]) (by rw [LatchCall.counted, hpc])
    next oldCount hpc =>
      split
      next held =>
        rw [← held.1] at hpc ⊢
        exact h.exchanged hcall hpc (LatchPc.newCount_toNat _ _)
      next => exact h.test hcall (by simp [hpc]) (by rw [LatchCall.counted, hpc])
    next hpc => exact (h.opened hcall hpc).1
    next => exact h

theorem Sound.countDown (h : l.Sound c) (amount : UInt64) : (l.step (.countDown amount)).Sound c := by
  have setting : (l.step (.countDown amount)).setting = l.setting := by
    simp [Latch.setting, step, List.countP_append]
  have counted : (l.step (.countDown amount)).counted = l.counted := by
    simp [Latch.counted, step, LatchCall.counted]
  refine ⟨h.thrown, ?_, setting ▸ h.setting, counted ▸ h.count, ?_⟩
  · rw [sets, setting]
    exact h.promise
  · intro call mem
    rcases List.mem_append.mp mem with old | new
    · exact h.exchange call old
    · rw [List.mem_singleton.mp new]
      exact LatchPc.noConfusion

theorem Sound.step (h : l.Sound c) (a : LatchAction) : (l.step a).Sound c := by
  cases a with
  | countDown amount => exact h.countDown amount
  | advance i spurious => exact h.advance i spurious

theorem sound_run (c : UInt64) (acts : List LatchAction) :
    (runFrom Latch.step (create c : Latch U E) acts).Sound c := by
  induction acts using List.reverseRecOn with
  | nil => exact sound_create
  | append_singleton acts a ih =>
    rw [Runs.snoc]
    exact ih.step a

/-- A step leaves the count or lowers it. -/
theorem step_count_le (l : Latch U E) (a : LatchAction) : (l.step a).count ≤ l.count := by
  cases a with
  | countDown amount => exact UInt64.le_refl _
  | advance i spurious =>
    rw [step, advance]
    split
    next => exact UInt64.le_refl _
    next call _ =>
      split
      next => exact UInt64.le_refl _
      next oldCount _ =>
        split
        next held =>
          have left := LatchPc.newCount_toNat oldCount call.amount
          change LatchPc.newCount oldCount call.amount ≤ l.count
          rw [held.1, UInt64.le_iff_toNat_le]
          omega
        next => exact UInt64.le_refl _
      next => exact UInt64.le_refl _
      next => exact UInt64.le_refl _

/-- Calls that are through have counted all they were given. -/
theorem counted_finished (h : ∀ call ∈ l.calls, call.pc = .finished) : l.counted = l.amounts := by
  apply congrArg List.sum
  apply List.map_congr_left
  intro call mem
  rw [LatchCall.counted, h call mem]

theorem setting_finished (h : ∀ call ∈ l.calls, call.pc = .finished) : l.setting = 0 := by
  apply List.countP_eq_zero.mpr
  intro call mem
  simp [h call mem]

/-- The latch opens once: the promise is never set twice, it is set when a call has
brought the count to 0 and is through with it, and the count only goes down, to what
the amounts leave of it. -/
theorem latch_opens_once (c : UInt64) (acts : List LatchAction) :
    let l : Latch U E := runFrom Latch.step (create c) acts
    l.thrown = [] ∧
    l.setting ≤ 1 ∧
    (l.isOpen = true ↔ l.count = 0 ∧ l.setting = 0) ∧
    (∀ (i : Nat) (call : LatchCall) (spurious : Bool), l.calls[i]? = some call → call.pc = .set →
      (l.advance i spurious).isOpen = true) ∧
    (∀ a, (l.step a).count ≤ l.count) ∧
    ((∀ call ∈ l.calls, call.pc = .finished) →
      l.count.toNat = c.toNat - l.amounts ∧ (l.isOpen = true ↔ l.count = 0)) := by
  intro l
  have h : l.Sound c := sound_run c acts
  refine ⟨h.thrown, ?_, h.isOpen_iff, ?_, step_count_le l, ?_⟩
  · have := h.setting
    split at this <;> omega
  · intro i call spurious hcall hpc
    rw [advance, hcall]
    simp only [hpc]
    exact (h.opened hcall hpc).2
  · intro finished
    rw [← counted_finished finished, h.isOpen_iff, setting_finished finished]
    exact ⟨h.count, and_iff_left rfl⟩

/-- Two calls race for 5; the second loses its first exchange and takes what is left. -/
def raceForFive : List LatchAction :=
  [.countDown 3, .countDown 4, .advance 0 false, .advance 1 false, .advance 0 false,
    .advance 1 false, .advance 1 true, .advance 1 false, .advance 1 false]

theorem latch_opens_once_of_five :
    let l : Latch Unit Unit := runFrom step (create 5) raceForFive
    l.thrown = [] ∧ l.setting ≤ 1 ∧ l.amounts = 7 ∧ l.count = 0 ∧ l.isOpen = true := by
  intro l
  obtain ⟨thrown, setting, -, -, -, settled⟩ := latch_opens_once (U := Unit) (E := Unit) 5 raceForFive
  have finished : ∀ call ∈ l.calls, call.pc = .finished := by decide
  have zero : l.count = 0 := by decide
  exact ⟨thrown, setting, by decide, zero, (settled finished).2.mpr zero⟩

end Latch

end XiRuntime
