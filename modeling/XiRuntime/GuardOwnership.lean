import XiRuntime.Guard
import Mathlib.Data.Finset.Lattice.Fold

namespace XiRuntime

namespace Guard

namespace State

/-- Every pointer that is stored in a guard. -/
def pointers (s : State) : List Ptr := s.guards.gather (fun p => [p]) ++ s.impls.gather Impl.pointers

def payloads (s : State) : List Nat := s.impls.gather (fun i => i.payload.resources)

def refsAt (s : State) (n : Nat) : Nat := (s.impls.get n).elim 0 Impl.refs

/-- One for each resource that was made. -/
def made (s : State) (r : Nat) : Nat := if r < s.resources then 1 else 0

/-- Pointers lead to impls of lower rank, so there is no cycle. -/
def Ranked (s : State) (rank : Nat → Nat) : Prop :=
  ∀ n i m, s.impls.get n = some i → .impl m ∈ i.pointers → rank m < rank n

/-- `ps` are the pointers in hand. Each `impl` counts the guards that point to it, and each
resource has one owner until it is released. -/
structure Inv (s : State) (ps : List Ptr) : Prop where
  counted : ∀ n, ps.count (.impl n) + s.pointers.count (.impl n) = s.refsAt n
  owned : ∀ r, ps.count (.raw r) + s.pointers.count (.raw r) + s.payloads.count r +
    s.released.count r = s.made r
  live : ∀ n i, s.impls.get n = some i → i.refs ≠ 0
  ranked : ∃ rank, s.Ranked rank
  sane : ∀ n i k, s.impls.get n = some i → i.payload ≠ .free (.impl k)
  unfreed : s.freedImpls = []

theorem refsAt_of_get {s : State} {n : Nat} {i : Impl} (h : s.impls.get n = some i) :
    s.refsAt n = i.refs := by
  rw [refsAt, h]
  rfl

theorem Inv.get_of_mem {s : State} {ps : List Ptr} (inv : s.Inv ps) {n : Nat}
    (h : .impl n ∈ ps ∨ .impl n ∈ s.pointers) : ∃ i, s.impls.get n = some i := by
  have pos : 0 < s.refsAt n := by
    rw [← inv.counted n]
    rcases h with h | h
    · have := List.count_pos_iff.mpr h
      omega
    · have := List.count_pos_iff.mpr h
      omega
  cases hi : s.impls.get n with
  | none => simp [refsAt, hi] at pos
  | some i => exact ⟨i, rfl⟩

theorem mem_pointers {s : State} {p : Ptr} :
    p ∈ s.pointers ↔ (∃ a, s.guards.get a = some p) ∨
      ∃ n i, s.impls.get n = some i ∧ p ∈ i.pointers := by
  rw [pointers, List.mem_append, Slots.mem_gather, Slots.mem_gather]
  constructor
  · rintro (⟨a, q, ha, hq⟩ | held)
    · exact .inl ⟨a, by rw [ha, List.mem_singleton.mp hq]⟩
    · exact .inr held
  · rintro (⟨a, ha⟩ | held)
    · exact .inl ⟨a, p, ha, List.mem_singleton_self p⟩
    · exact .inr held

section Counts

variable (s : State) (q : Ptr)

theorem count_addGuard (p : Ptr) :
    (s.addGuard p).pointers.count q = s.pointers.count q + [p].count q := by
  simp only [pointers, addGuard, Slots.gather_add, List.count_append]
  omega

theorem count_newImpl (i : Impl) :
    (s.newImpl i).pointers.count q = s.pointers.count q + i.pointers.count q := by
  simp only [pointers, newImpl, Slots.gather_add, List.count_append]
  omega

variable {s}

theorem count_setGuard {a : Nat} {p : Ptr} (h : s.guards.get a = some p) (p' : Ptr) :
    (s.setGuard a p').pointers.count q + [p].count q = s.pointers.count q + [p'].count q := by
  have slot := Slots.count_gather_set (fun p => [p]) h (some p') q
  simp only [Option.elim_some] at slot
  simp only [pointers, setGuard, List.count_append]
  omega

theorem count_dropGuard {a : Nat} {p : Ptr} (h : s.guards.get a = some p) :
    (s.dropGuard a).pointers.count q + [p].count q = s.pointers.count q := by
  have slot := Slots.count_gather_set (fun p => [p]) h none q
  simp only [Option.elim_none, List.count_nil] at slot
  simp only [pointers, dropGuard, List.count_append]
  omega

theorem count_setImpl {n : Nat} {i : Impl} (h : s.impls.get n = some i) (i' : Impl) :
    (s.setImpl n i').pointers.count q + i.pointers.count q =
      s.pointers.count q + i'.pointers.count q := by
  have slot := Slots.count_gather_set Impl.pointers h (some i') q
  simp only [Option.elim_some] at slot
  simp only [pointers, setImpl, List.count_append]
  omega

theorem count_dropImpl {n : Nat} {i : Impl} (h : s.impls.get n = some i) :
    (s.dropImpl n).pointers.count q + i.pointers.count q = s.pointers.count q := by
  have slot := Slots.count_gather_set Impl.pointers h none q
  simp only [Option.elim_none, List.count_nil] at slot
  simp only [pointers, dropImpl, List.count_append]
  omega

theorem payloads_dropImpl {n : Nat} {i : Impl} (h : s.impls.get n = some i) (r : Nat) :
    (s.dropImpl n).payloads.count r + i.payload.resources.count r = s.payloads.count r :=
  Slots.count_gather_set (fun i : Impl => i.payload.resources) h none r

theorem payloads_setImpl {n : Nat} {i : Impl} (h : s.impls.get n = some i) (i' : Impl)
    (same : i'.payload = i.payload) (r : Nat) :
    (s.setImpl n i').payloads.count r = s.payloads.count r := by
  have slot := Slots.count_gather_set (fun i => i.payload.resources) h (some i') r
  simp only [Option.elim_some, same] at slot
  exact Nat.add_right_cancel slot

end Counts

theorem refsAt_setImpl {s : State} {n : Nat} {i : Impl} (h : s.impls.get n = some i) (i' : Impl)
    (m : Nat) : (s.setImpl n i').refsAt m = if n = m then i'.refs else s.refsAt m := by
  unfold refsAt setImpl
  split
  next same =>
    subst same
    rw [Slots.get_set_same h]
    rfl
  next other => rw [Slots.get_set_ne _ other]

theorem refsAt_newImpl (s : State) (i : Impl) (m : Nat) :
    (s.newImpl i).refsAt m = if m = s.impls.next then i.refs else s.refsAt m := by
  unfold refsAt newImpl
  split
  next same =>
    subst same
    rw [Slots.get_add_same]
    rfl
  next other => rw [Slots.get_add_ne _ _ other]

/-- Guards that are moved around: all that the invariant reads is the same. -/
theorem Inv.of_counts {s s' : State} {ps ps' : List Ptr} (inv : s.Inv ps)
    (impls : s'.impls = s.impls) (resources : s'.resources = s.resources)
    (released : s'.released = s.released) (freed : s'.freedImpls = s.freedImpls)
    (count : ∀ q, q ≠ .null →
      ps'.count q + s'.pointers.count q = ps.count q + s.pointers.count q) : s'.Inv ps' := by
  obtain ⟨rank, ranked⟩ := inv.ranked
  refine ⟨fun n => ?_, fun r => ?_, ?_, ⟨rank, ?_⟩, ?_, by rw [freed, inv.unfreed]⟩
  · rw [count _ (by simp), inv.counted n, refsAt, refsAt, impls]
  · rw [count _ (by simp), payloads, impls, released, made, resources]
    exact inv.owned r
  · rw [impls]
    exact inv.live
  · unfold Ranked
    rw [impls]
    exact ranked
  · rw [impls]
    exact inv.sane

theorem payloads_newImpl (s : State) (i : Impl) (r : Nat) :
    (s.newImpl i).payloads.count r = s.payloads.count r + i.payload.resources.count r := by
  simp only [payloads, newImpl, Slots.gather_add, List.count_append]

theorem refsAt_dropImpl {s : State} {n : Nat} {i : Impl} (h : s.impls.get n = some i) (m : Nat) :
    (s.dropImpl n).refsAt m = if n = m then 0 else s.refsAt m := by
  unfold refsAt dropImpl
  split
  next same =>
    subst same
    rw [Slots.get_set_same h]
    rfl
  next other => rw [Slots.get_set_ne _ other]

/-- A pointer without target is let go of. -/
theorem Inv.drop_null {s : State} {ps : List Ptr} (inv : s.Inv (.null :: ps)) : s.Inv ps := by
  refine inv.of_counts rfl rfl rfl rfl ?_
  intro q ne
  rw [List.count_cons_of_ne (Ne.symm ne)]

theorem Inv.release_raw {s : State} {ps : List Ptr} {r : Nat} (inv : s.Inv (.raw r :: ps)) :
    (s.release (.object r)).Inv ps := by
  refine ⟨fun n => ?_, fun k => ?_, inv.live, inv.ranked, inv.sane, inv.unfreed⟩
  · have := inv.counted n
    rw [List.count_cons_of_ne (by simp)] at this
    exact this
  · have sum := inv.owned k
    have listed : (s.released ++ [r]).count k = s.released.count k + if r = k then 1 else 0 := by
      simp [List.count_append, List.count_cons]
    simp only [List.count_cons, beq_iff_eq, Ptr.raw.injEq] at sum
    show ps.count (.raw k) + s.pointers.count (.raw k) + s.payloads.count k +
      (s.released ++ [r]).count k = s.made k
    omega

/-- The last guard of an `impl` goes away: its payload and its `next` are in hand. -/
theorem Inv.delete_impl {s : State} {ps : List Ptr} {n : Nat} {i : Impl}
    (inv : s.Inv (.impl n :: ps)) (h : s.impls.get n = some i) (last : i.refs = 1) :
    ((s.dropImpl n).dispose i.payload).Inv (i.pointers ++ ps) := by
  have keep : ∀ m j, (s.dropImpl n).impls.get m = some j → s.impls.get m = some j := by
    intro m j hj
    by_cases same : n = m
    · subst same
      rw [dropImpl, Slots.get_set_same h] at hj
      cases hj
    · rwa [dropImpl, Slots.get_set_ne _ same] at hj
  obtain ⟨rank, ranked⟩ := inv.ranked
  have counted : ∀ m, (i.pointers ++ ps).count (.impl m) + (s.dropImpl n).pointers.count (.impl m) =
      (s.dropImpl n).refsAt m := by
    intro m
    have sum := inv.counted m
    have drop := count_dropImpl (.impl m) h
    have refs := refsAt_of_get h
    rw [refsAt_dropImpl h, List.count_append]
    simp only [List.count_cons, beq_iff_eq, Ptr.impl.injEq] at sum
    split
    next same =>
      subst same
      simp only [if_true] at sum
      omega
    next other =>
      rw [if_neg other] at sum
      omega
  have owned : ∀ r, (i.pointers ++ ps).count (.raw r) + (s.dropImpl n).pointers.count (.raw r) +
      (s.dropImpl n).payloads.count r + (s.released.count r + i.payload.resources.count r) =
        s.made r := by
    intro r
    have sum := inv.owned r
    have drop := count_dropImpl (.raw r) h
    have moved := payloads_dropImpl h r
    rw [List.count_cons_of_ne (by simp)] at sum
    rw [List.count_append]
    omega
  have live := fun m j (hj : (s.dropImpl n).impls.get m = some j) => inv.live m j (keep m j hj)
  have lower : (s.dropImpl n).Ranked rank := fun m j k hj => ranked m j k (keep m j hj)
  have sane := fun m j k (hj : (s.dropImpl n).impls.get m = some j) => inv.sane m j k (keep m j hj)
  -- the object moves from the payloads to what is released, by either class that holds one
  have freed : ∀ r, i.payload.resources = [r] →
      ((s.dropImpl n).release (.object r)).Inv (i.pointers ++ ps) := by
    intro r held
    rw [held] at owned
    refine ⟨counted, fun k => ?_, live, ⟨rank, lower⟩, sane, inv.unfreed⟩
    have listed : (s.released ++ [r]).count k = s.released.count k + [r].count k :=
      List.count_append
    exact (congrArg (_ + ·) listed).trans (owned k)
  cases hp : i.payload with
  | object r => exact freed r (by rw [hp]; rfl)
  | free obj =>
    cases obj with
    | object r => exact freed r (by rw [hp]; rfl)
    | impl k => exact absurd hp (inv.sane n i k h)
  | guard p =>
    rw [hp] at owned
    exact ⟨counted, owned, live, ⟨rank, lower⟩, sane, inv.unfreed⟩

/-- Replacing an `impl` by one with the same payload and `next`. -/
theorem Inv.set_refs {s : State} {ps ps' : List Ptr} {n k : Nat} {i : Impl} (inv : s.Inv ps)
    (h : s.impls.get n = some i) (pos : k ≠ 0)
    (impl : ∀ m, ps'.count (.impl m) + s.refsAt m =
      ps.count (.impl m) + if n = m then k else s.refsAt m)
    (raw : ∀ r, ps'.count (.raw r) = ps.count (.raw r)) :
    (s.setImpl n { i with refs := k }).Inv ps' := by
  have same : ∀ m j, (s.setImpl n { i with refs := k }).impls.get m = some j →
      ∃ j', s.impls.get m = some j' ∧ j.next = j'.next ∧ j.payload = j'.payload ∧
        (j.refs = k ∨ j.refs = j'.refs) := by
    intro m j hj
    by_cases eq : n = m
    · subst eq
      rw [setImpl, Slots.get_set_same h] at hj
      cases hj
      exact ⟨i, h, rfl, rfl, .inl rfl⟩
    · rw [setImpl, Slots.get_set_ne _ eq] at hj
      exact ⟨j, hj, rfl, rfl, .inr rfl⟩
  have pointers : ∀ q, (s.setImpl n { i with refs := k }).pointers.count q = s.pointers.count q :=
    fun q => Nat.add_right_cancel (count_setImpl q h { i with refs := k })
  obtain ⟨rank, ranked⟩ := inv.ranked
  refine ⟨fun m => ?_, fun r => ?_, ?_, ⟨rank, ?_⟩, ?_, inv.unfreed⟩
  · have sum := inv.counted m
    have change := impl m
    have refs := refsAt_setImpl h { i with refs := k } m
    simp only at refs
    rw [pointers, refs]
    omega
  · rw [pointers, raw, payloads_setImpl h { i with refs := k } rfl]
    exact inv.owned r
  · intro m j hj
    obtain ⟨j', hj', -, -, refs | refs⟩ := same m j hj
    · omega
    · have := inv.live m j' hj'
      omega
  · intro m j x hj hx
    obtain ⟨j', hj', next, payload, -⟩ := same m j hj
    rw [Impl.pointers, next, payload] at hx
    exact ranked m j' x hj' hx
  · intro m j x hj
    obtain ⟨j', hj', -, payload, -⟩ := same m j hj
    rw [payload]
    exact inv.sane m j' x hj'

theorem pointers_length (i : Impl) : i.pointers.length ≤ 2 := by
  obtain ⟨refs, next, payload⟩ := i
  cases payload <;> simp [Impl.pointers, Payload.pointers]

/-- `~guard` returns, and every pointer in hand is let go of. -/
theorem destroyLoop_spec {fuel : Nat} {s : State} {ps : List Ptr} (inv : s.Inv ps)
    (enough : ps.length + (s.impls.gather Impl.pointers).length < fuel) :
    ∃ s', destroyLoop fuel s ps = some s' ∧ s'.Inv [] ∧ s'.guards = s.guards := by
  induction fuel generalizing s ps with
  | zero => omega
  | succ fuel ih =>
    cases ps with
    | nil => exact ⟨s, rfl, inv, rfl⟩
    | cons p ps =>
      simp only [List.length_cons] at enough
      cases p with
      | null => exact ih inv.drop_null (by omega)
      | raw r => exact ih inv.release_raw (show ps.length + (s.impls.gather _).length < fuel by omega)
      | impl n =>
        obtain ⟨i, h⟩ := inv.get_of_mem (.inl List.mem_cons_self)
        simp only [destroyLoop, h]
        split
        next last =>
          have deleted := inv.delete_impl h last
          have freed := Slots.length_gather_set Impl.pointers h none
          simp only [Option.elim_none, List.length_nil] at freed
          have heap : ((s.dropImpl n).dispose i.payload).impls = s.impls.set n none := by
            cases hp : i.payload with
            | object r => rfl
            | free obj => cases obj <;> rfl
            | guard p => rfl
          have guards : ((s.dropImpl n).dispose i.payload).guards = s.guards := by
            cases hp : i.payload with
            | object r => rfl
            | free obj => cases obj <;> rfl
            | guard p => rfl
          obtain ⟨s', eq, inv', same⟩ := ih deleted (by
            rw [heap, List.length_append]
            omega)
          exact ⟨s', eq, inv', same.trans guards⟩
        next more =>
          have pos := inv.live n i h
          have kept := Slots.length_gather_set Impl.pointers h (some { i with refs := i.refs - 1 })
          have counted : (s.setImpl n { i with refs := i.refs - 1 }).Inv ps := by
            refine inv.set_refs h (by omega) (fun m => ?_) (fun r => ?_)
            · have refs := refsAt_of_get h
              simp only [List.count_cons, beq_iff_eq, Ptr.impl.injEq]
              split
              next same =>
                subst same
                omega
              next => omega
            · rw [List.count_cons_of_ne (by simp)]
          exact ih counted (by
            simp only [setImpl]
            simp only [Option.elim_some, Impl.pointers] at kept ⊢
            omega)

theorem destroyPtr_spec {s : State} {p : Ptr} (inv : s.Inv [p]) :
    ∃ s', s.destroyPtr p = some s' ∧ s'.Inv [] ∧ s'.guards = s.guards := by
  have size := Slots.length_gather_le pointers_length s.impls
  exact destroyLoop_spec inv (by
    rw [List.length_singleton]
    omega)

theorem Inv.take_guard {s : State} {ps : List Ptr} {a : Nat} {p : Ptr} (inv : s.Inv ps)
    (h : s.guards.get a = some p) : (s.setGuard a .null).Inv (p :: ps) := by
  refine inv.of_counts rfl rfl rfl rfl ?_
  intro q ne
  have moved := count_setGuard q h .null
  simp only [List.count_cons, List.count_nil, beq_iff_eq, if_neg (Ne.symm ne)] at moved ⊢
  omega

theorem Inv.put_guard {s : State} {ps : List Ptr} {a : Nat} {p : Ptr} (inv : s.Inv (p :: ps))
    (h : s.guards.get a = some .null) : (s.setGuard a p).Inv ps := by
  refine inv.of_counts rfl rfl rfl rfl ?_
  intro q ne
  have moved := count_setGuard q h p
  simp only [List.count_cons, List.count_nil, beq_iff_eq, if_neg (Ne.symm ne)] at moved ⊢
  omega

theorem Inv.drop_guard {s : State} {ps : List Ptr} {a : Nat} {p : Ptr} (inv : s.Inv ps)
    (h : s.guards.get a = some p) : (s.dropGuard a).Inv (p :: ps) := by
  refine inv.of_counts rfl rfl rfl rfl ?_
  intro q _
  have moved := count_dropGuard q h
  simp only [List.count_cons, List.count_nil] at moved ⊢
  omega

theorem Inv.add_guard {s : State} {ps : List Ptr} {p : Ptr} (inv : s.Inv (p :: ps)) :
    (s.addGuard p).Inv ps := by
  refine inv.of_counts rfl rfl rfl rfl ?_
  intro q _
  rw [count_addGuard]
  simp only [List.count_cons, List.count_nil]
  omega

theorem Inv.in_hand_null {s : State} {ps : List Ptr} (inv : s.Inv ps) : s.Inv (.null :: ps) := by
  refine inv.of_counts rfl rfl rfl rfl ?_
  intro q ne
  rw [List.count_cons_of_ne (Ne.symm ne)]

/-- A new resource is in hand. -/
theorem Inv.make {s : State} {ps : List Ptr} (inv : s.Inv ps) :
    Inv { s with resources := s.resources + 1 } (.raw s.resources :: ps) := by
  refine ⟨fun n => ?_, fun r => ?_, inv.live, inv.ranked, inv.sane, inv.unfreed⟩
  · rw [List.count_cons_of_ne (by simp)]
    exact inv.counted n
  · have sum := inv.owned r
    have next : made { s with resources := s.resources + 1 } r =
        s.made r + if s.resources = r then 1 else 0 := by
      unfold made
      simp only
      split <;> split <;> split <;> omega
    rw [next, ← sum]
    simp only [List.count_cons, beq_iff_eq, Ptr.raw.injEq]
    show _ + s.pointers.count _ + s.payloads.count _ + s.released.count _ = _
    omega

/-- No pointer leads to the next `impl` to be made. -/
theorem Inv.fresh {s : State} {ps : List Ptr} (inv : s.Inv ps) {n m : Nat} {i : Impl}
    (h : s.impls.get n = some i) (hm : .impl m ∈ i.pointers) : m ≠ s.impls.next := by
  obtain ⟨j, hj⟩ := inv.get_of_mem (.inr (mem_pointers.mpr (.inr ⟨n, i, h, hm⟩)))
  exact Nat.ne_of_lt (Slots.lt_next hj)

/-- A resource in hand is wrapped in a new `impl`. -/
theorem Inv.wrap {s : State} {ps : List Ptr} {r : Nat} {payload : Payload}
    (inv : s.Inv (.raw r :: ps)) (resources : payload.resources = [r])
    (pointers : payload.pointers = []) (sane : ∀ k, payload ≠ .free (.impl k)) :
    (s.newImpl ⟨1, .null, payload⟩).Inv (.impl s.impls.next :: ps) := by
  have bare : (⟨1, .null, payload⟩ : Impl).pointers = [.null] := by
    rw [Impl.pointers, pointers]
    rfl
  have get : ∀ n i, (s.newImpl ⟨1, .null, payload⟩).impls.get n = some i →
      n = s.impls.next ∧ i = ⟨1, .null, payload⟩ ∨ n ≠ s.impls.next ∧ s.impls.get n = some i := by
    intro n i hi
    by_cases new : n = s.impls.next
    · subst new
      rw [newImpl, Slots.get_add_same] at hi
      exact .inl ⟨rfl, (Option.some.inj hi).symm⟩
    · rw [newImpl, Slots.get_add_ne _ _ new] at hi
      exact .inr ⟨new, hi⟩
  obtain ⟨rank, ranked⟩ := inv.ranked
  refine ⟨fun n => ?_, fun k => ?_, ?_, ⟨fun m => if m = s.impls.next then 0 else rank m, ?_⟩, ?_,
    inv.unfreed⟩
  · have sum := inv.counted n
    have unused : s.refsAt s.impls.next = 0 := by
      rw [refsAt, Slots.get_next]
      rfl
    rw [count_newImpl, bare, refsAt_newImpl]
    simp only [List.count_cons, List.count_nil, beq_iff_eq, Ptr.impl.injEq, reduceCtorEq, if_false]
      at sum ⊢
    split
    next same =>
      subst same
      rw [if_pos rfl]
      omega
    next other =>
      rw [if_neg (Ne.symm other)]
      omega
  · have sum := inv.owned k
    have listed := payloads_newImpl s ⟨1, .null, payload⟩ k
    rw [count_newImpl, bare, listed]
    simp only [resources]
    simp only [List.count_cons, List.count_nil, beq_iff_eq, Ptr.raw.injEq, reduceCtorEq, if_false]
      at sum ⊢
    show _ + s.released.count k = s.made k
    omega
  · intro n i hi
    rcases get n i hi with ⟨-, rfl⟩ | ⟨-, hi⟩
    · exact Nat.one_ne_zero
    · exact inv.live n i hi
  · intro n i m hi hm
    rcases get n i hi with ⟨-, rfl⟩ | ⟨old, hi⟩
    · rw [bare] at hm
      cases List.mem_singleton.mp hm
    · simp only [if_neg (inv.fresh hi hm), if_neg old]
      exact ranked n i m hi hm
  · intro n i k hi
    rcases get n i hi with ⟨-, rfl⟩ | ⟨-, hi⟩
    · exact sane k
    · exact inv.sane n i k hi

/-- `share` upgrades a tagged pointer in place. -/
theorem Inv.upgrade {s : State} {ps : List Ptr} {a r : Nat} (inv : s.Inv ps)
    (h : s.guards.get a = some (.raw r)) :
    ((s.newImpl ⟨1, .null, .free (.object r)⟩).setGuard a (.impl s.impls.next)).Inv ps := by
  have wrapped : ((s.setGuard a .null).newImpl ⟨1, .null, .free (.object r)⟩).Inv
      (.impl s.impls.next :: ps) := (inv.take_guard h).wrap rfl rfl (by simp)
  have empty : ((s.setGuard a .null).newImpl ⟨1, .null, .free (.object r)⟩).guards.get a =
      some .null := Slots.get_set_same h _
  have put := wrapped.put_guard empty
  simpa [setGuard, newImpl, Slots.set] using put

theorem Inv.shareImpl {s : State} {n : Nat} {i : Impl} (inv : s.Inv []) (h : s.impls.get n = some i) :
    ∃ s', s.shareImpl n = some s' ∧ s'.Inv [] := by
  refine ⟨(s.setImpl n { i with refs := i.refs + 1 }).addGuard (.impl n), by simp [State.shareImpl, h], ?_⟩
  apply Inv.add_guard
  refine inv.set_refs h (Nat.succ_ne_zero _) (fun m => ?_) (fun r => ?_)
  · have refs := refsAt_of_get h
    simp only [List.count_cons, List.count_nil, beq_iff_eq, Ptr.impl.injEq]
    split
    next same =>
      subst same
      omega
    next => omega
  · simp

end State

end Guard

end XiRuntime
