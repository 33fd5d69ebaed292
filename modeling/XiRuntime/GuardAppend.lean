import XiRuntime.GuardOwnership

namespace XiRuntime

namespace Guard

namespace State

theorem count_write {s : State} {l : Loc} {p : Ptr} (q : Ptr) (h : s.read l = some p) (p' : Ptr) :
    (s.write l p').pointers.count q + [p].count q = s.pointers.count q + [p'].count q := by
  cases l with
  | guard a => exact count_setGuard q h p'
  | next n =>
    obtain ⟨i, hi, rfl⟩ := Option.map_eq_some_iff.mp h
    have moved := count_setImpl q hi { i with next := p' }
    simp only [write, hi]
    simp only [Impl.pointers, List.count_append] at moved
    omega

theorem payloads_write (s : State) (l : Loc) (p : Ptr) (r : Nat) :
    (s.write l p).payloads.count r = s.payloads.count r := by
  cases l with
  | guard a => rfl
  | next n =>
    cases hi : s.impls.get n with
    | none => simp only [write, hi]
    | some i =>
      simp only [write, hi]
      exact payloads_setImpl hi { i with next := p } rfl r

/-- A write changes one `next` at most. -/
theorem get_write {s : State} {l : Loc} {p : Ptr} {x : Nat} {j : Impl}
    (h : (s.write l p).impls.get x = some j) :
    ∃ i, s.impls.get x = some i ∧ j.refs = i.refs ∧ j.payload = i.payload ∧
      (j.next = i.next ∨ l = .next x ∧ j.next = p) := by
  cases l with
  | guard a => exact ⟨j, h, rfl, rfl, .inl rfl⟩
  | next n =>
    cases hi : s.impls.get n with
    | none =>
      simp only [write, hi] at h
      exact ⟨j, h, rfl, rfl, .inl rfl⟩
    | some i =>
      simp only [write, hi] at h
      by_cases same : n = x
      · subst same
        rw [setImpl, Slots.get_set_same hi] at h
        cases h
        exact ⟨i, hi, rfl, rfl, .inr ⟨rfl, rfl⟩⟩
      · rw [setImpl, Slots.get_set_ne _ same] at h
        exact ⟨j, h, rfl, rfl, .inl rfl⟩

theorem get_write_ne {s : State} {l : Loc} (p : Ptr) {x : Nat} (ne : l ≠ .next x) :
    (s.write l p).impls.get x = s.impls.get x := by
  cases l with
  | guard a => rfl
  | next n =>
    have other : n ≠ x := fun same => ne (by rw [same])
    cases hi : s.impls.get n with
    | none => simp only [write, hi]
    | some i =>
      simp only [write, hi]
      exact Slots.get_set_ne _ other _

theorem refsAt_write (s : State) (l : Loc) (p : Ptr) (m : Nat) :
    (s.write l p).refsAt m = s.refsAt m := by
  cases l with
  | guard a => rfl
  | next n =>
    cases hi : s.impls.get n with
    | none => simp only [write, hi]
    | some i =>
      simp only [write, hi]
      have refs := refsAt_setImpl hi { i with next := p } m
      rw [refs]
      split
      next same =>
        subst same
        exact (refsAt_of_get hi).symm
      next => rfl

theorem write_rest (s : State) (l : Loc) (p : Ptr) :
    (s.write l p).released = s.released ∧ (s.write l p).resources = s.resources ∧
      (s.write l p).freedImpls = s.freedImpls := by
  cases l with
  | guard a => exact ⟨rfl, rfl, rfl⟩
  | next n =>
    cases hi : s.impls.get n with
    | none => simp [write, hi]
    | some i => simp [write, hi, setImpl]

/-- `append` has come to the guard `l`. The impls on the way, `on`, are pointed to once,
and only from there. -/
structure Walk (s : State) (g : Ptr) (l : Loc) (on : Nat → Prop) : Prop where
  inv : s.Inv [g]
  last : ∀ n, l = .next n → on n
  unshared : ∀ m, on m → s.refsAt m = 1
  closed : ∀ m n i, on m → s.impls.get n = some i → .impl m ∈ i.pointers → on n
  apart : ∀ m, on m → g ≠ .impl m

/-- The end of the chain takes the guard. The impls on the way rise above it, as nothing
else points to them. -/
theorem Walk.finish {s : State} {g : Ptr} {l : Loc} {on : Nat → Prop} (walk : s.Walk g l on)
    (h : s.read l = some .null) : (s.write l g).Inv [] := by
  classical
  obtain ⟨inv, last, -, closed, apart⟩ := walk
  obtain ⟨rank, ranked⟩ := inv.ranked
  obtain ⟨released, resources, freed⟩ := write_rest s l g
  refine ⟨fun n => ?_, fun r => ?_, ?_, ?_, ?_, freed.trans inv.unfreed⟩
  · have sum := inv.counted n
    have moved := count_write (.impl n) h g
    rw [refsAt_write]
    simp only [List.count_cons, List.count_nil, beq_iff_eq, reduceCtorEq, if_false] at sum moved ⊢
    omega
  · have sum := inv.owned r
    have moved := count_write (.raw r) h g
    rw [payloads_write, released, made, resources]
    simp only [List.count_cons, List.count_nil, beq_iff_eq, reduceCtorEq, if_false] at sum moved ⊢
    unfold made at sum
    omega
  · intro n i hi
    obtain ⟨j, hj, refs, -⟩ := get_write hi
    rw [refs]
    exact inv.live n j hj
  · by_cases target : ∃ k, g = .impl k
    · obtain ⟨k, rfl⟩ := target
      refine ⟨fun n => if on n then rank n + (rank k + 1) else rank n, fun n i m hi hm => ?_⟩
      obtain ⟨j, hj, -, payload, next⟩ := get_write hi
      have old : .impl m ∈ j.pointers → (if on m then rank m + (rank k + 1) else rank m) <
          if on n then rank n + (rank k + 1) else rank n := by
        intro hm
        have lower := ranked n j m hj hm
        by_cases here : on m
        · rw [if_pos here, if_pos (closed m n j here hj hm)]
          omega
        · rw [if_neg here]
          split <;> omega
      rcases next with next | ⟨rfl, next⟩
      · rw [Impl.pointers, payload, next] at hm
        exact old hm
      · rw [Impl.pointers, payload, next] at hm
        rcases List.mem_append.mp hm with hm | hm
        · exact old (List.mem_append_left _ hm)
        · cases List.mem_singleton.mp hm
          have below : ¬ on k := fun here => apart k here rfl
          simp only [if_pos (last n rfl), if_neg below]
          omega
    · refine ⟨rank, fun n i m hi hm => ?_⟩
      obtain ⟨j, hj, -, payload, next⟩ := get_write hi
      rcases next with next | ⟨-, next⟩
      · rw [Impl.pointers, payload, next] at hm
        exact ranked n j m hj hm
      · rw [Impl.pointers, payload, next] at hm
        rcases List.mem_append.mp hm with hm | hm
        · exact ranked n j m hj (List.mem_append_left _ hm)
        · exact absurd ⟨m, (List.mem_singleton.mp hm).symm⟩ target
  · intro n i k hi
    obtain ⟨j, hj, -, payload, -⟩ := get_write hi
    rw [payload]
    exact inv.sane n j k hj

/-- One more `impl` on the way, which nobody shares. -/
theorem Walk.pass {s : State} {g : Ptr} {l : Loc} {on : Nat → Prop} {n : Nat} {i : Impl}
    (walk : s.Walk g l on) (h : s.read l = some (.impl n)) (hi : s.impls.get n = some i)
    (unshared : i.refs = 1) (ne : .impl n ≠ g) : s.Walk g (.next n) (fun m => on m ∨ m = n) := by
  have refs : s.refsAt n = 1 := (refsAt_of_get hi).trans unshared
  refine ⟨walk.inv, ?_, ?_, ?_, ?_⟩
  · intro m hm
    cases hm
    exact .inr rfl
  · rintro m (here | rfl)
    · exact walk.unshared m here
    · exact refs
  · rintro m x j (here | rfl) hj hm
    · exact .inl (walk.closed m x j here hj hm)
    · -- the guard at `l` is the only one that points here
      have sum := walk.inv.counted m
      rw [refs] at sum
      cases l with
      | guard a =>
        have one : 0 < (s.guards.gather (fun p => [p])).count (.impl m) :=
          List.count_pos_iff.mpr (Slots.mem_gather.mpr ⟨a, _, h, List.mem_singleton_self _⟩)
        have two : 0 < (s.impls.gather Impl.pointers).count (.impl m) :=
          List.count_pos_iff.mpr (Slots.mem_gather.mpr ⟨x, j, hj, hm⟩)
        rw [pointers, List.count_append] at sum
        omega
      | next y =>
        obtain ⟨k, hk, points⟩ := Option.map_eq_some_iff.mp h
        by_cases same : y = x
        · subst same
          exact .inl (walk.last y rfl)
        · have held : .impl m ∈ k.pointers := by simp [Impl.pointers, points]
          have two := Slots.two_le_count same hk hj held hm
          rw [pointers, List.count_append] at sum
          omega
  · rintro m (here | rfl)
    · exact walk.apart m here
    · exact Ne.symm ne

/-- The state after `append` has put a new `impl` before a shared one. -/
def reroot (s : State) (l : Loc) (n : Nat) (i : Impl) : State :=
  ((s.setImpl n { i with next := .null }).newImpl ⟨1, i.next, .guard (.impl n)⟩).write l
    (.impl s.impls.next)

/-- What an `impl` of the new state was. -/
theorem get_reroot {s : State} {l : Loc} {n : Nat} {i : Impl} (hi : s.impls.get n = some i)
    {x : Nat} {j : Impl} (h : (s.reroot l n i).impls.get x = some j) (new : l ≠ .next s.impls.next) :
    x = s.impls.next ∧ j = ⟨1, i.next, .guard (.impl n)⟩ ∨
      x ≠ s.impls.next ∧ ∃ k, s.impls.get x = some k ∧ j.refs = k.refs ∧ j.payload = k.payload ∧
        (j.next = k.next ∨ j.next = .null ∨ l = .next x ∧ j.next = .impl s.impls.next) := by
  obtain ⟨j₁, h₁, refs, payload, next⟩ := get_write h
  have size : (s.setImpl n { i with next := .null }).impls.next = s.impls.next := by
    simp [setImpl, Slots.set, Slots.next]
  by_cases fresh : x = s.impls.next
  · subst fresh
    refine .inl ⟨rfl, ?_⟩
    rw [newImpl, ← size, Slots.get_add_same] at h₁
    cases h₁
    obtain ⟨r, nx, pl⟩ := j
    rcases next with next | ⟨here, -⟩
    · simp only at refs payload next
      rw [refs, payload, next]
    · exact absurd here new
  · refine .inr ⟨fresh, ?_⟩
    rw [newImpl, Slots.get_add_ne _ _ (by rw [size]; exact fresh)] at h₁
    by_cases same : n = x
    · subst same
      rw [setImpl, Slots.get_set_same hi] at h₁
      cases h₁
      refine ⟨i, hi, refs, payload, ?_⟩
      rcases next with next | next
      · exact .inr (.inl next)
      · exact .inr (.inr next)
    · rw [setImpl, Slots.get_set_ne _ same] at h₁
      refine ⟨j₁, h₁, refs, payload, ?_⟩
      rcases next with next | next
      · exact .inl next
      · exact .inr (.inr next)

section Reroot

variable {s : State} {l : Loc} {n : Nat} {i : Impl}

/-- The new `impl` takes over the pointer to the shared one and its `next`. -/
theorem count_reroot (h : s.read l = some (.impl n)) (hi : s.impls.get n = some i)
    (other : l ≠ .next n) (q : Ptr) (ne : q ≠ .null) :
    (s.reroot l n i).pointers.count q = s.pointers.count q + [Ptr.impl s.impls.next].count q := by
  have emptied := count_setImpl q hi { i with next := .null }
  have added := count_newImpl (s.setImpl n { i with next := .null }) q
    ⟨1, i.next, .guard (.impl n)⟩
  have here : ((s.setImpl n { i with next := .null }).newImpl
      ⟨1, i.next, .guard (.impl n)⟩).read l = some (.impl n) := by
    cases l with
    | guard a => exact h
    | next y =>
      obtain ⟨k, hk, points⟩ := Option.map_eq_some_iff.mp h
      have apart : n ≠ y := fun same => other (by rw [same])
      have kept : (s.setImpl n { i with next := .null }).impls.get y = some k := by
        rw [setImpl, Slots.get_set_ne _ apart]
        exact hk
      rw [read, newImpl, Slots.get_add_ne _ _ (Nat.ne_of_lt (Slots.lt_next kept)), kept, Option.map_some,
        points]
  have moved := count_write q here (.impl s.impls.next)
  rw [reroot]
  simp only [Impl.pointers, Payload.pointers, List.count_append, List.count_cons, List.count_nil,
    beq_iff_eq, if_neg (Ne.symm ne)] at emptied added moved ⊢
  omega

theorem refsAt_reroot (hi : s.impls.get n = some i) (m : Nat) :
    (s.reroot l n i).refsAt m = if m = s.impls.next then 1 else s.refsAt m := by
  have size : (s.setImpl n { i with next := .null }).impls.next = s.impls.next := by
    simp [setImpl, Slots.set, Slots.next]
  rw [reroot, refsAt_write, refsAt_newImpl, size]
  split
  next => rfl
  next =>
    rw [refsAt_setImpl hi]
    split
    next same =>
      subst same
      exact (refsAt_of_get hi).symm
    next => rfl

theorem payloads_reroot (hi : s.impls.get n = some i) (r : Nat) :
    (s.reroot l n i).payloads.count r = s.payloads.count r := by
  rw [reroot, payloads_write, payloads_newImpl, payloads_setImpl hi { i with next := .null } rfl]
  rfl

/-- The new `impl` points to the shared one and to where that one pointed; the others point to
where they did, or to the new one from the place that was rerooted. -/
theorem points_reroot (hi : s.impls.get n = some i) (new : l ≠ .next s.impls.next) {x m : Nat}
    {j : Impl} (hj : (s.reroot l n i).impls.get x = some j) (hm : .impl m ∈ j.pointers) :
    x = s.impls.next ∧ (m = n ∨ .impl m ∈ i.pointers) ∨
      x ≠ s.impls.next ∧ ((∃ k, s.impls.get x = some k ∧ .impl m ∈ k.pointers) ∨
        l = .next x ∧ m = s.impls.next) := by
  rcases get_reroot hi hj new with ⟨rfl, rfl⟩ | ⟨there, k, hk, -, payload, next⟩
  · refine .inl ⟨rfl, ?_⟩
    rcases List.mem_append.mp hm with hm | hm
    · cases List.mem_singleton.mp hm
      exact .inl rfl
    · exact .inr (List.mem_append_right _ hm)
  · refine .inr ⟨there, ?_⟩
    rw [Impl.pointers, payload] at hm
    rcases List.mem_append.mp hm with hm | hm
    · exact .inl ⟨k, hk, List.mem_append_left _ hm⟩
    · rcases next with next | next | ⟨here, next⟩
      · rw [next] at hm
        exact .inl ⟨k, hk, List.mem_append_right _ hm⟩
      · rw [next] at hm
        cases List.mem_singleton.mp hm
      · rw [next] at hm
        cases List.mem_singleton.mp hm
        exact .inr ⟨here, rfl⟩

theorem ranked_reroot {rank : Nat → Nat} (ranked : s.Ranked rank) (h : s.read l = some (.impl n))
    (hi : s.impls.get n = some i) (new : l ≠ .next s.impls.next)
    (fresh : ∀ x k m, s.impls.get x = some k → .impl m ∈ k.pointers → m ≠ s.impls.next) :
    (s.reroot l n i).Ranked (fun m => if m = s.impls.next then 2 * rank n + 1 else 2 * rank m) := by
  have old : n ≠ s.impls.next := Nat.ne_of_lt (Slots.lt_next hi)
  intro x j m hj hm
  rcases points_reroot hi new hj hm with ⟨rfl, rfl | points⟩ | ⟨there, ⟨k, hk, points⟩ | ⟨rfl, rfl⟩⟩
  · simp only [if_true, if_neg old]
    omega
  · have lower := ranked n i m hi points
    simp only [if_true, if_neg (fresh n i m hi points)]
    omega
  · have lower := ranked x k m hk points
    simp only [if_neg (fresh x k m hk points), if_neg there]
    omega
  · -- the place that was rerooted pointed to the shared `impl`
    obtain ⟨k, hk, points⟩ := Option.map_eq_some_iff.mp h
    have lower := ranked x k n hk (by simp [Impl.pointers, points])
    simp only [if_true, if_neg there]
    omega

/-- A shared `impl` is put behind a new one. -/
theorem Walk.reroot {g : Ptr} {on : Nat → Prop} (walk : s.Walk g l on)
    (h : s.read l = some (.impl n)) (hi : s.impls.get n = some i) (shared : i.refs ≠ 1) :
    (s.reroot l n i).Walk g (.next s.impls.next) (fun m => on m ∨ m = s.impls.next) := by
  have refs := refsAt_of_get hi
  have off : ¬ on n := fun here => shared (refs.symm.trans (walk.unshared n here))
  have other : l ≠ .next n := fun here => off (walk.last n here)
  have new : l ≠ .next s.impls.next := by
    intro here
    rw [here, read, Slots.get_next] at h
    cases h
  have fresh := fun x k m hk hm => walk.inv.fresh (n := x) (i := k) (m := m) hk hm
  have unused : s.refsAt s.impls.next = 0 := by
    rw [refsAt, Slots.get_next]
    rfl
  obtain ⟨rank, ranked⟩ := walk.inv.ranked
  obtain ⟨released, resources, freed⟩ := write_rest
    ((s.setImpl n { i with next := .null }).newImpl ⟨1, i.next, .guard (.impl n)⟩) l
    (.impl s.impls.next)
  refine ⟨⟨fun m => ?_, fun r => ?_, ?_, ⟨_, ranked_reroot ranked h hi new fresh⟩, ?_,
    freed.trans walk.inv.unfreed⟩, ?_, ?_, ?_, ?_⟩
  · have sum := walk.inv.counted m
    rw [count_reroot h hi other _ (by simp), refsAt_reroot hi, ← Nat.add_assoc, sum]
    by_cases same : m = s.impls.next
    · subst same
      simp [unused]
    · simp [same, Ne.symm same]
  · have sum := walk.inv.owned r
    rw [count_reroot h hi other _ (by simp), payloads_reroot hi]
    simp only [List.count_cons, List.count_nil, beq_iff_eq, reduceCtorEq, if_false] at sum ⊢
    have kept : (s.reroot l n i).released = s.released := released
    have made' : (s.reroot l n i).made r = s.made r := by
      unfold made
      exact congrArg (fun k => if r < k then 1 else 0) resources
    rw [kept, made']
    omega
  · intro x j hj
    rcases get_reroot hi hj new with ⟨-, rfl⟩ | ⟨-, k, hk, same, -⟩
    · exact Nat.one_ne_zero
    · rw [same]
      exact walk.inv.live x k hk
  · intro x j y hj
    rcases get_reroot hi hj new with ⟨-, rfl⟩ | ⟨-, k, hk, -, payload, -⟩
    · simp
    · rw [payload]
      exact walk.inv.sane x k y hk
  · intro m hm
    cases hm
    exact .inr rfl
  · rintro m (here | rfl)
    · have one := walk.unshared m here
      rw [refsAt_reroot hi, if_neg (by rintro rfl; omega)]
      exact one
    · rw [refsAt_reroot hi, if_pos rfl]
  · rintro m x j here hj hm
    rcases points_reroot hi new hj hm with ⟨rfl, -⟩ | ⟨there, ⟨k, hk, points⟩ | ⟨rfl, -⟩⟩
    · exact .inr rfl
    · rcases here with here | rfl
      · exact .inl (walk.closed m x k here hk points)
      · exact absurd rfl (fresh x k _ hk points)
    · exact .inl (walk.last x rfl)
  · rintro m (here | rfl)
    · exact walk.apart m here
    · intro same
      have sum := walk.inv.counted s.impls.next
      rw [unused, same] at sum
      simp at sum

end Reroot

/-- Every chain from a stored pointer ends. -/
theorem Inv.chain {s : State} {ps : List Ptr} (inv : s.Inv ps) {p : Ptr} (h : p ∈ s.pointers) :
    ∃ ns e, Chain s p ns e ∧ (e = .null ∨ ∃ r, e = .raw r) := by
  obtain ⟨rank, ranked⟩ := inv.ranked
  have each : ∀ k n, rank n < k → .impl n ∈ s.pointers →
      ∃ ns e, Chain s (.impl n) ns e ∧ (e = .null ∨ ∃ r, e = .raw r) := by
    intro k
    induction k with
    | zero =>
      intro n below
      omega
    | succ k ih =>
      intro n below hn
      obtain ⟨i, hi⟩ := inv.get_of_mem (.inr hn)
      have held : i.next ∈ i.pointers := List.mem_append_right _ (List.mem_singleton_self _)
      cases hx : i.next with
      | null => exact ⟨[n], .null, .impl hi (by rw [hx]; exact .null), .inl rfl⟩
      | raw r => exact ⟨[n], .raw r, .impl hi (by rw [hx]; exact .raw r), .inr ⟨r, rfl⟩⟩
      | impl m =>
        rw [hx] at held
        have lower := ranked n i m hi held
        obtain ⟨ns, e, chain, ends⟩ := ih m (by omega) (mem_pointers.mpr (.inr ⟨n, i, hi, held⟩))
        exact ⟨n :: ns, e, .impl hi (by rw [hx]; exact chain), ends⟩
  cases p with
  | null => exact ⟨[], .null, .null, .inl rfl⟩
  | raw r => exact ⟨[], .raw r, .raw r, .inr ⟨r, rfl⟩⟩
  | impl n => exact each (rank n + 1) n (Nat.lt_succ_self _) h

/-- Ranks go down along a chain. -/
theorem Chain.rank_lt {s : State} {rank : Nat → Nat} (ranked : s.Ranked rank) {p e : Ptr}
    {ns : List Nat} (chain : Chain s p ns e) {k : Nat} (below : ∀ n, p = .impl n → rank n < k) :
    ∀ x ∈ ns, rank x < k := by
  induction chain generalizing k with
  | null => simp
  | raw r => simp
  | @impl n i ns e hi _ ih =>
    have first := below n rfl
    intro x hx
    rcases List.mem_cons.mp hx with rfl | hx
    · exact first
    · have rest := ih (k := rank n) fun m hm =>
        ranked n i m hi (List.mem_append_right _ (by rw [hm]; exact List.mem_singleton_self _))
      have := rest x hx
      omega

theorem Chain.nodup {s : State} {rank : Nat → Nat} (ranked : s.Ranked rank) {p e : Ptr}
    {ns : List Nat} (chain : Chain s p ns e) : ns.Nodup := by
  induction chain with
  | null => exact List.nodup_nil
  | raw r => exact List.nodup_nil
  | @impl n i ns e hi chain ih =>
    refine List.nodup_cons.mpr ⟨fun back => ?_, ih⟩
    have := chain.rank_lt ranked (k := rank n) (fun m hm =>
      ranked n i m hi (List.mem_append_right _ (by rw [hm]; exact List.mem_singleton_self _))) n back
    omega

theorem Chain.get {s : State} {p e : Ptr} {ns : List Nat} (chain : Chain s p ns e) :
    ∀ x ∈ ns, ∃ i, s.impls.get x = some i := by
  induction chain with
  | null => simp
  | raw r => simp
  | impl hi _ ih =>
    intro x hx
    rcases List.mem_cons.mp hx with rfl | hx
    · exact ⟨_, hi⟩
    · exact ih x hx

theorem Chain.length_le {s : State} {rank : Nat → Nat} (ranked : s.Ranked rank) {p e : Ptr}
    {ns : List Nat} (chain : Chain s p ns e) : ns.length ≤ s.impls.next := by
  have inside : ns ⊆ List.range s.impls.next := by
    intro x hx
    obtain ⟨i, hi⟩ := chain.get x hx
    exact List.mem_range.mpr (Slots.lt_next hi)
  have bound := (List.subperm_of_subset (chain.nodup ranked) inside).length_le
  rwa [List.length_range] at bound

/-- A chain is the same where its impls are. -/
theorem Chain.transfer {s s' : State} {p e : Ptr} {ns : List Nat} (chain : Chain s p ns e)
    (same : ∀ x ∈ ns, s'.impls.get x = s.impls.get x) : Chain s' p ns e := by
  induction chain with
  | null => exact .null
  | raw r => exact .raw r
  | impl hi _ ih =>
    refine .impl ((same _ List.mem_cons_self).trans hi) (ih fun x hx => ?_)
    exact same x (List.mem_cons_of_mem _ hx)

theorem get_reroot_ne {s : State} {l : Loc} {n x : Nat} (i : Impl) (hl : l ≠ .next x) (hn : n ≠ x)
    (new : x ≠ s.impls.next) : (s.reroot l n i).impls.get x = s.impls.get x := by
  have size : (s.setImpl n { i with next := .null }).impls.next = s.impls.next := by
    simp [setImpl, Slots.set, Slots.next]
  rw [reroot, get_write_ne _ hl, newImpl, Slots.get_add_ne _ _ (by rw [size]; exact new), setImpl,
    Slots.get_set_ne _ hn]

theorem read_reroot {s : State} {l : Loc} {n : Nat} (i : Impl) (new : l ≠ .next s.impls.next) :
    (s.reroot l n i).read (.next s.impls.next) = some i.next := by
  have size : (s.setImpl n { i with next := .null }).impls.next = s.impls.next := by
    simp [setImpl, Slots.set, Slots.next]
  rw [read, reroot, get_write_ne _ new, newImpl]
  conv => lhs; rw [← size]
  rw [Slots.get_add_same, Option.map_some]

/-- `append` goes along the chain to its end. The induction is on the impls that are left. -/
theorem appendLoop_spec (a : Nat) {g : Ptr} {ns : List Nat} {fuel : Nat} {s : State} {l : Loc}
    {on : Nat → Prop} {p : Ptr} (walk : s.Walk g l on) (h : s.read l = some p)
    (chain : Chain s p ns .null) (distinct : ∀ n ∈ ns, g ≠ .impl n) (enough : ns.length < fuel) :
    ∃ s', appendLoop a g fuel s l = some s' ∧ s'.Inv [] := by
  induction ns generalizing fuel s l on p with
  | nil =>
    cases chain
    obtain ⟨fuel, rfl⟩ := Nat.exists_eq_succ_of_ne_zero (Nat.ne_of_gt enough)
    exact ⟨s.write l g, by simp [appendLoop, h], walk.finish h⟩
  | cons n ns ih =>
    cases chain with
    | @impl _ i _ _ hi chain =>
      obtain ⟨fuel, rfl⟩ := Nat.exists_eq_succ_of_ne_zero (Nat.ne_of_gt (Nat.zero_lt_of_lt enough))
      have ne : .impl n ≠ g := (distinct n List.mem_cons_self).symm
      have rest : ∀ m ∈ ns, g ≠ .impl m := fun m hm => distinct m (List.mem_cons_of_mem _ hm)
      have shorter : ns.length < fuel := Nat.lt_of_succ_lt_succ enough
      by_cases unshared : i.refs = 1
      · obtain ⟨s', eq, inv⟩ := ih (walk.pass h hi unshared ne) (by rw [read, hi]; rfl) chain rest shorter
        exact ⟨s', by simpa [appendLoop, h, ne, hi, unshared] using eq, inv⟩
      · have new : l ≠ .next s.impls.next := by
          intro here
          rw [here, read, Slots.get_next] at h
          cases h
        obtain ⟨rank, ranked⟩ := walk.inv.ranked
        have below := chain.rank_lt ranked (k := rank n) fun m hm =>
          ranked n i m hi (List.mem_append_right _ (by rw [hm]; exact List.mem_singleton_self _))
        have kept : Chain (s.reroot l n i) i.next ns .null := by
          apply chain.transfer
          intro x hx
          have lower := below x hx
          obtain ⟨j, hj⟩ := chain.get x hx
          refine get_reroot_ne i ?_ ?_ (Nat.ne_of_lt (Slots.lt_next hj))
          · rintro rfl
            obtain ⟨k, hk, points⟩ := Option.map_eq_some_iff.mp h
            have := ranked x k n hk (List.mem_append_right _ (by rw [points]; exact List.mem_singleton_self _))
            omega
          · rintro rfl
            omega
        obtain ⟨s', eq, inv⟩ := ih (walk.reroot h hi unshared) (read_reroot i new) kept rest shorter
        exact ⟨s', by simpa [appendLoop, h, ne, hi, unshared, reroot] using eq, inv⟩

end State

end Guard

end XiRuntime
