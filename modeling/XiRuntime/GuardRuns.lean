import XiRuntime.GuardAppend
import XiRuntime.Runs

namespace XiRuntime

namespace Guard

namespace State

theorem inv_initial : initial.Inv [] := by
  have none : ∀ n, initial.impls.get n = none := fun n => by simp [initial, Slots.empty, Slots.get]
  refine ⟨fun n => ?_, fun _ => rfl, ?_, ⟨fun _ => 0, ?_⟩, ?_, rfl⟩
  · rw [refsAt, none]
    rfl
  · intro n i h
    simp [none] at h
  · intro n i m h
    simp [none] at h
  · intro n i k h
    simp [none] at h

theorem share_spec {s : State} {a : Nat} (inv : s.Inv []) (h : (s.guards.get a).isSome) :
    ∃ s', s.share a = some s' ∧ s'.Inv [] := by
  obtain ⟨p, hp⟩ := Option.isSome_iff_exists.mp h
  cases p with
  | null => exact ⟨s.addGuard .null, by simp [share, hp], inv.in_hand_null.add_guard⟩
  | raw r =>
    have made : ((s.newImpl ⟨1, .null, .free (.object r)⟩).setGuard a (.impl s.impls.next)).impls.get
        s.impls.next = some ⟨1, .null, .free (.object r)⟩ := Slots.get_add_same _ _
    obtain ⟨s', eq, inv'⟩ := (inv.upgrade hp).shareImpl made
    exact ⟨s', by simpa [share, hp] using eq, inv'⟩
  | impl n =>
    obtain ⟨i, hi⟩ := inv.get_of_mem (.inr (mem_pointers.mpr (.inl ⟨a, hp⟩)))
    obtain ⟨s', eq, inv'⟩ := inv.shareImpl hi
    exact ⟨s', by simpa [share, hp] using eq, inv'⟩

theorem assign_spec {s : State} {a b : Nat} (inv : s.Inv []) (ha : (s.guards.get a).isSome)
    (hb : (s.guards.get b).isSome) : ∃ s', s.assign a b = some s' ∧ s'.Inv [] := by
  obtain ⟨p, hp⟩ := Option.isSome_iff_exists.mp ha
  obtain ⟨q, hq⟩ := Option.isSome_iff_exists.mp hb
  by_cases same : a = b
  · exact ⟨s, by simp [assign, hq, same], inv⟩
  · obtain ⟨t, eq, destroyed, guards⟩ := destroyPtr_spec (inv.take_guard hp)
    have hb' : t.guards.get b = some q := by
      rw [guards]
      exact (Slots.get_set_ne _ same _).trans hq
    have ha' : (t.setGuard b .null).guards.get a = some .null := by
      rw [setGuard, guards]
      exact (Slots.get_set_ne _ (Ne.symm same) _).trans (Slots.get_set_same hp _)
    exact ⟨(t.setGuard b .null).setGuard a q, by simp [assign, hp, hq, same, eq],
      (destroyed.take_guard hb').put_guard ha'⟩

/-- Two guards do not have the same tagged pointer. -/
theorem Inv.raw_ne {s : State} {a r : Nat} {g : Ptr} (inv : s.Inv [g])
    (h : s.guards.get a = some (.raw r)) : .raw r ≠ g := by
  rintro rfl
  have sum := inv.owned r
  have stored := List.count_pos_iff.mpr (mem_pointers.mpr (.inl ⟨a, h⟩))
  simp only [List.count_cons_self, List.count_nil] at sum
  unfold made at sum
  split at sum <;> omega

/-- The first step of `append` to a tagged pointer. -/
theorem walk_upgraded {s : State} {a r : Nat} {g : Ptr} (inv : s.Inv [g])
    (h : s.guards.get a = some (.raw r)) :
    ((s.newImpl ⟨1, .null, .free (.object r)⟩).setGuard a (.impl s.impls.next)).Walk g
      (.next s.impls.next) (fun m => m = s.impls.next) := by
  refine ⟨inv.upgrade h, fun n hn => by cases hn; rfl, ?_, ?_, ?_⟩
  · rintro m rfl
    show (s.newImpl _).refsAt _ = 1
    rw [refsAt_newImpl, if_pos rfl]
  · rintro m n i rfl hi hm
    by_contra old
    have there : s.impls.get n = some i := by
      rw [← hi]
      exact (Slots.get_add_ne _ _ old).symm
    exact inv.fresh there hm rfl
  · rintro m rfl rfl
    have sum := inv.counted s.impls.next
    rw [refsAt, Slots.get_next] at sum
    simp at sum

theorem append_spec {s : State} {a b : Nat} (inv : s.Inv []) (admitted : s.Admits (.append a b))
    (sound : ¬ s.FreesImpl (.append a b)) : ∃ s', s.append a b = some s' ∧ s'.Inv [] := by
  obtain ⟨ha, hb, distinct⟩ := admitted
  obtain ⟨p, hp⟩ := Option.isSome_iff_exists.mp ha
  obtain ⟨g, hg⟩ := Option.isSome_iff_exists.mp hb
  have taken := inv.take_guard hg
  by_cases empty : g = .null
  · subst empty
    exact ⟨s.setGuard b .null, by simp [append, hp, hg], taken.drop_null⟩
  have start : (s.setGuard b .null).Walk g (.guard a) (fun _ => False) :=
    ⟨taken, by simp, by simp, by simp, by simp⟩
  by_cases same : a = b
  · subst same
    have here : (s.setGuard a .null).read (.guard a) = some .null := Slots.get_set_same hg _
    obtain ⟨s', eq, inv'⟩ := appendLoop_spec a start here .null (by simp)
      (Nat.zero_lt_succ ((s.setGuard a .null).impls.next + 1))
    exact ⟨s', by simpa [append, hg, empty] using eq, inv'⟩
  have here : (s.setGuard b .null).guards.get a = some p :=
    (Slots.get_set_ne _ (Ne.symm same) _).trans hp
  obtain ⟨ns, e, chain, ends⟩ := inv.chain (mem_pointers.mpr (.inl ⟨a, hp⟩))
  rcases ends with rfl | ⟨r, rfl⟩
  · obtain ⟨rank, ranked⟩ := inv.ranked
    have bound : ns.length < (s.setGuard b .null).impls.next + 2 := by
      have := chain.length_le ranked
      show ns.length < s.impls.next + 2
      omega
    obtain ⟨s', eq, inv'⟩ := appendLoop_spec a start here (chain.transfer fun _ _ => rfl)
      (fun n hn joined => distinct p ns .null n same hp chain hn (by rw [hg, joined])) bound
    exact ⟨s', by simpa [append, hp, hg, empty] using eq, inv'⟩
  · cases chain with
    | raw =>
      have read : (((s.setGuard b .null).newImpl ⟨1, .null, .free (.object r)⟩).setGuard a
          (.impl s.impls.next)).read (.next s.impls.next) = some .null := by
        show (((s.impls.add _).get s.impls.next).map Impl.next) = _
        rw [Slots.get_add_same]
        rfl
      obtain ⟨s', eq, inv'⟩ := appendLoop_spec a (walk_upgraded taken here) read .null (by simp)
        (Nat.zero_lt_succ (s.setGuard b .null).impls.next)
      have ne := taken.raw_ne here
      refine ⟨s', ?_, inv'⟩
      simp only [append, hp, hg, empty, if_false, Option.bind_eq_bind, Option.bind_some]
      rw [appendLoop]
      simpa [read, here, ne, Ptr.get, State.read, State.write] using eq
    | impl hi rest =>
      refine absurd ⟨same, ?_, _, _, r, hp, .impl hi rest⟩ sound
      rw [hg]
      simpa using empty

theorem step_spec {s : State} {op : Op} (inv : s.Inv []) (admitted : s.Admits op)
    (sound : ¬ s.FreesImpl op) : ∃ s', s.step op = some s' ∧ s'.Inv [] := by
  cases op with
  | makeEmpty => exact ⟨_, rfl, inv.in_hand_null.add_guard⟩
  | makeSimple => exact ⟨_, rfl, inv.make.add_guard⟩
  | makeObject =>
    have wrapped : (newImpl { s with resources := s.resources + 1 }
        ⟨1, .null, .object s.resources⟩).Inv [.impl s.impls.next] :=
      inv.make.wrap rfl rfl (by simp)
    exact ⟨_, rfl, wrapped.add_guard⟩
  | share a => exact share_spec inv admitted
  | moveNew a =>
    obtain ⟨p, hp⟩ := Option.isSome_iff_exists.mp admitted
    exact ⟨(s.setGuard a .null).addGuard p, by simp [step, hp], (inv.take_guard hp).add_guard⟩
  | assign a b => exact assign_spec inv admitted.1 admitted.2
  | append a b => exact append_spec inv admitted sound
  | destroy a =>
    obtain ⟨p, hp⟩ := Option.isSome_iff_exists.mp admitted
    obtain ⟨s', eq, inv', -⟩ := destroyPtr_spec (inv.drop_guard hp)
    exact ⟨s', by simpa [step, hp] using eq, inv'⟩

/-- What a guard reaches has an owner. -/
theorem Reaches.owned {s : State} {p : Ptr} {r : Nat}
    (reaches : s.Reaches p r) (stored : p ∈ s.pointers) :
    0 < s.pointers.count (.raw r) + s.payloads.count r := by
  induction reaches with
  | raw r =>
    have := List.count_pos_iff.mpr stored
    omega
  | payload hi hr =>
    have held : _ ∈ s.payloads := Slots.mem_gather.mpr ⟨_, _, hi, hr⟩
    have := List.count_pos_iff.mpr held
    omega
  | pointer hi hp _ ih => exact ih (mem_pointers.mpr (.inr ⟨_, _, hi, hp⟩))

theorem Inv.not_reaches {s : State} (inv : s.Inv []) {r a : Nat} {p : Ptr} (released : r ∈ s.released)
    (h : s.guards.get a = some p) : ¬ s.Reaches p r := by
  intro reaches
  have owned := reaches.owned (mem_pointers.mpr (.inl ⟨a, h⟩))
  have once := List.count_pos_iff.mpr released
  have sum := inv.owned r
  unfold made at sum
  split at sum <;> omega

theorem Inv.released_nodup {s : State} (inv : s.Inv []) : s.released.Nodup := by
  apply List.nodup_iff_count_le_one.mpr
  intro r
  have sum := inv.owned r
  unfold made at sum
  split at sum <;> omega

/-- Without guards of the program nothing is left: the `impl` of highest rank would have
nobody that points to it. -/
theorem Inv.no_impls {s : State} (inv : s.Inv []) (gone : ∀ a, s.guards.get a = none) :
    ∀ n, s.impls.get n = none := by
  obtain ⟨rank, ranked⟩ := inv.ranked
  have parent : ∀ n i, s.impls.get n = some i →
      ∃ m j, s.impls.get m = some j ∧ rank n < rank m := by
    intro n i hi
    have pos := inv.live n i hi
    have sum := inv.counted n
    rw [refsAt_of_get hi, List.count_nil, Nat.zero_add] at sum
    have stored : .impl n ∈ s.pointers := List.count_pos_iff.mp (by omega)
    rcases mem_pointers.mp stored with ⟨a, ha⟩ | ⟨m, j, hj, points⟩
    · rw [gone a] at ha
      cases ha
    · exact ⟨m, j, hj, ranked m j n hj points⟩
  have climb : ∀ k n i, s.impls.get n = some i → ∃ m j, s.impls.get m = some j ∧ k ≤ rank m := by
    intro k n i hi
    induction k with
    | zero => exact ⟨n, i, hi, Nat.zero_le _⟩
    | succ k ih =>
      obtain ⟨m, j, hj, high⟩ := ih
      obtain ⟨m', j', hj', higher⟩ := parent m j hj
      exact ⟨m', j', hj', by omega⟩
  intro n
  cases hi : s.impls.get n with
  | none => rfl
  | some i =>
    obtain ⟨m, j, hj, high⟩ := climb ((Finset.range s.impls.next).sup rank + 1) n i hi
    have bound : rank m ≤ (Finset.range s.impls.next).sup rank :=
      Finset.le_sup (Finset.mem_range.mpr (Slots.lt_next hj))
    omega

theorem Inv.released_once {s : State} (inv : s.Inv []) (gone : ∀ a, s.guards.get a = none) {r : Nat}
    (made : r < s.resources) : s.released.count r = 1 := by
  have none := inv.no_impls gone
  have pointers : s.pointers = [] := by
    apply List.eq_nil_iff_forall_not_mem.mpr
    intro p hp
    rcases mem_pointers.mp hp with ⟨a, ha⟩ | ⟨n, i, hi, -⟩
    · simp [gone] at ha
    · simp [none] at hi
  have payloads : s.payloads = [] := by
    apply List.eq_nil_iff_forall_not_mem.mpr
    intro k hk
    obtain ⟨n, i, hi, -⟩ := Slots.mem_gather.mp hk
    simp [none] at hi
  have sum := inv.owned r
  rw [pointers, payloads, State.made, if_pos made] at sum
  simpa using sum

/-- As long as no guard is appended to a chain that ends, after an `impl`, in a tagged
pointer, every call returns, nothing that a guard reaches is released, nothing is released
twice, no `impl` is freed, and without guards everything is released. -/
theorem guard_releases_once {ops : List Op}
    (proper : ∀ n op s, ops[n]? = some op → run (ops.take n) = some s →
      s.Admits op ∧ ¬ s.FreesImpl op) (n : Nat) :
    ∃ s, run (ops.take n) = some s ∧ s.freedImpls = [] ∧ s.released.Nodup ∧
      (∀ r ∈ s.released, ∀ a p, s.guards.get a = some p → ¬ s.Reaches p r) ∧
      ((∀ a, s.guards.get a = none) → ∀ r < s.resources, s.released.count r = 1) := by
  have total : ∃ s, (ops.take n).foldlM step initial = some s ∧ s.Inv [] :=
    Runs.partial_total (P := fun s => s.Inv []) inv_initial (fun n op t ha reached inv =>
      step_spec inv (proper n op t ha reached).1 (proper n op t ha reached).2) n
  obtain ⟨s, reached, inv⟩ := total
  exact ⟨s, reached, inv.unfreed, inv.released_nodup, fun r hr a p h => inv.not_reaches hr h,
    fun gone r made => inv.released_once gone made⟩

/-- A shared simple guard takes an object guard, and all of them go. -/
theorem guard_releases_once_of_two :
    ∃ s, run [.makeSimple, .share 0, .makeObject, .append 0 2, .destroy 0, .destroy 1, .destroy 2] =
        some s ∧ s.freedImpls = [] ∧ s.released.count 0 = 1 ∧ s.released.count 1 = 1 := by
  have proper : ∀ n op s,
      [Op.makeSimple, .share 0, .makeObject, .append 0 2, .destroy 0, .destroy 1, .destroy 2][n]? =
        some op →
      run ([Op.makeSimple, .share 0, .makeObject, .append 0 2, .destroy 0, .destroy 1,
        .destroy 2].take n) = some s → s.Admits op ∧ ¬ s.FreesImpl op := by
    intro n op s ha reached
    rcases n with _ | _ | _ | _ | _ | _ | _ | n
    · cases ha
      cases reached
      exact ⟨trivial, id⟩
    · cases ha
      cases reached
      exact ⟨rfl, id⟩
    · cases ha
      cases reached
      exact ⟨trivial, id⟩
    · cases ha
      cases reached
      refine ⟨⟨rfl, rfl, ?_⟩, ?_⟩
      · intro p ns e n _ hp chain hn hg
        cases hp
        cases hg
        cases chain with
        | impl hi rest =>
          cases hi
          cases rest
          exact absurd hn (by decide)
      · rintro ⟨-, -, n, ns, r, hp, chain⟩
        cases hp
        cases chain with
        | impl hi rest =>
          cases hi
          cases rest
    · cases ha
      cases reached
      exact ⟨rfl, id⟩
    · cases ha
      cases reached
      exact ⟨rfl, id⟩
    · cases ha
      cases reached
      exact ⟨rfl, id⟩
    · simp at ha
  obtain ⟨s, reached, unfreed, -, -, all⟩ := guard_releases_once proper 7
  have gone : ∀ a, s.guards.get a = none := by
    cases reached
    intro a
    rcases a with _ | _ | _ | a
    · rfl
    · rfl
    · rfl
    · rfl
  have two : s.resources = 2 := by
    cases reached
    rfl
  exact ⟨s, reached, unfreed, all gone 0 (by omega), all gone 1 (by omega)⟩

/-- An object guard takes a simple one, a second simple one is appended, and the `impl` of
the first is passed to `free` while the first simple resource is lost. -/
theorem guard_frees_impl :
    ∃ s, run [.makeObject, .makeSimple, .append 0 1, .makeSimple, .append 0 2, .destroy 0,
        .destroy 1, .destroy 2] = some s ∧
      s.guards.cells = [none, none, none] ∧ s.freedImpls = [0] ∧ s.released.count 1 = 0 :=
  ⟨_, rfl, rfl, rfl, rfl⟩

end State

end Guard

end XiRuntime
