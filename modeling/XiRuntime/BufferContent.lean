import XiRuntime.Buffer

namespace XiRuntime

open ByteStore

namespace Buffer

structure Valid (b : Buffer) : Prop where
  size_eq : b.size = totalSize b.fragments
  inside : ∀ f ∈ b.fragments, f.Inside

theorem Valid.length_content {b : Buffer} (hv : b.Valid) (m : Mem) :
    (b.content m).length = b.size := by
  rw [content, length_flatMap_data, hv.size_eq]

theorem valid_new : new.Valid := ⟨rfl, by simp [new]⟩

theorem valid_of_parts {fs gs : List Fragment} {n : Nat} (hn : n = totalSize fs + totalSize gs)
    (hf : ∀ f ∈ fs, f.Inside) (hg : ∀ f ∈ gs, f.Inside) : Valid ⟨fs ++ gs, n⟩ := by
  refine ⟨by simp [hn], ?_⟩
  intro f hm
  rcases List.mem_append.mp hm with hm | hm
  · exact hf f hm
  · exact hg f hm

end Buffer

theorem map_inside {fs : List Fragment} {φ : Fragment → Fragment}
    (hi : ∀ f ∈ fs, (φ f).Inside) : ∀ f ∈ fs.map φ, f.Inside := by
  intro g hg
  obtain ⟨f, hf, rfl⟩ := List.mem_map.mp hg
  exact hi f hf

theorem flatMap_data_nil {m : Mem} {fs : List Fragment} (h : totalSize fs = 0) :
    fs.flatMap (Fragment.data m) = [] := by
  apply List.eq_nil_of_length_eq_zero
  rw [length_flatMap_data, h]

/-- Fragments that are freed, or emptied in place, show nothing. -/
theorem passed_spec {fs : List Fragment} (φ : Fragment → Fragment) (free : Bool)
    (h : ∀ f ∈ fs, (φ f).Inside ∧ (φ f).Within f ∧ (φ f).size = 0) :
    ∃ passed, passed = (if free then [] else fs.map φ) ∧ Keeps passed fs ∧
      totalSize passed = 0 ∧ ∀ f ∈ passed, f.Inside := by
  refine ⟨_, rfl, ?_⟩
  cases free with
  | true => exact ⟨Keeps.sublist (List.nil_sublist _), rfl, by simp⟩
  | false =>
    refine ⟨Keeps.map fun f hf => (h f hf).2.1, ?_, map_inside fun f hf => (h f hf).1⟩
    induction fs with
    | nil => rfl
    | cons f fs ih =>
      have hf := (h f (by simp)).2.2
      have ht := ih fun g hg => h g (by simp [hg])
      simp only [Bool.false_eq_true, if_false] at ht
      simp [hf, ht]

/-- The bytes from the iterator on are the bytes from the offset on. -/
theorem drop_content_skipOffset (m : Mem) (fs : List Fragment) (offset : Nat) :
    (fs.flatMap (Fragment.data m)).drop offset =
      ((skipOffset fs offset).2.1.flatMap (Fragment.data m)).drop (skipOffset fs offset).2.2 := by
  have ho := skipOffset_offset fs offset
  conv => lhs; rw [← skipOffset_append fs offset, List.flatMap_append]
  rw [List.drop_append, length_flatMap_data,
    List.drop_of_length_le (by rw [length_flatMap_data]; omega), List.nil_append]
  congr 1
  omega

theorem totalSize_skipOffset (fs : List Fragment) (offset : Nat) :
    totalSize (skipOffset fs offset).1 + totalSize (skipOffset fs offset).2.1 = totalSize fs := by
  rw [← totalSize_append, skipOffset_append]

theorem skipOffset_inside {fs : List Fragment} (hi : ∀ f ∈ fs, f.Inside) (offset : Nat) :
    (∀ f ∈ (skipOffset fs offset).1, f.Inside) ∧ ∀ f ∈ (skipOffset fs offset).2.1, f.Inside := by
  rw [← skipOffset_append fs offset] at hi
  exact ⟨fun f hf => hi f (List.mem_append_left _ hf), fun f hf => hi f (List.mem_append_right _ hf)⟩

namespace Buffer

theorem skipBytes_spec {b : Buffer} (hv : b.Valid) (sz : Nat) (free : Bool) :
    (b.skipBytes sz free).Valid ∧ Keeps (b.skipBytes sz free).fragments b.fragments ∧
      ∀ m, (b.skipBytes sz free).content m = (b.content m).drop sz := by
  by_cases he : b.fragments = []
  · have hb : b.skipBytes sz free = b := by simp [skipBytes, he]
    rw [hb]
    exact ⟨hv, Keeps.refl _, fun m => by simp [content, he]⟩
  have hpass := skipOffset_append b.fragments sz
  have hoff := skipOffset_offset b.fragments sz
  have hsum := totalSize_skipOffset b.fragments sz
  obtain ⟨hpre, hrest⟩ := skipOffset_inside hv.inside sz
  have hcontent := fun m => drop_content_skipOffset m b.fragments sz
  cases hit : skipOffset b.fragments sz with
  | mk pre it =>
    obtain ⟨rest, o⟩ := it
    simp only [hit] at hpass hoff hsum hpre hrest hcontent
    obtain ⟨passed, hp, hkeep, hzero, hinside⟩ :=
      passed_spec (fun i => (i.skipBytes i.size).1) free fun f hf =>
        have hs := Fragment.skipBytes_spec (hpre f hf) f.size
        ⟨hs.1, hs.2.1, by simpa using hs.2.2.1⟩
    cases rest with
    | nil =>
      have hb : b.skipBytes sz free = ⟨passed ++ [], 0⟩ := by simp [skipBytes, he, hit, hp]
      rw [hb]
      refine ⟨valid_of_parts (by simp [hzero]) hinside (by simp), ?_, fun m => ?_⟩
      · simpa [← hpass] using hkeep
      · simp only [content, hcontent]
        simp [flatMap_data_nil hzero]
    | cons f fs =>
      have hlt : o < f.size := by simpa only [hit] using skipOffset_stops (congrArg (·.2.1) hit)
      obtain ⟨hfi, hfw, hfs, hfd⟩ := Fragment.skipBytes_spec (hrest f (by simp)) o
      have hpos : (f.skipBytes o).1.size ≠ 0 := by omega
      have hb : b.skipBytes sz free = ⟨passed ++ (f.skipBytes o).1 :: fs, b.size - sz⟩ := by
        simp [skipBytes, he, hit, hp, hpos]
      rw [hb]
      refine ⟨valid_of_parts ?_ hinside ?_, ?_, fun m => ?_⟩
      · have := hv.size_eq
        simp only [totalSize_cons] at hsum ⊢
        omega
      · intro g hg
        rcases List.mem_cons.mp hg with rfl | hg
        · exact hfi
        · exact hrest g (by simp [hg])
      · rw [← hpass]
        exact Keeps.append hkeep (Keeps.append (Keeps.single hfw) (Keeps.refl fs))
      · simp only [content, hcontent, List.flatMap_append, flatMap_data_nil hzero, List.nil_append,
          List.flatMap_cons, hfd]
        rw [List.drop_append_of_le_length (by simp; omega)]

theorem ignoreBytesAtEnd_spec {b : Buffer} (hv : b.Valid) (sz : Nat) (free : Bool) :
    (b.ignoreBytesAtEnd sz free).Valid ∧ Keeps (b.ignoreBytesAtEnd sz free).fragments b.fragments ∧
      ∀ m, (b.ignoreBytesAtEnd sz free).content m = (b.content m).take (b.size - sz) := by
  by_cases he : b.fragments = []
  · have hb : b.ignoreBytesAtEnd sz free = b := by simp [ignoreBytesAtEnd, he]
    rw [hb]
    exact ⟨hv, Keeps.refl _, fun m => by simp [content, he]⟩
  have hpass := skipOffset_append b.fragments.reverse sz
  have hoff := skipOffset_offset b.fragments.reverse sz
  have hsum := totalSize_skipOffset b.fragments.reverse sz
  have hback : ∀ f ∈ b.fragments.reverse, f.Inside := fun f hf => hv.inside f (List.mem_reverse.mp hf)
  obtain ⟨hpre, hrest⟩ := skipOffset_inside hback sz
  have hsize := hv.size_eq
  cases hit : skipOffset b.fragments.reverse sz with
  | mk pre it =>
    obtain ⟨rest, o⟩ := it
    simp only [hit, totalSize_reverse] at hpass hoff hsum hpre hrest
    have hfs : b.fragments = rest.reverse ++ pre.reverse := by
      rw [← List.reverse_append, hpass, List.reverse_reverse]
    obtain ⟨passed, hp, hkeep, hzero, hinside⟩ :=
      passed_spec (fun i => (i.ignoreBytesAtEnd i.size).1) free fun f hf =>
        have hs := Fragment.ignoreBytesAtEnd_spec (hpre f hf) f.size
        ⟨hs.1, hs.2.1, by simpa using hs.2.2.1⟩
    have hback : Keeps passed.reverse pre.reverse :=
      (Keeps.perm (List.reverse_perm _)).trans (hkeep.trans (Keeps.perm (List.reverse_perm _).symm))
    have hinside' : ∀ f ∈ passed.reverse, f.Inside := fun f hf => hinside f (List.mem_reverse.mp hf)
    have hzero' : totalSize passed.reverse = 0 := by simpa using hzero
    cases rest with
    | nil =>
      have hb : b.ignoreBytesAtEnd sz free = ⟨[] ++ passed.reverse, 0⟩ := by
        cases free <;> simp [ignoreBytesAtEnd, he, hit, hp]
      rw [hb]
      refine ⟨valid_of_parts (by simp [hzero]) (by simp) hinside', ?_, fun m => ?_⟩
      · simpa [hfs] using hback
      · have hle : b.size - sz = 0 := by
          simp only [totalSize_nil] at hsum
          omega
        simp [content, flatMap_data_nil hzero', hle]
    | cons f fs =>
      have hlt : o < f.size := by simpa only [hit] using skipOffset_stops (congrArg (·.2.1) hit)
      obtain ⟨hfi, hfw, hfs', hfd⟩ := Fragment.ignoreBytesAtEnd_spec (hrest f (by simp)) o
      have hb : b.ignoreBytesAtEnd sz free =
          ⟨(fs.reverse ++ [(f.ignoreBytesAtEnd o).1]) ++ passed.reverse, b.size - sz⟩ := by
        cases free <;> simp [ignoreBytesAtEnd, he, hit, hp]
      rw [hb]
      refine ⟨valid_of_parts ?_ ?_ hinside', ?_, fun m => ?_⟩
      · simp only [totalSize_append, totalSize_cons, totalSize_nil, totalSize_reverse] at hsum ⊢
        omega
      · intro g hg
        rcases List.mem_append.mp hg with hg | hg
        · exact hrest g (by simpa using Or.inr hg)
        · rw [List.mem_singleton.mp hg]
          exact hfi
      · rw [hfs, List.reverse_cons]
        exact Keeps.append (Keeps.append (Keeps.refl _) (Keeps.single hfw)) hback
      · have hlen : b.size - sz = totalSize fs + (f.size - o) := by
          simp only [totalSize_cons] at hsum
          omega
        have hfront : (fs.reverse.flatMap (Fragment.data m)).length = totalSize fs := by
          rw [length_flatMap_data, totalSize_reverse]
        simp only [content, hfs, List.reverse_cons, List.flatMap_append, List.flatMap_cons,
          List.flatMap_nil, List.append_nil, flatMap_data_nil hzero', hfd, hlen]
        rw [List.append_assoc, ← hfront, List.take_length_add_append,
          List.take_append_of_le_length (by simp)]

/-- The fragments of a possibly null buffer; a null buffer counts as empty. -/
def fragmentsOf : Option Buffer → List Fragment
  | none => []
  | some b => b.fragments

/-- No null or end iterator is dereferenced, and the two halves share the storage. -/
theorem split_spec {b : Buffer} (hv : b.Valid) (sz : Nat) :
    ∃ ret b', b.split sz = some (ret, b') ∧ (∀ r, ret = some r → r.Valid) ∧ b'.Valid ∧
      Keeps (fragmentsOf ret ++ b'.fragments) b.fragments ∧
      ∀ m, (fragmentsOf ret).flatMap (Fragment.data m) = (b.content m).take sz ∧
        b'.content m = (b.content m).drop sz := by
  by_cases hz : b.fragments = [] ∨ sz = 0
  · refine ⟨none, b, by simp [split, hz], by simp, hv, Keeps.refl _, fun m => ?_⟩
    rcases hz with hz | hz <;> simp [fragmentsOf, content, hz]
  by_cases hsz : b.size < sz
  · refine ⟨some ⟨b.fragments, b.size⟩, new, by simp [split, hz, hsz], ?_, valid_new, ?_, fun m => ?_⟩
    · intro r hr
      cases Option.some.inj hr
      exact hv
    · simpa [fragmentsOf, new] using Keeps.refl b.fragments
    · have hlen := hv.length_content m
      rw [List.take_of_length_le (by omega), List.drop_of_length_le (by omega)]
      exact ⟨rfl, rfl⟩
  have hpass := skipOffset_append b.fragments sz
  have hoff := skipOffset_offset b.fragments sz
  have hsum := totalSize_skipOffset b.fragments sz
  obtain ⟨hpre, hrest⟩ := skipOffset_inside hv.inside sz
  have hsize := hv.size_eq
  cases hit : skipOffset b.fragments sz with
  | mk pre it =>
    obtain ⟨rest, o⟩ := it
    simp only [hit] at hpass hoff hsum hpre hrest
    by_cases ho : o > 0
    · cases rest with
      | nil =>
        simp only [totalSize_nil] at hsum
        omega
      | cons f fs =>
        have hlt : o < f.size := by simpa only [hit] using skipOffset_stops (congrArg (·.2.1) hit)
        obtain ⟨node, f', hs, hni, hfi, hnw, hfw, hsep, hns, hfs, hd⟩ :=
          Fragment.split_spec (hrest f (by simp)) ho hlt
        simp only [totalSize_cons] at hsum
        refine ⟨some ⟨pre ++ [f'], sz⟩, ⟨node :: fs, b.size - totalSize (pre ++ [f'])⟩, ?_, ?_, ?_, ?_,
          fun m => ?_⟩
        · simp [split, hz, hsz, hit, ho, hs, foldl_sub_size, ← Nat.sub_sub]
        · intro r hr
          cases Option.some.inj hr
          refine valid_of_parts (by simp; omega) hpre ?_
          intro g hg
          rw [List.mem_singleton.mp hg]
          exact hfi
        · refine ⟨by simp; omega, ?_⟩
          intro g hg
          rcases List.mem_cons.mp hg with rfl | hg
          · exact hni
          · exact hrest g (by simp [hg])
        · have := Keeps.append (Keeps.refl pre)
            (Keeps.append (Keeps.pair hnw hfw hsep) (Keeps.refl fs))
          simpa [fragmentsOf, ← hpass] using this
        · have hcut : (b.content m).length = b.size := hv.length_content m
          have hfront : (pre.flatMap (Fragment.data m)).length = totalSize pre :=
            length_flatMap_data m pre
          simp only [fragmentsOf, content, ← hpass, List.flatMap_append, List.flatMap_cons,
            List.flatMap_nil, List.append_nil, (hd m).1, (hd m).2]
          rw [← hoff, ← hfront, List.take_length_add_append, List.drop_length_add_append,
            List.take_append_of_le_length (by simp; omega),
            List.drop_append_of_le_length (by simp; omega)]
          exact ⟨rfl, rfl⟩
    · refine ⟨some ⟨pre, sz⟩, ⟨rest, b.size - totalSize pre⟩, ?_, ?_, ?_, ?_, fun m => ?_⟩
      · simp [split, hz, hsz, hit, ho, foldl_sub_size]
      · intro r hr
        cases Option.some.inj hr
        exact ⟨show sz = totalSize pre by omega, hpre⟩
      · exact ⟨show b.size - totalSize pre = totalSize rest by omega, hrest⟩
      · simpa [fragmentsOf, hpass] using Keeps.refl b.fragments
      · have hfront : (pre.flatMap (Fragment.data m)).length = sz := by
          rw [length_flatMap_data]
          omega
        simp only [fragmentsOf, content, ← hpass, List.flatMap_append]
        exact ⟨(List.take_left' hfront).symm, (List.drop_left' hfront).symm⟩

theorem readLoop_eq (m : Mem) (fs : List Fragment) (n offset : Nat)
    (h : ∀ f rest, fs = f :: rest → offset ≤ f.size) :
    (readLoop m fs n offset).1 = ((fs.flatMap (Fragment.data m)).drop offset).take n ∧
      (readLoop m fs n offset).1.length + (readLoop m fs n offset).2 = n := by
  induction fs generalizing n offset with
  | nil => simp [readLoop]
  | cons f fs ih =>
    have hle := h f fs rfl
    have hlen : (f.read m n offset).length = min n (f.size - offset) := by
      simp [Fragment.read_eq]
    simp only [readLoop]
    split
    next hfull =>
      refine ⟨?_, by simp only; omega⟩
      rw [Fragment.read_eq, List.flatMap_cons, List.drop_append_of_le_length (by simpa using hle),
        List.take_append_of_le_length (by simp; omega)]
    next hmore =>
      obtain ⟨hbytes, hroom⟩ := ih (n - (f.read m n offset).length) 0 (fun _ _ _ => Nat.zero_le _)
      have hwhole : f.read m n offset = (f.data m).drop offset := by
        rw [Fragment.read_eq]
        exact List.take_of_length_le (by simp; omega)
      refine ⟨?_, ?_⟩
      · simp only [hbytes, List.drop_zero, List.flatMap_cons]
        rw [List.drop_append_of_le_length (by simpa using hle), List.take_append, hwhole,
          List.take_of_length_le (l := (f.data m).drop offset) (by simp; omega)]
      · simp only [List.length_append]
        omega

/-- `read` copies the slice of the content and returns its length. -/
theorem read_spec {b : Buffer} (hv : b.Valid) (m : Mem) (n offset : Nat) :
    b.read m n offset =
      (((b.content m).drop offset).take n, min n ((b.content m).length - offset)) := by
  have hlen := hv.length_content m
  by_cases hz : b.fragments = [] ∨ n = 0 ∨ offset ≥ b.size
  · have hnone : min n ((b.content m).length - offset) = 0 := by
      rcases hz with hz | hz
      · simp [content, hz]
      · omega
    have hempty : ((b.content m).drop offset).take n = [] := by
      apply List.eq_nil_of_length_eq_zero
      simpa using hnone
    simp [read, hz, hnone, hempty]
  · have hloop := readLoop_eq m (skipOffset b.fragments offset).2.1 n (skipOffset b.fragments offset).2.2
      (fun f rest hf => Nat.le_of_lt (skipOffset_stops hf))
    obtain ⟨hbytes, hroom⟩ := hloop
    have hslice : (readLoop m (skipOffset b.fragments offset).2.1 n
        (skipOffset b.fragments offset).2.2).1 = ((b.content m).drop offset).take n := by
      rw [hbytes, content, ← drop_content_skipOffset]
    simp only [read, hz, if_false, hslice, Prod.mk.injEq, true_and]
    have := congrArg List.length hslice
    simp only [List.length_take, List.length_drop] at this
    omega

theorem getLast_split {fs : List Fragment} {f : Fragment} (h : fs.getLast? = some f) :
    fs = fs.dropLast ++ [f] := by
  obtain ⟨pre, rfl⟩ := List.getLast?_eq_some_iff.mp h
  simp

/-- A fragment that grows into its tailroom stays in place. -/
theorem grow_last {b : Buffer} (hv : b.Valid) {f : Fragment} {k : Nat}
    (hl : b.fragments.getLast? = some f) (hk : k ≤ f.tailroom) :
    Valid ⟨b.fragments.dropLast ++ [{ f with size := f.size + k }], b.size + k⟩ ∧
      Keeps (b.fragments.dropLast ++ [{ f with size := f.size + k }]) b.fragments := by
  have hfs := getLast_split hl
  have hf : f.Inside := hv.inside f (List.mem_of_getLast? hl)
  constructor
  · refine valid_of_parts ?_ (fun g hg => hv.inside g ((List.dropLast_sublist _).subset hg)) ?_
    · have := hv.size_eq
      rw [hfs] at this
      simp only [totalSize_append, totalSize_cons, totalSize_nil] at this ⊢
      omega
    · intro g hg
      rw [List.mem_singleton.mp hg]
      unfold Fragment.Inside Fragment.tailroom Fragment.tail at *
      simp only
      omega
  · conv => rhs; rw [hfs]
    exact Keeps.append (Keeps.refl _) (Keeps.single (Or.inr ⟨Nat.le_refl _, Nat.le_refl _⟩))

theorem content_grow_last (m : Mem) {b : Buffer} {f : Fragment} (k : Nat)
    (hl : b.fragments.getLast? = some f) :
    content m ⟨b.fragments.dropLast ++ [{ f with size := f.size + k }], b.size + k⟩ =
      b.content m ++ m.load f.tail k := by
  conv => rhs; rw [content, getLast_split hl]
  simp [content, Fragment.data, Fragment.tail, load_add]

/-- Bytes stored in the tailroom of one fragment do not show in any fragment
that keeps apart from it. -/
theorem data_store_tail (m : Mem) {f g : Fragment} {xs : List UInt8} (hf : f.Inside)
    (hx : xs.length ≤ f.tailroom) (hg : g.Inside) (hs : f.Separate g) :
    g.data (m.store f.tail xs) = g.data m := by
  apply load_store_apart
  unfold Fragment.Inside Fragment.tailroom Fragment.tail Fragment.Separate Apart ByteBlob.stop at *
  omega

theorem data_store_own_tail (m : Mem) (f : Fragment) (xs : List UInt8) :
    f.data (m.store f.tail xs) = f.data m := by
  apply load_store_apart
  unfold Fragment.tail Apart
  omega

theorem data_write_tail (m : Mem) (f : Fragment) (xs : List UInt8) :
    ({ f with size := f.size + xs.length } : Fragment).data (m.store f.tail xs) =
      f.data m ++ xs := by
  have hown := data_store_own_tail m f xs
  have hload := load_store_same m f.tail xs
  unfold Fragment.data Fragment.tail at *
  simp only [load_add, hown, hload]

end Buffer

end XiRuntime
