import XiRuntime.BufferRefinement

namespace XiRuntime

open ByteStore

namespace BufferWorld

/-- A new slot whose fragments are apart from everything live. -/
theorem WellFormed.addBuffer {w : BufferWorld} {b : Buffer} (hv : ∀ x, some x ∈ w.buffers → x.Valid)
    (hi : ∀ f, some f ∈ w.loose → f.Inside) (hb : b.Valid)
    (hs : (b.fragments ++ w.live).Pairwise Fragment.Separate) :
    WellFormed { w with buffers := w.buffers ++ [some b] } := by
  refine ⟨?_, hi, ?_⟩
  · intro x hx
    rcases List.mem_append.mp hx with hx | hx
    · exact hv x hx
    · have : x = b := by simpa using hx
      exact this ▸ hb
  · refine separate_perm ?_ hs
    simp only [live, List.flatMap_append, List.flatMap_cons, List.flatMap_nil, List.append_nil,
      Buffer.fragmentsOf, List.append_assoc]
    exact List.perm_append_comm_assoc _ _ _

theorem WellFormed.setLoose {w : BufferWorld} (hw : w.WellFormed) {k : Nat} {f : Fragment}
    (hk : w.looseAt k = some f) {x : Option Fragment} (hv : ∀ g, x = some g → g.Inside)
    (hkeep : Keeps (Option.toList x) [f]) : WellFormed { w with loose := w.loose.set k x } := by
  obtain ⟨others, hlive, hset⟩ := live_setLoose hk
  refine ⟨hw.valid, ?_, separate_perm (hset x).symm (hkeep others (separate_perm hlive hw.separate))⟩
  intro g hg
  rcases List.mem_or_eq_of_mem_set hg with hm | he
  · exact hw.inside g hm
  · exact hv g he.symm

theorem exec_allocate {w w' : BufferWorld} {address size headroom : Nat} {res : BufferResult}
    (hw : w.WellFormed) (h : w.exec (.allocate address size headroom) = some (w', res)) :
    w'.WellFormed ∧ w'.view = { w.view with loose := w.view.loose ++ [some []] } ∧
      res = .handle (some w.view.loose.length) := by
  simp only [exec] at h
  split at h
  next hfree =>
    obtain ⟨⟨m, f⟩, ha, h⟩ := Option.bind_eq_some_iff.mp h
    obtain ⟨hw', hres⟩ := Prod.mk.inj (Option.some.inj h)
    have hsize := Fragment.new_size ⟨address, size⟩
    have hin := Fragment.new_inside ⟨address, size⟩
    have hblob : (Fragment.new ⟨address, size⟩).Within ⟨⟨address, size⟩, address, 0⟩ :=
      Fragment.maybeRelease_within _
    unfold Fragment.advance at ha
    split at ha
    next hroom =>
      obtain ⟨hm, hf⟩ := Prod.mk.inj (Option.some.inj ha)
      have hm' : m = w.mem := by simpa [hsize] using hm.symm
      have hfsize : f.size = 0 := by rw [← hf]; exact hsize
      have hfin : f.Inside := by
        rw [← hf]
        unfold Fragment.Inside Fragment.tailroom Fragment.tail at *
        simp only
        omega
      have hfw : f.Within ⟨⟨address, size⟩, address, 0⟩ := by
        rw [← hf]
        exact hblob
      subst hw'
      refine ⟨⟨hw.valid, ?_, ?_⟩, ?_, by simp [← hres, view]⟩
      · intro g hg
        rcases List.mem_append.mp hg with hg | hg
        · exact hw.inside g hg
        · have : g = f := by simpa using hg
          exact this ▸ hfin
      · have hperm : (live { w with mem := m, loose := w.loose ++ [some f] }).Perm (f :: w.live) := by
          simp only [live, List.flatMap_append, List.flatMap_cons, List.flatMap_nil]
          rw [← List.append_assoc]
          exact List.perm_append_comm
        refine separate_perm hperm.symm (List.pairwise_cons.mpr ⟨?_, hw.separate⟩)
        intro g hg
        exact hfw.separate (Fragment.Separate.symm (hfree g hg))
      · simp [view, hm', Fragment.data_of_size_zero hfsize]
    next => simp at ha
  next => simp at h

theorem exec_writeFragment {w w' : BufferWorld} {k : Nat} {r : List UInt8} {res : BufferResult}
    (hw : w.WellFormed) (h : w.exec (.writeFragment k r) = some (w', res)) :
    w'.WellFormed ∧ ∃ f, w.looseAt k = some f ∧
      w'.view = { w.view with
        loose := w.view.loose.set k (some (f.data w.mem ++ r.take (min r.length f.tailroom))) } ∧
      res = .count (min r.length f.tailroom) := by
  obtain ⟨f, hk, h⟩ := Option.bind_eq_some_iff.mp h
  obtain ⟨hw', hres⟩ := Prod.mk.inj (Option.some.inj h)
  have hf := hw.looseAt_inside hk
  have hmem : f ∈ w.live := by
    obtain ⟨others, hlive, _⟩ := live_setLoose hk
    exact hlive.mem_iff.mpr (by simp)
  have hcap : (r.take (min r.length f.tailroom)).length = min r.length f.tailroom := by simp
  have hfits : (r.take (min r.length f.tailroom)).length ≤ f.tailroom := by omega
  have hstore := view_store_tail hw hmem hf hfits
  have hgrown : ({ f with size := f.size + min r.length f.tailroom } : Fragment).Inside := by
    unfold Fragment.Inside Fragment.tailroom Fragment.tail at *
    simp only
    omega
  have hset := hw.setLoose hk (x := some { f with size := f.size + min r.length f.tailroom })
    (fun g hg => Option.some.inj hg ▸ hgrown)
    (Keeps.single (Or.inr ⟨Nat.le_refl _, Nat.le_refl _⟩))
  subst hw'
  refine ⟨⟨hset.valid, hset.inside, hset.separate⟩, f, hk, ?_, hres.symm⟩
  have hdata : ({ f with size := f.size + min r.length f.tailroom } : Fragment).data
      (w.mem.store f.tail (r.take (min r.length f.tailroom))) =
        f.data w.mem ++ r.take (min r.length f.tailroom) := by
    have hwritten := Buffer.data_write_tail w.mem f (r.take (min r.length f.tailroom))
    rwa [hcap] at hwritten
  have hview := congrArg ByteStrings.buffers hstore
  have hloose := congrArg ByteStrings.loose hstore
  simp only [view] at hview hloose
  simp only [view, List.map_set, Option.map_some, hdata, hview, hloose]

/-- Putting fragments that are apart from everything live into one buffer. -/
theorem WellFormed.absorb {w : BufferWorld} (hw : w.WellFormed) {i : Nat} {b p : Buffer}
    (hi : w.bufferAt i = some b) (hp : p.Valid)
    (hs : (p.fragments ++ w.live).Pairwise Fragment.Separate) (side : Side) :
    (w.setBuffer i (some (b.pushBuffer side (some p)))).WellFormed ∧
      (w.setBuffer i (some (b.pushBuffer side (some p)))).view =
        w.view.setBuffer i (some (side.join (b.content w.mem) (p.content w.mem))) := by
  obtain ⟨hv, hperm, hcontent⟩ := Buffer.pushBuffer_spec side (hw.bufferAt_valid hi) hp
  obtain ⟨others, hlive, hset⟩ := live_setBuffer hi
  refine ⟨⟨?_, hw.inside, ?_⟩, ?_⟩
  · intro b' hb'
    rcases List.mem_or_eq_of_mem_set hb' with hm | he
    · exact hw.valid b' hm
    · cases Option.some.inj he
      exact hv
  · have hall : ((p.fragments ++ b.fragments) ++ others).Pairwise Fragment.Separate := by
      rw [List.append_assoc]
      exact separate_perm (hlive.append_left _) hs
    have hpushed := hset (some (b.pushBuffer side (some p)))
    exact separate_perm (hpushed.trans (hperm.append_right others)).symm hall
  · rw [view_setBuffer]
    simp only [Option.map_some, hcontent]

theorem exec_pushFragment {w w' : BufferWorld} {side : Side} {i k : Nat} {res : BufferResult}
    (hw : w.WellFormed) (h : w.exec (.pushFragment side i (some k)) = some (w', res)) :
    w'.WellFormed ∧ res = .done ∧ ∃ b f, w.bufferAt i = some b ∧ w.looseAt k = some f ∧
      w'.view = ({ w.view with loose := w.view.loose.set k none } : ByteStrings).setBuffer i
        (some (side.join (b.content w.mem) (f.data w.mem))) := by
  obtain ⟨f, hk, h⟩ := Option.bind_eq_some_iff.mp h
  obtain ⟨b, hi, h⟩ := Option.bind_eq_some_iff.mp h
  obtain ⟨hw', hres⟩ := Prod.mk.inj (Option.some.inj h)
  have hf := hw.looseAt_inside hk
  have hempty : WellFormed { w with loose := w.loose.set k none } :=
    hw.setLoose hk (by simp) (Keeps.sublist (List.nil_sublist _))
  have hsep : ([f] ++ live { w with loose := w.loose.set k none }).Pairwise Fragment.Separate := by
    obtain ⟨others, hlive, hset⟩ := live_setLoose hk
    have : (live { w with loose := w.loose.set k none }).Perm others := by simpa using hset none
    exact separate_perm (this.symm.append_left [f]) (separate_perm hlive hw.separate)
  have hi' : bufferAt { w with loose := w.loose.set k none } i = some b := hi
  obtain ⟨hwf, hview⟩ := hempty.absorb hi' (Buffer.valid_single hf) hsep side
  subst hw'
  rw [Buffer.pushFragment_eq]
  refine ⟨hwf, hres.symm, b, f, hi, hk, ?_⟩
  rw [hview]
  simp [view, Buffer.content, List.map_set]

theorem exec_pushBuffer {w w' : BufferWorld} {side : Side} {i j : Nat} {res : BufferResult}
    (hw : w.WellFormed) (h : w.exec (.pushBuffer side i (some j)) = some (w', res)) :
    w'.WellFormed ∧ res = .done ∧ j ≠ i ∧ ∃ b p, w.bufferAt i = some b ∧ w.bufferAt j = some p ∧
      w'.view = (w.view.setBuffer j none).setBuffer i
        (some (side.join (b.content w.mem) (p.content w.mem))) := by
  obtain ⟨p, hj, h⟩ := Option.bind_eq_some_iff.mp h
  obtain ⟨b, hi, h⟩ := Option.bind_eq_some_iff.mp h
  obtain ⟨hw', hres⟩ := Prod.mk.inj (Option.some.inj h)
  have hne : j ≠ i := by
    intro he
    subst he
    obtain ⟨front, back, hl, hn⟩ := slot_split hj
    simp [bufferAt, setBuffer, hl, ← hn] at hi
  have hi' : w.bufferAt i = some b := by
    simpa [bufferAt, setBuffer, List.getElem?_set_ne hne] using hi
  have hempty : (w.setBuffer j none).WellFormed :=
    hw.setBuffer hj (by simp) (Keeps.sublist (List.nil_sublist _))
  have hsep : (p.fragments ++ (w.setBuffer j none).live).Pairwise Fragment.Separate := by
    obtain ⟨others, hlive, hset⟩ := live_setBuffer hj
    have : (w.setBuffer j none).live.Perm others := by simpa [Buffer.fragmentsOf] using hset none
    exact separate_perm (this.symm.append_left _) (separate_perm hlive hw.separate)
  obtain ⟨hwf, hview⟩ := hempty.absorb hi (hw.bufferAt_valid hj) hsep side
  subst hw'
  refine ⟨hwf, hres.symm, hne, b, p, hi', hj, ?_⟩
  rw [hview, view_setBuffer]
  rfl

theorem exec_split {w w' : BufferWorld} {i sz : Nat} {res : BufferResult}
    (hw : w.WellFormed) (h : w.exec (.split i sz) = some (w', res)) :
    w'.WellFormed ∧ w.view.Allows 0 [] w'.view (.split i sz) res := by
  obtain ⟨b, hi, h⟩ := Option.bind_eq_some_iff.mp h
  obtain ⟨ret, b', hs, hret, hb', hkeep, hcontent⟩ := Buffer.split_spec (hw.bufferAt_valid hi) sz
  have hat := view_bufferAt hi
  simp only [hs] at h
  cases ret with
  | none =>
    obtain ⟨hw', hres⟩ := Prod.mk.inj (Option.some.inj h)
    subst hw'
    have hwf : (w.setBuffer i (some b')).WellFormed :=
      hw.replaceBuffer hi hb' (by simpa [Buffer.fragmentsOf] using hkeep)
    refine ⟨hwf, b.content w.mem, hat, by simp [view_setBuffer, ByteStrings.setBuffer],
      Or.inl ⟨hres.symm, ?_, ?_⟩⟩
    · exact (hcontent w.mem).1.symm
    · rw [view_setBuffer, Option.map_some, (hcontent w.mem).2]
      rfl
  | some r =>
    obtain ⟨hw', hres⟩ := Prod.mk.inj (Option.some.inj h)
    subst hw'
    obtain ⟨others, hlive, hset⟩ := live_setBuffer hi
    -- both halves against what else is live
    have hsep : ((r.fragments ++ b'.fragments) ++ others).Pairwise Fragment.Separate :=
      hkeep others (separate_perm hlive hw.separate)
    have hvalid : ∀ x, some x ∈ (w.setBuffer i (some b')).buffers → x.Valid := by
      intro x hx
      rcases List.mem_or_eq_of_mem_set hx with hm | he
      · exact hw.valid x hm
      · exact Option.some.inj he ▸ hb'
    have hwf := WellFormed.addBuffer (w := w.setBuffer i (some b')) hvalid hw.inside (hret r rfl) (by
      rw [List.append_assoc] at hsep
      exact separate_perm ((hset (some b')).symm.append_left _) hsep)
    refine ⟨hwf, b.content w.mem, hat, by simp [view],
      Or.inr ⟨by simp [← hres, view], ?_⟩⟩
    have h1 := (hcontent w.mem).1
    have h2 := (hcontent w.mem).2
    simp only [Buffer.fragmentsOf] at h1
    simp only [view, List.map_append, List.map_set, Option.map_some, h2, List.map_cons, List.map_nil]
    simp only [Buffer.content, h1]

theorem exec_reportWritten {w w' : BufferWorld} {i sz : Nat} {res : BufferResult}
    (hw : w.WellFormed) (h : w.exec (.reportWritten i sz) = some (w', res)) :
    w'.WellFormed ∧ w.view.Allows (w.room (.reportWritten i sz)) (w.tailBytes (.reportWritten i sz))
      w'.view (.reportWritten i sz) res := by
  obtain ⟨b, hi, h⟩ := Option.bind_eq_some_iff.mp h
  obtain ⟨b', hb, h⟩ := Option.bind_eq_some_iff.mp h
  obtain ⟨hw', hres⟩ := Prod.mk.inj (Option.some.inj h)
  have hat := view_bufferAt hi
  subst hw'
  cases hl : b.fragments.getLast? with
  | none =>
    have he : b' = b := by simpa [Buffer.reportWritten, hl] using hb.symm
    subst he
    have hroom : w.room (.reportWritten i sz) = 0 := by simp [room, hi, Buffer.tailroom, hl]
    refine ⟨hw.replaceBuffer hi (hw.bufferAt_valid hi) (Keeps.refl _),
      b'.content w.mem, hat, ?_, hres.symm⟩
    rw [view_setBuffer, hroom]
    simp
  | some f =>
    have hroom : w.room (.reportWritten i sz) = f.tailroom := by simp [room, hi, Buffer.tailroom, hl]
    have htail : w.tailBytes (.reportWritten i sz) = w.mem.load f.tail f.tailroom := by
      simp [tailBytes, hi, hl]
    simp only [Buffer.reportWritten, hl] at hb
    obtain ⟨out, ho, hb⟩ := Option.bind_eq_some_iff.mp hb
    unfold Fragment.recordBytes at ho
    split at ho
    next =>
      have hbe : b' = ⟨b.fragments.dropLast ++ [{ f with size := f.size + min sz f.tailroom }],
          b.size + min sz f.tailroom⟩ := by
        rw [← Option.some.inj ho] at hb
        exact (Option.some.inj hb).symm
      obtain ⟨hwf, hview⟩ := grow_buffer hw hi hl (k := min sz f.tailroom) (by omega)
      subst hbe
      refine ⟨hwf, b.content w.mem, hat, ?_, hres.symm⟩
      rw [hview, htail, hroom, take_load]
      congr 4
      omega
    next => simp at ho

theorem exec_refines {w w' : BufferWorld} {op : BufferOp} {res : BufferResult}
    (hw : w.WellFormed) (h : w.exec op = some (w', res)) :
    w'.WellFormed ∧ w.view.Allows (w.room op) (w.tailBytes op) w'.view op res := by
  cases op with
  | create =>
    obtain ⟨hw', hres⟩ := Prod.mk.inj (Option.some.inj h)
    subst hw'
    refine ⟨WellFormed.addBuffer hw.valid hw.inside Buffer.valid_new hw.separate, ?_, ?_⟩
    · simp [view, Buffer.content, Buffer.new]
    · simp [← hres, view]
  | allocate address size headroom => exact exec_allocate hw h
  | writeFragment k r =>
    obtain ⟨hwf, f, hk, hview, hres⟩ := exec_writeFragment hw h
    have hroom : w.room (.writeFragment k r) = f.tailroom := by simp [room, hk]
    exact ⟨hwf, f.data w.mem, view_looseAt hk, by rw [hview, hroom], by rw [hres, hroom]⟩
  | wrap k =>
    obtain ⟨f, hk, h⟩ := Option.bind_eq_some_iff.mp h
    obtain ⟨hw', hres⟩ := Prod.mk.inj (Option.some.inj h)
    obtain ⟨hv, hsub, hcontent⟩ := Buffer.ofFragment_spec (hw.looseAt_inside hk)
    have hempty : WellFormed { w with loose := w.loose.set k none } :=
      hw.setLoose hk (by simp) (Keeps.sublist (List.nil_sublist _))
    obtain ⟨others, hlive, hset⟩ := live_setLoose hk
    have hnone : (live { w with loose := w.loose.set k none }).Perm others := by simpa using hset none
    have hall : ([f] ++ live { w with loose := w.loose.set k none }).Pairwise Fragment.Separate :=
      separate_perm (hnone.symm.append_left [f]) (separate_perm hlive hw.separate)
    subst hw'
    refine ⟨WellFormed.addBuffer (w := { w with loose := w.loose.set k none }) hempty.valid
      hempty.inside hv (Keeps.sublist hsub _ hall), f.data w.mem, view_looseAt hk, ?_, ?_, ?_⟩
    · simp [view, List.map_set]
    · simp [view, hcontent]
    · simp [← hres, view]
  | destroy i =>
    obtain ⟨b, hi, h⟩ := Option.bind_eq_some_iff.mp h
    obtain ⟨hw', hres⟩ := Prod.mk.inj (Option.some.inj h)
    subst hw'
    exact ⟨hw.setBuffer hi (by simp) (Keeps.sublist (List.nil_sublist _)), b.content w.mem,
      view_bufferAt hi, view_setBuffer w i none, hres.symm⟩
  | pushFragment side i k =>
    cases k with
    | none =>
      obtain ⟨b, hi, h⟩ := Option.bind_eq_some_iff.mp h
      obtain ⟨hw', hres⟩ := Prod.mk.inj (Option.some.inj h)
      have hb : b.pushFragment side none = b := by cases side <;> rfl
      subst hw'
      rw [hb]
      refine ⟨hw.replaceBuffer hi (hw.bufferAt_valid hi) (Keeps.refl _),
        b.content w.mem, [], view_bufferAt hi, ⟨rfl, rfl⟩, ?_, hres.symm⟩
      rw [view_setBuffer]
      cases side <;> simp [ByteStrings.setBuffer, Side.join]
    | some k =>
      obtain ⟨hwf, hres, b, f, hi, hk, hview⟩ := exec_pushFragment hw h
      refine ⟨hwf, b.content w.mem, f.data w.mem, view_bufferAt hi, ⟨view_looseAt hk, ?_⟩, ?_, hres⟩ <;>
        rw [hview] <;> rfl
  | pushBuffer side i j =>
    cases j with
    | none =>
      obtain ⟨b, hi, h⟩ := Option.bind_eq_some_iff.mp h
      obtain ⟨hw', hres⟩ := Prod.mk.inj (Option.some.inj h)
      have hb : b.pushBuffer side none = b := by cases side <;> rfl
      subst hw'
      rw [hb]
      refine ⟨hw.replaceBuffer hi (hw.bufferAt_valid hi) (Keeps.refl _),
        b.content w.mem, [], view_bufferAt hi, rfl, ⟨rfl, ?_⟩, hres.symm⟩
      rw [view_setBuffer]
      cases side <;> simp [ByteStrings.setBuffer, Side.join]
    | some j =>
      obtain ⟨hwf, hres, hne, b, p, hi, hj, hview⟩ := exec_pushBuffer hw h
      refine ⟨hwf, b.content w.mem, p.content w.mem, view_bufferAt hi, ?_, ⟨hne, view_bufferAt hj, ?_⟩,
        hres⟩ <;> rw [hview] <;> rfl
  | split i sz => exact exec_split hw h
  | write i r =>
    obtain ⟨b, hi, h⟩ := Option.bind_eq_some_iff.mp h
    change some (({ w with mem := (b.write w.mem r).1 } : BufferWorld).setBuffer i
      (some (b.write w.mem r).2.1), BufferResult.count (b.write w.mem r).2.2) = some (w', res) at h
    obtain ⟨hw', hres⟩ := Prod.mk.inj (Option.some.inj h)
    obtain ⟨hwf, hview, hcount⟩ := exec_write hw (r := r) hi
    have hroom : w.room (.write i r) = b.tailroom := by simp [room, hi]
    subst hw'
    refine ⟨hwf, b.content w.mem, view_bufferAt hi, ?_, ?_⟩
    · rw [hroom]
      exact hview
    · rw [← hres, hroom, ← hcount]
  | skipBytes i sz free =>
    obtain ⟨b, hi, h⟩ := Option.bind_eq_some_iff.mp h
    obtain ⟨hw', hres⟩ := Prod.mk.inj (Option.some.inj h)
    obtain ⟨hv, hkeep, hcontent⟩ := Buffer.skipBytes_spec (hw.bufferAt_valid hi) sz free
    subst hw'
    refine ⟨hw.replaceBuffer hi hv hkeep, b.content w.mem,
      view_bufferAt hi, ?_, hres.symm⟩
    rw [view_setBuffer, Option.map_some, hcontent]
  | ignoreBytesAtEnd i sz free =>
    obtain ⟨b, hi, h⟩ := Option.bind_eq_some_iff.mp h
    obtain ⟨hw', hres⟩ := Prod.mk.inj (Option.some.inj h)
    have hb := hw.bufferAt_valid hi
    obtain ⟨hv, hkeep, hcontent⟩ := Buffer.ignoreBytesAtEnd_spec hb sz free
    subst hw'
    refine ⟨hw.replaceBuffer hi hv hkeep, b.content w.mem,
      view_bufferAt hi, ?_, hres.symm⟩
    rw [view_setBuffer, Option.map_some, hcontent, hb.length_content]
  | read i n offset =>
    obtain ⟨b, hi, h⟩ := Option.bind_eq_some_iff.mp h
    rw [Buffer.read_spec (hw.bufferAt_valid hi) w.mem n offset] at h
    obtain ⟨hw', hres⟩ := Prod.mk.inj (Option.some.inj h)
    subst hw'
    exact ⟨hw, b.content w.mem, view_bufferAt hi, rfl, hres.symm⟩
  | fillTail i r =>
    obtain ⟨b, hi, h⟩ := Option.bind_eq_some_iff.mp h
    obtain ⟨f, hl, h⟩ := Option.bind_eq_some_iff.mp h
    split at h
    next hr =>
      obtain ⟨hw', hres⟩ := Prod.mk.inj (Option.some.inj h)
      have hf := (hw.bufferAt_valid hi).inside f (List.mem_of_getLast? hl)
      subst hw'
      exact ⟨⟨hw.valid, hw.inside, hw.separate⟩, view_store_tail hw (last_mem_live hi hl) hf hr, hres.symm⟩
    next => simp at h
  | reportWritten i sz => exact exec_reportWritten hw h

theorem reachable_wellFormed {w : BufferWorld} (h : Reachable w) : w.WellFormed := by
  induction h with
  | start m => exact ⟨by simp [start], by simp [start], by simp [start, live]⟩
  | next _ hstep ih => exact (exec_refines ih hstep).1

/-- A call whose objects are there and whose assertions hold returns. -/
theorem exec_returns {w : BufferWorld} (hw : w.WellFormed) {op : BufferOp} (h : w.Admits op) :
    (w.exec op).isSome := by
  cases op with
  | create => rfl
  | allocate address size headroom =>
    have hroom : headroom + (Fragment.new ⟨address, size⟩).size ≤
        (Fragment.new ⟨address, size⟩).tailroom := by
      have hle := h.2
      unfold Fragment.new Fragment.maybeRelease Fragment.tailroom Fragment.tail ByteBlob.stop
      split
      next hz =>
        simp only at hz
        simp [Fragment.released]
        omega
      next => simp only; omega
    simp [exec, h.1, Fragment.advance, hroom]
  | writeFragment k r =>
    obtain ⟨f, hf⟩ := Option.isSome_iff_exists.mp h
    simp [exec, hf]
  | wrap k =>
    obtain ⟨f, hf⟩ := Option.isSome_iff_exists.mp h
    simp [exec, hf]
  | destroy i =>
    obtain ⟨b, hb⟩ := Option.isSome_iff_exists.mp h
    simp [exec, hb]
  | pushFragment side i k =>
    obtain ⟨b, hb⟩ := Option.isSome_iff_exists.mp h.1
    cases k with
    | none => simp [exec, hb]
    | some k =>
      obtain ⟨f, hf⟩ := Option.isSome_iff_exists.mp (h.2 k rfl)
      simp [exec, hb, hf]
  | pushBuffer side i j =>
    obtain ⟨b, hb⟩ := Option.isSome_iff_exists.mp h.1
    cases j with
    | none => simp [exec, hb]
    | some j =>
      obtain ⟨hne, hj⟩ := h.2 j rfl
      obtain ⟨p, hp⟩ := Option.isSome_iff_exists.mp hj
      have hi : (w.setBuffer j none).bufferAt i = some b := by
        simpa [bufferAt, setBuffer, List.getElem?_set_ne hne] using hb
      simp [exec, hp, hi]
  | split i sz =>
    obtain ⟨b, hb⟩ := Option.isSome_iff_exists.mp h
    obtain ⟨ret, b', hs, _⟩ := Buffer.split_spec (hw.bufferAt_valid hb) sz
    cases ret <;> simp [exec, hb, hs]
  | write i r =>
    obtain ⟨b, hb⟩ := Option.isSome_iff_exists.mp h
    simp [exec, hb]
  | skipBytes i sz free =>
    obtain ⟨b, hb⟩ := Option.isSome_iff_exists.mp h
    simp [exec, hb]
  | ignoreBytesAtEnd i sz free =>
    obtain ⟨b, hb⟩ := Option.isSome_iff_exists.mp h
    simp [exec, hb]
  | read i n offset =>
    obtain ⟨b, hb⟩ := Option.isSome_iff_exists.mp h
    simp [exec, hb]
  | fillTail i r =>
    obtain ⟨b, f, hb, hf, hr⟩ := h
    simp [exec, hb, hf, hr]
  | reportWritten i sz =>
    obtain ⟨b, hb, hassert⟩ := h
    cases hl : b.fragments.getLast? with
    | none => simp [exec, hb, Buffer.reportWritten, hl]
    | some f =>
      have fits : f.recordBytes sz = some ({ f with size := f.size + min sz f.tailroom }, min sz f.tailroom) :=
        if_pos (hassert f hl)
      simp [exec, hb, Buffer.reportWritten, hl, fits]

/-- `io::buffer` refines a flat byte string: in every reachable world the cached
size is that of the content and every window is inside its blob, every call acts
on the byte strings as specified, and an admitted call returns. -/
theorem buffer_refines_byteStrings {w : BufferWorld} (h : Reachable w) :
    (∀ i b, w.bufferAt i = some b →
      b.size = (b.content w.mem).length ∧ ∀ f ∈ b.fragments, f.Inside) ∧
    (∀ op w' res, w.exec op = some (w', res) →
      w.view.Allows (w.room op) (w.tailBytes op) w'.view op res) ∧
    ∀ op, w.Admits op → (w.exec op).isSome := by
  have hw := reachable_wellFormed h
  refine ⟨?_, fun op w' res hstep => (exec_refines hw hstep).2, fun op hop => exec_returns hw hop⟩
  intro i b hi
  have hv := hw.bufferAt_valid hi
  exact ⟨(hv.length_content w.mem).symm, hv.inside⟩

theorem Reachable.exec {w w' : BufferWorld} {res : BufferResult} (h : Reachable w) (op : BufferOp)
    (hs : w.exec op = some (w', res)) : Reachable w' := h.next hs

/-- A fragment with headroom, written and split at byte two. -/
theorem buffer_refines_byteStrings_split : ∃ w b, Reachable w ∧ w.bufferAt 0 = some b ∧
    b.size = (b.content w.mem).length ∧ b.content w.mem = [7, 8] ∧ (w.exec (.split 0 1)).isSome := by
  have created := (Reachable.start fun _ => 0).exec .create rfl
  have allocated := created.exec (.allocate 16 8 2) rfl
  have pushed := allocated.exec (.pushFragment .back 0 (some 0)) rfl
  have written := pushed.exec (.write 0 [5, 6, 7, 8]) rfl
  have cut := written.exec (.split 0 2) rfl
  obtain ⟨hsize, _, hreturns⟩ := buffer_refines_byteStrings cut
  exact ⟨_, _, cut, rfl, (hsize 0 _ rfl).1, rfl, hreturns _ rfl⟩

end BufferWorld

end XiRuntime
