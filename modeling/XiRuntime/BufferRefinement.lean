import XiRuntime.BufferWorld
import Mathlib.Data.List.Pairwise

namespace XiRuntime

open ByteStore

theorem slot_split {α : Type} {l : List (Option α)} {i : Nat} {x : α} (h : l[i]?.join = some x) :
    ∃ front back, l = front ++ some x :: back ∧ front.length = i := by
  have hi : l[i]? = some (some x) := by
    cases hl : l[i]? with
    | none => simp [hl] at h
    | some y =>
      have : y = some x := by simpa [hl] using h
      rw [this]
  obtain ⟨hlt, hx⟩ := List.getElem?_eq_some_iff.mp hi
  refine ⟨l.take i, l.drop (i + 1), ?_, by simp; omega⟩
  rw [← hx, List.getElem_cons_drop, List.take_append_drop]

theorem set_slot {α : Type} {front back : List α} {x y : α} {i : Nat} (h : front.length = i) :
    (front ++ x :: back).set i y = front ++ y :: back := by
  subst h
  simp

namespace Buffer

theorem pushBuffer_spec {b p : Buffer} (side : Side) (hb : b.Valid) (hp : p.Valid) :
    (b.pushBuffer side (some p)).Valid ∧
      (b.pushBuffer side (some p)).fragments.Perm (p.fragments ++ b.fragments) ∧
      ∀ m, (b.pushBuffer side (some p)).content m = side.join (b.content m) (p.content m) := by
  have hbs := hb.size_eq
  have hps := hp.size_eq
  cases side with
  | front =>
    exact ⟨valid_of_parts (by omega) hp.inside hb.inside, List.Perm.refl _,
      fun m => by simp [pushBuffer, pushFrontBuffer, content, Side.join]⟩
  | back =>
    exact ⟨valid_of_parts (by omega) hb.inside hp.inside, List.perm_append_comm,
      fun m => by simp [pushBuffer, pushBackBuffer, content, Side.join]⟩

/-- Pushing a fragment is pushing the buffer made of it. -/
theorem pushFragment_eq (side : Side) (b : Buffer) (f : Fragment) :
    b.pushFragment side (some f) = b.pushBuffer side (some ⟨[f], f.size⟩) := by
  cases side <;> rfl

theorem valid_single {f : Fragment} (hf : f.Inside) : Valid ⟨[f], f.size⟩ :=
  ⟨by simp, by simpa using hf⟩

theorem ofFragment_spec {f : Fragment} (hf : f.Inside) :
    (ofFragment f).Valid ∧ (ofFragment f).fragments.Sublist [f] ∧
      ∀ m, (ofFragment f).content m = f.data m := by
  unfold ofFragment
  split
  next h =>
    refine ⟨valid_new, List.nil_sublist _, fun m => ?_⟩
    rw [Fragment.data_of_size_zero h.1]
    rfl
  next =>
    exact ⟨valid_single hf, List.Sublist.refl _, fun m => by simp [content]⟩

end Buffer

namespace BufferWorld

theorem WellFormed.bufferAt_valid {w : BufferWorld} (hw : w.WellFormed) {i : Nat} {b : Buffer}
    (hi : w.bufferAt i = some b) : b.Valid := by
  obtain ⟨front, back, hl, _⟩ := slot_split hi
  exact hw.valid b (by simp [hl])

theorem WellFormed.looseAt_inside {w : BufferWorld} (hw : w.WellFormed) {k : Nat} {f : Fragment}
    (hk : w.looseAt k = some f) : f.Inside := by
  obtain ⟨front, back, hl, _⟩ := slot_split hk
  exact hw.inside f (by simp [hl])

theorem view_bufferAt {w : BufferWorld} {i : Nat} {b : Buffer} (hi : w.bufferAt i = some b) :
    w.view.buffers[i]? = some (some (b.content w.mem)) := by
  obtain ⟨front, back, hl, hn⟩ := slot_split hi
  simp [view, hl, ← hn]

theorem view_looseAt {w : BufferWorld} {k : Nat} {f : Fragment} (hk : w.looseAt k = some f) :
    w.view.loose[k]? = some (some (f.data w.mem)) := by
  obtain ⟨front, back, hl, hn⟩ := slot_split hk
  simp [view, hl, ← hn]

/-- The live fragments outside one buffer slot. -/
theorem live_setBuffer {w : BufferWorld} {i : Nat} {b : Buffer} (hi : w.bufferAt i = some b) :
    ∃ others, w.live.Perm (b.fragments ++ others) ∧
      ∀ x, (w.setBuffer i x).live.Perm (Buffer.fragmentsOf x ++ others) := by
  obtain ⟨front, back, hl, hn⟩ := slot_split hi
  refine ⟨front.flatMap Buffer.fragmentsOf ++ (back.flatMap Buffer.fragmentsOf ++
    w.loose.flatMap Option.toList), ?_, fun x => ?_⟩
  · simp only [live, hl, List.flatMap_append, List.flatMap_cons, Buffer.fragmentsOf, List.append_assoc]
    exact List.perm_append_comm_assoc _ _ _
  · simp only [live, setBuffer, hl, set_slot hn, List.flatMap_append, List.flatMap_cons,
      List.append_assoc]
    exact List.perm_append_comm_assoc _ _ _

theorem live_setLoose {w : BufferWorld} {k : Nat} {f : Fragment} (hk : w.looseAt k = some f) :
    ∃ others, w.live.Perm (f :: others) ∧
      ∀ x, BufferWorld.live { w with loose := w.loose.set k x } |>.Perm (Option.toList x ++ others) := by
  obtain ⟨front, back, hl, hn⟩ := slot_split hk
  refine ⟨w.buffers.flatMap Buffer.fragmentsOf ++ front.flatMap Option.toList ++
    back.flatMap Option.toList, ?_, fun x => ?_⟩
  · have middle : (w.buffers.flatMap Buffer.fragmentsOf ++ front.flatMap Option.toList ++
        f :: back.flatMap Option.toList).Perm (f :: (w.buffers.flatMap Buffer.fragmentsOf ++
          front.flatMap Option.toList ++ back.flatMap Option.toList)) := List.perm_middle
    simpa [live, hl] using middle
  · simp only [live, hl, set_slot hn, List.flatMap_append, List.flatMap_cons]
    rw [← List.append_assoc]
    exact List.perm_append_comm_assoc _ _ _

/-- Replacing one buffer by one that keeps to its storage. -/
theorem WellFormed.setBuffer {w : BufferWorld} (hw : w.WellFormed) {i : Nat} {b : Buffer}
    (hi : w.bufferAt i = some b) {x : Option Buffer} (hv : ∀ b', x = some b' → b'.Valid)
    (hk : Keeps (Buffer.fragmentsOf x) b.fragments) : (w.setBuffer i x).WellFormed := by
  obtain ⟨others, hlive, hset⟩ := live_setBuffer hi
  refine ⟨?_, hw.inside, separate_perm (hset x).symm (hk others (separate_perm hlive hw.separate))⟩
  intro b' hb'
  rcases List.mem_or_eq_of_mem_set hb' with hm | he
  · exact hw.valid b' hm
  · exact hv b' he.symm

/-- A buffer that keeps to the storage of the one it replaces. -/
theorem WellFormed.replaceBuffer {w : BufferWorld} (hw : w.WellFormed) {i : Nat} {b b' : Buffer}
    (hi : w.bufferAt i = some b) (hv : b'.Valid) (hk : Keeps b'.fragments b.fragments) :
    (w.setBuffer i (some b')).WellFormed := by
  refine hw.setBuffer hi ?_ hk
  intro x hx
  cases hx
  exact hv

theorem view_setBuffer (w : BufferWorld) (i : Nat) (x : Option Buffer) :
    (w.setBuffer i x).view = w.view.setBuffer i (x.map (Buffer.content w.mem)) := by
  simp [view, BufferWorld.setBuffer, ByteStrings.setBuffer, List.map_set]

/-- Bytes stored in the tailroom of a live fragment show in no live fragment. -/
theorem view_store_tail {w : BufferWorld} (hw : w.WellFormed) {f : Fragment} (hf : f ∈ w.live)
    (hi : f.Inside) {xs : List UInt8} (hx : xs.length ≤ f.tailroom) :
    view { w with mem := w.mem.store f.tail xs } = w.view := by
  have hdata : ∀ g ∈ w.live, g.Inside → g.data (w.mem.store f.tail xs) = g.data w.mem := by
    intro g hg hgi
    by_cases he : f = g
    · subst he
      exact Buffer.data_store_own_tail _ _ _
    · exact Buffer.data_store_tail _ hi hx hgi
        (hw.separate.forall hf hg he)
  have hbuffers : w.buffers.map (Option.map (Buffer.content (w.mem.store f.tail xs))) =
      w.buffers.map (Option.map (Buffer.content w.mem)) := by
    apply List.map_congr_left
    intro x hx
    cases x with
    | none => rfl
    | some b =>
      simp only [Option.map_some, Buffer.content, Option.some.injEq]
      apply List.flatMap_congr
      intro g hg
      have hlive : g ∈ w.live :=
        List.mem_append_left _ (List.mem_flatMap.mpr ⟨some b, hx, hg⟩)
      exact hdata g hlive ((hw.valid b hx).inside g hg)
  have hloose : w.loose.map (Option.map (Fragment.data (w.mem.store f.tail xs))) =
      w.loose.map (Option.map (Fragment.data w.mem)) := by
    apply List.map_congr_left
    intro x hx
    cases x with
    | none => rfl
    | some g =>
      have hlive : g ∈ w.live :=
        List.mem_append_right _ (List.mem_flatMap.mpr ⟨some g, hx, by simp⟩)
      simp [hdata g hlive (hw.inside g hx)]
  simp only [view, hbuffers, hloose]

theorem last_mem_live {w : BufferWorld} {i : Nat} {b : Buffer} {f : Fragment}
    (hi : w.bufferAt i = some b) (hl : b.fragments.getLast? = some f) : f ∈ w.live := by
  obtain ⟨others, hlive, _⟩ := live_setBuffer hi
  exact hlive.mem_iff.mpr (List.mem_append_left _ (List.mem_of_getLast? hl))

/-- Growing the last fragment of a buffer by `k` bytes of its tailroom. -/
theorem grow_buffer {w : BufferWorld} (hw : w.WellFormed) {i : Nat} {b : Buffer} {f : Fragment}
    (hi : w.bufferAt i = some b) (hl : b.fragments.getLast? = some f) {k : Nat} (hk : k ≤ f.tailroom) :
    (w.setBuffer i (some ⟨b.fragments.dropLast ++ [{ f with size := f.size + k }], b.size + k⟩)).WellFormed ∧
      (w.setBuffer i (some ⟨b.fragments.dropLast ++ [{ f with size := f.size + k }], b.size + k⟩)).view =
        w.view.setBuffer i (some (b.content w.mem ++ w.mem.load f.tail k)) := by
  obtain ⟨hv, hkeep⟩ := Buffer.grow_last (hw.bufferAt_valid hi) hl hk
  refine ⟨hw.setBuffer hi ?_ hkeep, ?_⟩
  · intro b' hb'
    cases Option.some.inj hb'
    exact hv
  · rw [view_setBuffer]
    simp only [Option.map_some, Buffer.content_grow_last _ _ hl]

theorem exec_write {w : BufferWorld} (hw : w.WellFormed) {i : Nat} {b : Buffer} {r : List UInt8}
    (hi : w.bufferAt i = some b) :
    (({ w with mem := (b.write w.mem r).1 } : BufferWorld).setBuffer i (some (b.write w.mem r).2.1)).WellFormed ∧
      (({ w with mem := (b.write w.mem r).1 } : BufferWorld).setBuffer i (some (b.write w.mem r).2.1)).view =
        w.view.setBuffer i (some (b.content w.mem ++ r.take (min r.length b.tailroom))) ∧
      (b.write w.mem r).2.2 = min r.length b.tailroom := by
  have same : w.setBuffer i (some b) = w := by
    obtain ⟨front, back, hs, hn⟩ := slot_split hi
    cases w
    simp only [BufferWorld.setBuffer] at hs ⊢
    rw [hs, set_slot hn]
  cases hl : b.fragments.getLast? with
  | none =>
    have hroom : b.tailroom = 0 := by simp [Buffer.tailroom, hl]
    simp only [Buffer.write, hl, hroom, Nat.min_zero, List.take_zero, List.append_nil]
    refine ⟨by rw [same]; exact hw, ?_, trivial⟩
    exact view_setBuffer w i (some b)
  | some f =>
    have hroom : b.tailroom = f.tailroom := by simp [Buffer.tailroom, hl]
    by_cases hr : r = []
    · simp only [Buffer.write, hl, hr, if_true, List.length_nil, Nat.zero_min, List.take_nil,
        List.append_nil]
      refine ⟨by rw [same]; exact hw, ?_, trivial⟩
      exact view_setBuffer w i (some b)
    · have hcap : (r.take (min r.length f.tailroom)).length = min r.length f.tailroom := by simp
      have hfits : (r.take (min r.length f.tailroom)).length ≤ f.tailroom := by omega
      -- the store first, then the growth over what was stored
      have hstore := view_store_tail hw (last_mem_live hi hl)
        ((hw.bufferAt_valid hi).inside f (List.mem_of_getLast? hl)) hfits
      have hw' : WellFormed { w with mem := w.mem.store f.tail (r.take (min r.length f.tailroom)) } :=
        ⟨hw.valid, hw.inside, hw.separate⟩
      have hi' : bufferAt { w with mem := w.mem.store f.tail (r.take (min r.length f.tailroom)) } i =
          some b := hi
      obtain ⟨hgrown, hview⟩ := grow_buffer hw' hi' hl (k := min r.length f.tailroom) (by omega)
      have hcontent : b.content (w.mem.store f.tail (r.take (min r.length f.tailroom))) =
          b.content w.mem := by
        have := (view_bufferAt hi').symm.trans (hstore ▸ view_bufferAt hi)
        simpa using this
      have hload : (w.mem.store f.tail (r.take (min r.length f.tailroom))).load f.tail
          (min r.length f.tailroom) = r.take (min r.length f.tailroom) := by
        conv => lhs; arg 3; rw [← hcap]
        exact load_store_same _ _ _
      simp only [Buffer.write, hl, hr, if_false, Fragment.write, hroom]
      refine ⟨hgrown, ?_, trivial⟩
      rw [hview, hstore]
      simp only [hcontent, hload]

end BufferWorld

end XiRuntime
