import XiRuntime.BufferContent
import XiRuntime.Runs
import Mathlib.Data.List.Pairwise

namespace XiRuntime

open ByteStore

/-- One of the two buffers after a clone, the only one that is worked on. -/
structure CloneState where
  mem : Mem
  buffer : Buffer

inductive CloneOp
  | write (r : List UInt8)
  | fillTail (r : List UInt8)
  | reportWritten (sz : Nat)
  | skipBytes (sz : Nat) (free : Bool)
  | ignoreBytesAtEnd (sz : Nat) (free : Bool)
  | split (sz : Nat)
  | coalesce (fresh : Fragment) (offset length : Nat)
deriving DecidableEq, Repr

namespace Buffer

/-- The range that `coalesce` fills in a fragment it grows in place. -/
def coalesceRange (b : Buffer) (offset length : Nat) : Nat × Nat :=
  if b.fragments = [] ∨ length = 0 ∨ offset ≥ b.size then (0, 0)
  else
    let length := if length > b.size - offset then b.size - offset else length
    let it := skipOffset b.fragments offset
    match it.2.1 with
    | [] => (0, 0)
    | f :: _ =>
      let headSize := f.size - it.2.2
      if headSize ≥ length ∨ headSize + f.tailroom < length then (0, 0)
      else (f.tail, min ((length + 2 ^ 64 - f.size) % 2 ^ 64) f.tailroom)

/-- No tailroom of `b` covers a byte that `c` shows. -/
def Clear (b c : Buffer) : Prop :=
  ∀ f ∈ b.fragments, ∀ g ∈ c.fragments, Apart f.tail f.tailroom g.head g.size

instance (b c : Buffer) : Decidable (b.Clear c) :=
  inferInstanceAs (Decidable (∀ f ∈ b.fragments, ∀ g ∈ c.fragments, _))

end Buffer

namespace CloneState

/-- The allocator returns an empty fragment on storage that neither buffer uses. -/
def Fresh (s : CloneState) (other : Buffer) (f : Fragment) : Prop :=
  f.size = 0 ∧ f.blob.bytes ≤ f.head ∧
    ∀ g ∈ s.buffer.fragments ++ other.fragments, f.Separate g

instance (s : CloneState) (other : Buffer) (f : Fragment) : Decidable (s.Fresh other f) :=
  inferInstanceAs (Decidable (_ ∧ _ ∧ ∀ g ∈ s.buffer.fragments ++ other.fragments, Apart _ _ _ _))

/-- One call on the buffer; what `split` returns is not worked on. `none` is a failed
assertion, a null or end dereference, or an allocator that does not keep its contract. -/
def step (other : Buffer) (s : CloneState) : CloneOp → Option CloneState
  | .write r =>
    let out := s.buffer.write s.mem r
    some ⟨out.1, out.2.1⟩
  | .fillTail r => do
    let f ← s.buffer.fragments.getLast?
    if r.length ≤ f.tailroom then some { s with mem := s.mem.store f.tail r } else none
  | .reportWritten sz => do
    let b ← s.buffer.reportWritten sz
    some { s with buffer := b }
  | .skipBytes sz free => some { s with buffer := s.buffer.skipBytes sz free }
  | .ignoreBytesAtEnd sz free => some { s with buffer := s.buffer.ignoreBytesAtEnd sz free }
  | .split sz => do
    let out ← s.buffer.split sz
    some { s with buffer := out.2 }
  | .coalesce fresh offset length =>
    if s.Fresh other fresh then do
      let out ← s.buffer.coalesce s.mem (fun _ => fresh) offset length
      some ⟨out.1, out.2.1⟩
    else none

def run (other : Buffer) (s : CloneState) (ops : List CloneOp) : Option CloneState :=
  ops.foldlM (step other) s

/-- Where a call stores bytes, fresh storage aside. -/
def storedRange (s : CloneState) : CloneOp → Nat × Nat
  | .write r =>
    match s.buffer.fragments.getLast? with
    | none => (0, 0)
    | some f => (f.tail, min r.length f.tailroom)
  | .fillTail r =>
    match s.buffer.fragments.getLast? with
    | none => (0, 0)
    | some f => (f.tail, r.length)
  | .coalesce _ offset length => s.buffer.coalesceRange offset length
  | _ => (0, 0)

/-- The call stores bytes where the other buffer shows some. -/
def Overwrites (s : CloneState) (other : Buffer) (op : CloneOp) : Prop :=
  ∃ g ∈ other.fragments, ¬ Apart (s.storedRange op).1 (s.storedRange op).2 g.head g.size

/-- The call cuts the end so that its tailroom covers bytes of the other buffer. -/
def Uncovers (s : CloneState) (other : Buffer) : CloneOp → Prop
  | .ignoreBytesAtEnd sz free => ¬ (s.buffer.ignoreBytesAtEnd sz free).Clear other
  | _ => False

end CloneState

namespace Fragment

/-- The tail range of `g` lies in that of `f`. -/
def TailWithin (g f : Fragment) : Prop :=
  g.tailroom = 0 ∨ f.tail ≤ g.tail ∧ g.blob.stop ≤ f.blob.stop

theorem TailWithin.refl (f : Fragment) : f.TailWithin f := .inr ⟨Nat.le_refl _, Nat.le_refl _⟩

theorem TailWithin.trans {f g k : Fragment} (h : g.TailWithin f) (h' : k.TailWithin g) :
    k.TailWithin f := by
  unfold TailWithin tailroom at *
  omega

theorem TailWithin.apart {f g : Fragment} {a n : Nat} (h : g.TailWithin f)
    (apart : Apart f.tail f.tailroom a n) : Apart g.tail g.tailroom a n := by
  unfold TailWithin tailroom Apart at *
  omega

theorem skipBytes_tailWithin (f : Fragment) (len : Nat) : (f.skipBytes len).1.TailWithin f := by
  unfold skipBytes maybeRelease
  simp only
  split
  next => exact .inl rfl
  next =>
    refine .inr ⟨?_, Nat.le_refl _⟩
    unfold tail
    simp only
    omega

theorem write_tailWithin (m : Mem) (f : Fragment) (r : List UInt8) :
    (f.write m r).2.1.TailWithin f := by
  refine .inr ⟨?_, Nat.le_refl _⟩
  unfold write tail
  simp only
  omega

theorem write_sameOutside (m : Mem) (f : Fragment) (r : List UInt8) :
    SameOutside m (f.write m r).1 f.tail (f.write m r).2.2 := by
  have stored := SameOutside.store m f.tail (r.take (min r.length f.tailroom))
  have length : (r.take (min r.length f.tailroom)).length = min r.length f.tailroom := by simp
  rw [length] at stored
  exact stored

theorem split_tailWithin {f g k : Fragment} {sz : Nat} (pos : 0 < sz)
    (h : f.split sz = (some g, k)) : g.TailWithin f := by
  unfold split at h
  split at h
  next => cases h
  next =>
    rw [if_neg (by omega)] at h
    simp only at h
    obtain ⟨made, -⟩ := Prod.mk.inj h
    cases made
    unfold ByteBlob.split
    split
    next => exact .inl (by simp [new, maybeRelease, ByteBlob.null, released, tailroom, ByteBlob.stop])
    next =>
      rw [if_neg (by omega)]
      simp only [new, maybeRelease]
      rw [if_neg (by omega)]
      refine .inr ⟨?_, ?_⟩
      · unfold tail headroom
        simp only
        omega
      · unfold ByteBlob.stop
        simp only
        omega

end Fragment

/-- The tail ranges of `gs` lie in those of `fs`. -/
def TailsWithin (gs fs : List Fragment) : Prop := ∀ g ∈ gs, ∃ f ∈ fs, g.TailWithin f

theorem TailsWithin.of_subset {gs fs : List Fragment} (h : ∀ g ∈ gs, g ∈ fs) : TailsWithin gs fs :=
  fun g hg => ⟨g, h g hg, .refl g⟩

theorem TailsWithin.cons {g : Fragment} {gs fs : List Fragment} (h : ∃ f ∈ fs, g.TailWithin f)
    (hs : TailsWithin gs fs) : TailsWithin (g :: gs) fs := by
  intro k hk
  rcases List.mem_cons.mp hk with rfl | hk
  · exact h
  · exact hs k hk

theorem TailsWithin.append {gs ks fs : List Fragment} (h : TailsWithin gs fs)
    (h' : TailsWithin ks fs) : TailsWithin (gs ++ ks) fs := by
  intro k hk
  rcases List.mem_append.mp hk with hk | hk
  · exact h k hk
  · exact h' k hk

namespace Buffer

theorem Clear.of_tailsWithin {b b' c : Buffer} (h : TailsWithin b'.fragments b.fragments)
    (clear : b.Clear c) : b'.Clear c := by
  intro g hg k hk
  obtain ⟨f, hf, within⟩ := h g hg
  exact within.apart (clear f hf k hk)

/-- The fragments passed over by `skip_offset` and those from the iterator on. -/
theorem mem_of_skipOffset {fs pre rest : List Fragment} {sz o : Nat}
    (h : skipOffset fs sz = (pre, rest, o)) : (∀ f ∈ pre, f ∈ fs) ∧ ∀ f ∈ rest, f ∈ fs := by
  have all := skipOffset_append fs sz
  rw [h] at all
  rw [← all]
  exact ⟨fun f hf => List.mem_append_left _ hf, fun f hf => List.mem_append_right _ hf⟩

theorem skipBytes_tailsWithin (b : Buffer) (sz : Nat) (free : Bool) :
    TailsWithin (b.skipBytes sz free).fragments b.fragments := by
  unfold skipBytes
  split
  next => exact .of_subset fun g hg => hg
  next =>
    cases hit : skipOffset b.fragments sz with
    | mk pre it =>
      obtain ⟨rest, o⟩ := it
      obtain ⟨hpre, hrest⟩ := mem_of_skipOffset hit
      -- the fragments that `free` keeps are skipped over as a whole
      have passed : ∀ fs, TailsWithin fs b.fragments →
          TailsWithin (if free then [] else fs.map fun i => (i.skipBytes i.size).1) b.fragments := by
        intro fs within g hg
        cases free with
        | true => simp at hg
        | false =>
          obtain ⟨i, hi, rfl⟩ := List.mem_map.mp hg
          obtain ⟨f, hf, tail⟩ := within i hi
          exact ⟨f, hf, tail.trans (i.skipBytes_tailWithin i.size)⟩
      have front : TailsWithin pre b.fragments := .of_subset hpre
      cases rest with
      | nil => exact passed pre front
      | cons f fs =>
        have first : ∃ k ∈ b.fragments, (f.skipBytes o).1.TailWithin k :=
          ⟨f, hrest f (by simp), f.skipBytes_tailWithin o⟩
        have behind : TailsWithin fs b.fragments := .of_subset fun g hg => hrest g (by simp [hg])
        simp only
        split
        · exact (passed _ (front.append (.cons first (.of_subset (by simp))))).append behind
        · exact (passed pre front).append (.cons first behind)

theorem split_tailsWithin {b : Buffer} {sz : Nat} {out : Option Buffer × Buffer}
    (h : b.split sz = some out) : TailsWithin out.2.fragments b.fragments := by
  unfold split at h
  split at h
  next =>
    cases h
    exact .of_subset fun g hg => hg
  next =>
    split at h
    next =>
      cases h
      exact .of_subset (by simp [new])
    next =>
      cases hit : skipOffset b.fragments sz with
      | mk pre it =>
        obtain ⟨rest, o⟩ := it
        obtain ⟨-, hrest⟩ := mem_of_skipOffset hit
        simp only [hit] at h
        split at h
        next pos =>
          cases rest with
          | nil => cases h
          | cons f fs =>
            simp only at h
            cases hs : f.split o with
            | mk node k =>
              rw [hs] at h
              cases node with
              | none => cases h
              | some node =>
                cases h
                exact .cons ⟨f, hrest f (by simp), Fragment.split_tailWithin pos hs⟩
                  (.of_subset fun g hg => hrest g (by simp [hg]))
        next =>
          cases h
          exact .of_subset hrest

theorem grow_tailsWithin {b : Buffer} {f g : Fragment} (hl : b.fragments.getLast? = some f)
    (h : g.TailWithin f) : TailsWithin (b.fragments.dropLast ++ [g]) b.fragments :=
  .append (.of_subset fun _ hk => (List.dropLast_sublist _).subset hk)
    (.cons ⟨f, List.mem_of_getLast? hl, h⟩ (.of_subset (by simp)))

theorem write_tailsWithin (m : Mem) (b : Buffer) (r : List UInt8) :
    TailsWithin (b.write m r).2.1.fragments b.fragments := by
  unfold write
  cases hl : b.fragments.getLast? with
  | none => exact .of_subset fun g hg => hg
  | some f =>
    simp only
    split
    · exact .of_subset fun g hg => hg
    · exact grow_tailsWithin hl (f.write_tailWithin m r)

theorem reportWritten_tailsWithin {b b' : Buffer} {sz : Nat} (h : b.reportWritten sz = some b') :
    TailsWithin b'.fragments b.fragments := by
  unfold reportWritten at h
  cases hl : b.fragments.getLast? with
  | none =>
    rw [hl] at h
    cases h
    exact .of_subset fun g hg => hg
  | some f =>
    rw [hl] at h
    obtain ⟨out, made, h⟩ := Option.bind_eq_some_iff.mp h
    cases h
    unfold Fragment.recordBytes at made
    split at made
    next =>
      cases made
      refine grow_tailsWithin hl (.inr ⟨?_, Nat.le_refl _⟩)
      unfold Fragment.tail
      simp only
      omega
    next => cases made

theorem tail_grown (f : Fragment) (k : Nat) :
    ({ f with size := f.size + k } : Fragment).tail = f.tail + k := by
  simp only [Fragment.tail, Nat.add_assoc]

/-- The loop grows the fragment by what it takes off the length, and stores nowhere else. -/
theorem coalesceLoop_spec (m : Mem) (target : Fragment) (is : List Fragment) (length : Nat) :
    ∃ m' rest left k, coalesceLoop m target is length =
        (m', { target with size := target.size + k }, rest, left) ∧
      k ≤ target.tailroom ∧ k + left = length ∧ SameOutside m m' target.tail k ∧
      ∀ i ∈ rest, i ∈ is := by
  induction is generalizing m target length with
  | nil => exact ⟨m, [], length, 0, rfl, Nat.zero_le _, Nat.zero_add _, .refl _ _ _, by simp⟩
  | cons i is ih =>
    unfold coalesceLoop
    split
    next enough =>
      have stored := target.write_sameOutside m (i.data m)
      have cap : (target.write m (i.data m)).2.2 = min i.size target.tailroom := by
        simp [Fragment.write]
      have grown : (target.write m (i.data m)).2.1 =
          { target with size := target.size + min i.size target.tailroom } := by
        simp [Fragment.write]
      obtain ⟨m', rest, left, k, eq, room, sum, more, behind⟩ :=
        ih (target.write m (i.data m)).1 (target.write m (i.data m)).2.1
          (length - (target.write m (i.data m)).2.2)
      rw [cap] at stored sum
      rw [grown] at room more
      rw [tail_grown] at more
      refine ⟨m', rest, left, min i.size target.tailroom + k, ?_, ?_, by omega,
        stored.append more, fun j hj => List.mem_cons_of_mem _ (behind j hj)⟩
      · refine eq.trans ?_
        simp only [grown, Nat.add_assoc]
      · unfold Fragment.tailroom at *
        rw [tail_grown] at room
        simp only at room
        omega
    next => exact ⟨m, i :: is, length, 0, rfl, Nat.zero_le _, Nat.zero_add _, .refl _ _ _, by simp⟩

theorem grown_tailWithin (f : Fragment) (k : Nat) :
    ({ f with size := f.size + k } : Fragment).TailWithin f := by
  refine .inr ⟨?_, Nat.le_refl _⟩
  unfold Fragment.tail
  simp only
  omega

theorem coalesceInto_spec {m m' : Mem} {b b' : Buffer} {pre is : List Fragment} {target : Fragment}
    {length n : Nat} (h : coalesceInto m b pre target is length = some (m', b', n)) :
    SameOutside m m' target.tail
        (min ((length + 2 ^ 64 - target.size) % 2 ^ 64) target.tailroom) ∧
      TailsWithin b'.fragments (pre ++ target :: is) := by
  have front : TailsWithin pre (pre ++ target :: is) :=
    .of_subset fun g hg => List.mem_append_left _ hg
  have own : target ∈ pre ++ target :: is := by simp
  obtain ⟨m₁, rest, left, k, eq, room, sum, same, behind⟩ :=
    coalesceLoop_spec m target is ((length + 2 ^ 64 - target.size) % 2 ^ 64)
  have later : ∀ g ∈ rest, g ∈ pre ++ target :: is := by
    intro g hg
    have := behind g hg
    simp [this]
  have grown := grown_tailWithin target k
  unfold coalesceInto at h
  rw [eq] at h
  simp only at h
  split at h
  next done =>
    cases h
    exact ⟨same.mono (Nat.le_refl _) (by omega),
      front.append (.cons ⟨target, own, grown⟩ (.of_subset later))⟩
  next =>
    cases rest with
    | nil => cases h
    | cons i is' =>
      cases h
      have stored := Fragment.write_sameOutside m₁ { target with size := target.size + k }
        ((i.data m₁).take left)
      have count : (Fragment.write m₁ { target with size := target.size + k }
          ((i.data m₁).take left)).2.2 ≤ min left (target.tailroom - k) := by
        simp only [Fragment.write, List.length_take, Fragment.length_data, Fragment.tailroom, tail_grown]
        omega
      rw [tail_grown] at stored
      refine ⟨(same.append stored).mono (Nat.le_refl _) (by omega), front.append (.cons ?_ (.cons ?_ ?_))⟩
      · exact ⟨target, own, grown.trans (Fragment.write_tailWithin _ _ _)⟩
      · exact ⟨i, later i (by simp), i.skipBytes_tailWithin left⟩
      · exact .of_subset fun g hg => later g (by simp [hg])

theorem coalesce_spec {m m' : Mem} {fresh : Fragment} {b b' : Buffer} {offset length n : Nat}
    (h : b.coalesce m (fun _ => fresh) offset length = some (m', b', n)) :
    (SameOutside m m' (b.coalesceRange offset length).1 (b.coalesceRange offset length).2 ∨
      SameOutside m m' fresh.tail fresh.tailroom) ∧
      TailsWithin b'.fragments (fresh :: b.fragments) := by
  have unchanged : TailsWithin b.fragments (fresh :: b.fragments) :=
    .of_subset fun g hg => List.mem_cons_of_mem _ hg
  unfold coalesce at h
  split at h
  next =>
    cases h
    exact ⟨.inl (.refl _ _ _), unchanged⟩
  next some =>
    cases hit : skipOffset b.fragments offset with
    | mk pre it =>
      obtain ⟨rest, o⟩ := it
      obtain ⟨hpre, hrest⟩ := mem_of_skipOffset hit
      simp only [hit] at h
      cases rest with
      | nil => cases h
      | cons f fs =>
        simp only at h
        generalize capped : (if length > b.size - offset then b.size - offset else length) = l at h
        split at h
        next =>
          cases h
          exact ⟨.inl (.refl _ _ _), unchanged⟩
        next short =>
          split at h
          next =>
            obtain ⟨same, within⟩ := coalesceInto_spec h
            refine ⟨.inr (same.mono (Nat.le_refl _) (by omega)), fun g hg => ?_⟩
            obtain ⟨k, hk, tail⟩ := within g hg
            refine ⟨k, ?_, tail⟩
            rcases List.mem_append.mp hk with hk | hk
            · exact List.mem_cons_of_mem _ (hpre k hk)
            · rcases List.mem_cons.mp hk with rfl | hk
              · exact List.mem_cons_self
              · exact List.mem_cons_of_mem _ (hrest k hk)
          next room =>
            obtain ⟨same, within⟩ := coalesceInto_spec h
            refine ⟨.inl ?_, fun g hg => ?_⟩
            · unfold coalesceRange
              rw [if_neg some]
              simp only [hit, capped]
              rw [if_neg (by omega)]
              exact same
            · obtain ⟨k, hk, tail⟩ := within g hg
              refine ⟨k, List.mem_cons_of_mem _ ?_, tail⟩
              rcases List.mem_append.mp hk with hk | hk
              · exact hpre k hk
              · exact hrest k hk

/-- Every window lies in its blob, or is empty. -/
def Windows (b : Buffer) : Prop := ∀ g ∈ b.fragments, g.size = 0 ∨ g.Inside

theorem flatMap_data_sameOutside {m m' : Mem} {fs : List Fragment} {a n : Nat}
    (same : SameOutside m m' a n) (apart : ∀ g ∈ fs, Apart a n g.head g.size) :
    fs.flatMap (Fragment.data m') = fs.flatMap (Fragment.data m) := by
  apply List.flatMap_congr
  intro g hg
  exact same.load (apart g hg)

theorem content_of_sameOutside {m m' : Mem} {c : Buffer} {a n : Nat} (h : SameOutside m m' a n)
    (apart : ∀ g ∈ c.fragments, Apart a n g.head g.size) : c.content m' = c.content m :=
  flatMap_data_sameOutside h apart

/-- The range that `coalesce` fills lies in one of the tail ranges. -/
theorem coalesceRange_apart {b c : Buffer} (clear : b.Clear c) (offset length : Nat) :
    ∀ g ∈ c.fragments,
      Apart (b.coalesceRange offset length).1 (b.coalesceRange offset length).2 g.head g.size := by
  intro g hg
  unfold coalesceRange
  split
  next => exact .inl rfl
  next =>
    cases hit : skipOffset b.fragments offset with
    | mk pre it =>
      obtain ⟨rest, o⟩ := it
      cases rest with
      | nil => exact .inl rfl
      | cons f fs =>
        simp only
        generalize (if length > b.size - offset then b.size - offset else length) = l
        split
        next => exact .inl rfl
        next =>
          have apart := clear f ((mem_of_skipOffset hit).2 f (by simp)) g hg
          unfold Apart at *
          omega

end Buffer

namespace CloneState

theorem Fresh.apart {s : CloneState} {other : Buffer} {f : Fragment} (fresh : s.Fresh other f)
    (windows : other.Windows) :
    ∀ g ∈ other.fragments, Apart f.tail f.tailroom g.head g.size := by
  intro g hg
  obtain ⟨empty, low, separate⟩ := fresh
  have apart := separate g (List.mem_append_right _ hg)
  have window := windows g hg
  unfold Fragment.Separate Fragment.Inside Fragment.tailroom Fragment.tail ByteBlob.stop Apart at *
  omega

/-- A call that stores nothing over the other buffer leaves its bytes alone. -/
theorem step_content {other : Buffer} {s s' : CloneState} {op : CloneOp} (windows : other.Windows)
    (h : step other s op = some s') (keeps : ¬ s.Overwrites other op) :
    other.content s'.mem = other.content s.mem := by
  have apart : ∀ g ∈ other.fragments,
      Apart (s.storedRange op).1 (s.storedRange op).2 g.head g.size := by
    intro g hg
    by_contra touches
    exact keeps ⟨g, hg, touches⟩
  cases op with
  | write r =>
    cases h
    simp only [storedRange] at apart
    simp only [Buffer.write]
    cases hl : s.buffer.fragments.getLast? with
    | none => rfl
    | some f =>
      rw [hl] at apart
      simp only
      split
      · rfl
      · exact Buffer.content_of_sameOutside (f.write_sameOutside s.mem r) apart
  | fillTail r =>
    obtain ⟨f, hl, h⟩ := Option.bind_eq_some_iff.mp h
    simp only [storedRange, hl] at apart
    split at h
    next =>
      cases h
      exact Buffer.content_of_sameOutside (.store s.mem f.tail r) apart
    next => cases h
  | reportWritten sz =>
    obtain ⟨b, -, h⟩ := Option.bind_eq_some_iff.mp h
    cases h
    rfl
  | skipBytes sz free =>
    cases h
    rfl
  | ignoreBytesAtEnd sz free =>
    cases h
    rfl
  | split sz =>
    obtain ⟨out, -, h⟩ := Option.bind_eq_some_iff.mp h
    cases h
    rfl
  | coalesce fresh offset length =>
    simp only [step] at h
    split at h
    next contract =>
      obtain ⟨⟨m', b', n⟩, made, h⟩ := Option.bind_eq_some_iff.mp h
      cases h
      rcases (Buffer.coalesce_spec made).1 with same | same
      · exact Buffer.content_of_sameOutside same apart
      · exact Buffer.content_of_sameOutside same (contract.apart windows)
    next => cases h

/-- As long as no tailroom covers the other buffer, nothing is stored over it. -/
theorem not_overwrites_of_clear {other : Buffer} {s s' : CloneState} {op : CloneOp}
    (h : step other s op = some s') (clear : s.buffer.Clear other) : ¬ s.Overwrites other op := by
  rintro ⟨g, hg, touches⟩
  apply touches
  cases op with
  | write r =>
    cases hl : s.buffer.fragments.getLast? with
    | none =>
      simp only [storedRange, hl]
      exact .inl rfl
    | some f =>
      have apart := clear f (List.mem_of_getLast? hl) g hg
      simp only [storedRange, hl]
      unfold Apart at *
      omega
  | fillTail r =>
    obtain ⟨f, hl, h⟩ := Option.bind_eq_some_iff.mp h
    have apart := clear f (List.mem_of_getLast? hl) g hg
    split at h
    next fits =>
      simp only [storedRange, hl]
      unfold Apart at *
      omega
    next => cases h
  | coalesce fresh offset length => exact Buffer.coalesceRange_apart clear offset length g hg
  | reportWritten sz => exact .inl rfl
  | skipBytes sz free => exact .inl rfl
  | ignoreBytesAtEnd sz free => exact .inl rfl
  | split sz => exact .inl rfl

theorem step_clear {other : Buffer} {s s' : CloneState} {op : CloneOp} (windows : other.Windows)
    (h : step other s op = some s') (clear : s.buffer.Clear other) (keeps : ¬ s.Uncovers other op) :
    s'.buffer.Clear other := by
  cases op with
  | write r =>
    cases h
    exact .of_tailsWithin (s.buffer.write_tailsWithin s.mem r) clear
  | fillTail r =>
    obtain ⟨f, -, h⟩ := Option.bind_eq_some_iff.mp h
    split at h
    next =>
      cases h
      exact clear
    next => cases h
  | reportWritten sz =>
    obtain ⟨b, made, h⟩ := Option.bind_eq_some_iff.mp h
    cases h
    exact .of_tailsWithin (Buffer.reportWritten_tailsWithin made) clear
  | skipBytes sz free =>
    cases h
    exact .of_tailsWithin (s.buffer.skipBytes_tailsWithin sz free) clear
  | ignoreBytesAtEnd sz free =>
    cases h
    exact Decidable.not_not.mp keeps
  | split sz =>
    obtain ⟨out, made, h⟩ := Option.bind_eq_some_iff.mp h
    cases h
    exact .of_tailsWithin (Buffer.split_tailsWithin made) clear
  | coalesce fresh offset length =>
    simp only [step] at h
    split at h
    next contract =>
      obtain ⟨⟨m', b', n⟩, made, h⟩ := Option.bind_eq_some_iff.mp h
      cases h
      have joined : Buffer.Clear ⟨fresh :: s.buffer.fragments, s.buffer.size⟩ other := by
        intro f hf g hg
        rcases List.mem_cons.mp hf with rfl | hf
        · exact contract.apart windows g hg
        · exact clear f hf g hg
      exact .of_tailsWithin (b := ⟨fresh :: s.buffer.fragments, s.buffer.size⟩)
        (Buffer.coalesce_spec made).2 joined
    next => cases h

/-- No call of the run is one that `bad` names in the state it is made in. -/
def Avoids (bad : CloneState → CloneOp → Prop) (other : Buffer) (s : CloneState)
    (ops : List CloneOp) : Prop :=
  ∀ n op t, ops[n]? = some op → run other s (ops.take n) = some t → ¬ bad t op

/-- The run leaves the bytes of the other buffer alone. -/
def Untouched (other : Buffer) (s : CloneState) (ops : List CloneOp) : Prop :=
  ∀ n t, run other s (ops.take n) = some t → other.content t.mem = other.content s.mem

/-- What each call keeps as long as it is not a bad one holds all along. -/
theorem run_invariant {bad : CloneState → CloneOp → Prop} {P : CloneState → Prop} {other : Buffer}
    {s : CloneState} {ops : List CloneOp} (avoids : Avoids bad other s ops) (init : P s)
    (keep : ∀ t t' op, step other t op = some t' → ¬ bad t op → P t → P t') :
    ∀ n t, run other s (ops.take n) = some t → P t := by
  intro n t reached
  refine Runs.partial_invariant init ?_ n reached
  intro n op u u' ha before taken here
  exact keep u u' op taken (avoids n op u ha before) here

theorem untouched_of_not_overwrites {other : Buffer} {s : CloneState} {ops : List CloneOp}
    (windows : other.Windows) (avoids : Avoids (·.Overwrites other ·) other s ops) :
    Untouched other s ops := by
  refine run_invariant (P := fun t => other.content t.mem = other.content s.mem) avoids rfl ?_
  intro t t' op taken keeps same
  exact (step_content windows taken keeps).trans same

theorem untouched_of_clear {other : Buffer} {s : CloneState} {ops : List CloneOp}
    (windows : other.Windows) (clear : s.buffer.Clear other)
    (avoids : Avoids (·.Uncovers other ·) other s ops) : Untouched other s ops := by
  intro n t reached
  have both := run_invariant
    (P := fun t => t.buffer.Clear other ∧ other.content t.mem = other.content s.mem) avoids
    ⟨clear, rfl⟩ ?_ n t reached
  · exact both.2
  · rintro t t' op taken keeps ⟨clear, same⟩
    exact ⟨step_clear windows taken clear keeps,
      (step_content windows taken (not_overwrites_of_clear taken clear)).trans same⟩

end CloneState

theorem Fragment.clone_tailWithin (f : Fragment) : f.clone.TailWithin f := by
  unfold clone new maybeRelease
  split
  · exact .inl (by simp [tailroom, released, ByteBlob.null, ByteBlob.stop])
  · exact .refl f

namespace Buffer

theorem clone_content (m : Mem) (b : Buffer) : b.clone.content m = b.content m := by
  rw [content, content, clone, List.flatMap_map]
  rfl

theorem Valid.windows {b : Buffer} (hv : b.Valid) : b.Windows := fun g hg => .inr (hv.inside g hg)

theorem Valid.clone_windows {b : Buffer} (hv : b.Valid) : b.clone.Windows := by
  intro g hg
  obtain ⟨f, hf, rfl⟩ := List.mem_map.mp hg
  have inside := hv.inside f hf
  by_cases empty : f.size = 0
  · exact .inl empty
  · refine .inr ?_
    have same : f.clone = f := by
      unfold Fragment.Inside Fragment.tail ByteBlob.stop at inside
      unfold Fragment.clone Fragment.new Fragment.maybeRelease
      rw [if_neg (by simp only; omega)]
    rw [same]
    exact inside

theorem Clear.clone_right {b c : Buffer} (clear : b.Clear c) : b.Clear c.clone := by
  intro f hf g hg
  obtain ⟨k, hk, rfl⟩ := List.mem_map.mp hg
  exact clear f hf k hk

theorem Clear.clone_left {b c : Buffer} (clear : b.Clear c) : b.clone.Clear c := by
  refine .of_tailsWithin ?_ clear
  intro g hg
  obtain ⟨f, hf, rfl⟩ := List.mem_map.mp hg
  exact ⟨f, hf, f.clone_tailWithin⟩

theorem clear_self_of_separate {b : Buffer} (hv : b.Valid)
    (separate : b.fragments.Pairwise Fragment.Separate) : b.Clear b := by
  intro f hf g hg
  have inside := hv.inside f hf
  have inside' := hv.inside g hg
  by_cases same : f = g
  · subst same
    unfold Fragment.tail Apart
    omega
  · have apart := separate.forall hf hg same
    unfold Fragment.Separate Fragment.Inside Fragment.tailroom Fragment.tail ByteBlob.stop Apart at *
    omega

end Buffer

namespace CloneState

/-- Only `ignore_bytes_at_end` can uncover bytes. -/
theorem avoids_uncovers (other : Buffer) (s : CloneState) {ops : List CloneOp}
    (h : ∀ sz free, .ignoreBytesAtEnd sz free ∉ ops) : Avoids (·.Uncovers other ·) other s ops := by
  intro n op t ha _ uncovers
  cases op with
  | ignoreBytesAtEnd sz free => exact h sz free (List.mem_of_getElem? ha)
  | _ => exact uncovers

/-- A clone shows the bytes of the original and shares its storage. Work on one of the two
leaves the other alone as long as no call stores where the other shows bytes; and when the
tailrooms of the original cover none of its own bytes, as on separate blobs, this takes an
`ignore_bytes_at_end` that uncovers bytes of the other. -/
theorem clone_isolated (m : Mem) {b : Buffer} (hv : b.Valid) :
    b.clone.content m = b.content m ∧
      (∀ x y, (x, y) = (b, b.clone) ∨ (x, y) = (b.clone, b) → ∀ ops,
        (Avoids (·.Overwrites y ·) y ⟨m, x⟩ ops → Untouched y ⟨m, x⟩ ops) ∧
          (b.Clear b → Avoids (·.Uncovers y ·) y ⟨m, x⟩ ops → Untouched y ⟨m, x⟩ ops)) ∧
      (b.fragments.Pairwise Fragment.Separate → b.Clear b) := by
  refine ⟨b.clone_content m, ?_, Buffer.clear_self_of_separate hv⟩
  intro x y pair ops
  rcases pair with pair | pair
  · obtain ⟨rfl, rfl⟩ := Prod.mk.inj pair
    refine ⟨untouched_of_not_overwrites hv.clone_windows, fun clear => ?_⟩
    exact untouched_of_clear hv.clone_windows clear.clone_right
  · obtain ⟨rfl, rfl⟩ := Prod.mk.inj pair
    refine ⟨untouched_of_not_overwrites hv.windows, fun clear => ?_⟩
    exact untouched_of_clear hv.windows clear.clone_left

/-- Two bytes, with room for two more. -/
def twoBytes : Buffer := ⟨[⟨⟨0, 4⟩, 0, 2⟩], 2⟩

theorem twoBytes_valid : twoBytes.Valid := by
  refine ⟨rfl, ?_⟩
  simp [twoBytes, Fragment.Inside, Fragment.tail, ByteBlob.stop]

/-- The original is written to, cut and written to again. -/
theorem clone_isolated_of_two :
    ∃ s, run twoBytes.clone ⟨Mem.addresses, twoBytes⟩
        [.write [7], .skipBytes 1 true, .split 1, .write [8, 9]] = some s ∧
      twoBytes.clone.content s.mem = [0, 1] := by
  have separate : twoBytes.fragments.Pairwise Fragment.Separate := by simp [twoBytes]
  obtain ⟨-, isolated, clear⟩ := clone_isolated Mem.addresses twoBytes_valid
  have untouched := (isolated _ _ (.inl rfl) [.write [7], .skipBytes 1 true, .split 1, .write [8, 9]]).2
    (clear separate) (avoids_uncovers _ _ (by simp))
  exact ⟨_, rfl, untouched 4 _ rfl⟩

/-- The last byte is cut off the original, and the byte written in its place shows in the
clone. -/
theorem clone_shows_overwritten :
    twoBytes.Valid ∧ ∃ s, run twoBytes.clone ⟨Mem.addresses, twoBytes⟩
        [.ignoreBytesAtEnd 1 true, .write [9]] = some s ∧
      twoBytes.clone.content s.mem = [0, 9] ∧
      twoBytes.clone.content Mem.addresses = [0, 1] :=
  ⟨twoBytes_valid, _, rfl, rfl, rfl⟩

end CloneState

end XiRuntime
