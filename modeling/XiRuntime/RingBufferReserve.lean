import XiRuntime.RingBufferThrow

namespace XiRuntime

open ByteStore

namespace Ring

variable {s : Ring}

/-- What a writer could write at most. -/
def free (s : Ring) : Nat := writeAvailable s.writeIdx s.readIdx s.size

/-- `push` is `push_forced` where the reserve is left free behind the record. -/
theorem push_eq (hb : s.size < 2 ^ 63) (hw : s.writeIdx < s.size) (hr : s.readIdx < s.size)
    (rec : Record) :
    s.push rec =
      if (s.pushForced rec).1 = true ∧ s.reserved ≤ (s.pushForced rec).2.free then s.pushForced rec
      else (false, s) := by
  rw [push, pushForced, doPush_place, doPush_place, place_false hb hw hr]
  cases s.place rec true with
  | none => simp
  | some a =>
    have after : (s.put rec a).free = writeAvailable (s.put rec a).writeIdx s.readIdx s.size := rfl
    simp only [Option.bind_some, Option.elim_some, true_and, after]
    split
    next => rfl
    next => rfl

theorem pushForced_refused {rec : Record} (h : (s.pushForced rec).1 = false) : (s.pushForced rec).2 = s := by
  rw [pushForced, doPush_place] at h ⊢
  cases hp : s.place rec true with
  | none => rfl
  | some a => simp [hp] at h

/-- Where the indices meet, the free bytes behind them and those in front of them do
not make one block. -/
theorem pushForced_empty (hb : s.size < 2 ^ 63) (hw : s.writeIdx < s.size) (heq : s.readIdx = s.writeIdx)
    (rec : Record) :
    (s.pushForced rec).1 = true ↔ s.writeIdx + rec.size < s.size ∨ rec.size < s.writeIdx := by
  rw [pushForced, doPush_place, place_true hb hw (heq ▸ hw), heq]
  split
  next hahead => simp [hahead.1]
  next hahead =>
    split
    next hwrap => simp [hwrap.2.2]
    next hwrap =>
      simp only [Option.elim_none, Bool.false_eq_true, false_iff]
      omega

end Ring

namespace RingRun

variable {s : RingRun}

/-- `push` and `push_forced` differ in nothing but the reserve, and a push that is
refused changes nothing. -/
theorem push_differs_by_reserve (h : Reaches s) (rec : Record) :
    ((s.ring.push rec).1 = true ↔
      (s.ring.pushForced rec).1 = true ∧ s.ring.reserved ≤ (s.ring.pushForced rec).2.free) ∧
    ((s.ring.push rec).1 = true → (s.ring.pushForced rec).1 = true →
      (s.ring.push rec).2 = (s.ring.pushForced rec).2) ∧
    ((s.ring.push rec).1 = false → (s.ring.push rec).2 = s.ring) := by
  have good := reaches_good h
  have eq := Ring.push_eq good.bound good.write_lt good.read_lt rec
  by_cases hkept : (s.ring.pushForced rec).1 = true ∧ s.ring.reserved ≤ (s.ring.pushForced rec).2.free
  · rw [if_pos hkept] at eq
    rw [eq]
    refine ⟨iff_of_true hkept.1 hkept, fun _ _ => rfl, fun hrefused => ?_⟩
    rw [hkept.1] at hrefused
    exact absurd hrefused (by simp)
  · rw [if_neg hkept] at eq
    rw [eq]
    exact ⟨iff_of_false (by simp) hkept, fun haccepted => absurd haccepted (by simp), fun _ => rfl⟩

/-- In a ring of 48 bytes with a reserve of 16, a second record is kept out of it. -/
theorem push_differs_by_reserve_second :
    ∃ s : RingRun, Reaches s ∧ s.queue = [oneWord 1] ∧ (s.ring.pushForced (oneWord 2)).1 = true ∧
      (s.ring.push (oneWord 2)).1 = false ∧ (s.ring.push (oneWord 2)).2 = s.ring := by
  have h0 : Reaches ⟨⟨48, 16, 0, 0, fun _ => 0⟩, false, []⟩ := .start 48 16 _ (by omega) (by omega)
  have h1 := Reaches.call (.op (.push (oneWord 1))) h0 rfl
  exact ⟨_, h1, rfl, by decide, by decide, (push_differs_by_reserve h1 (oneWord 2)).2.2 (by decide)⟩

theorem empty_meets (h : s.Good) (hq : s.queue = []) : s.ring.readIdx = s.ring.writeIdx := by
  obtain ⟨front, back, hq', hlay, -⟩ := h.layout
  rw [hq] at hq'
  obtain ⟨rfl, rfl⟩ := List.append_eq_nil_iff.mp hq'.symm
  cases hlay with
  | straight ht => exact ht
  | wrapped _ _ _ _ _ hne => exact absurd rfl hne

/-- The states after some calls, made one after the other. -/
def calls (s : RingRun) (cs : List RingCall) : Option RingRun :=
  cs.foldlM (fun s c => (s.call c).map Prod.fst) s

/-- A writer that tries the same record again and again, and a reader. -/
def Retries (rec : Record) (c : RingCall) : Prop :=
  c = .op (.pushForced rec) ∨ c = .op .next ∨ c = .op .pop

theorem retry_stays {rec : Record} {c : RingCall} (heq : s.ring.readIdx = s.ring.writeIdx)
    (hrefused : (s.ring.pushForced rec).1 = false) (hc : Retries rec c) :
    ∃ t r, s.call c = some (t, r) ∧ t.ring = s.ring := by
  rcases hc with rfl | rfl | rfl
  · exact ⟨_, _, rfl, Ring.pushForced_refused hrefused⟩
  · exact ⟨_, _, rfl, by simp [Ring.next, Ring.nextReadableBlock, heq]⟩
  · have hnot : ¬ s.ring.AtWrap := fun hwrap => hwrap.1 heq
    exact ⟨_, _, by rw [call, if_neg (fun both => hnot both.1)], by simp [Ring.pop, heq]⟩

theorem retries_stay {rec : Record} {cs : List RingCall} (heq : s.ring.readIdx = s.ring.writeIdx)
    (hrefused : (s.ring.pushForced rec).1 = false) (hcs : ∀ c ∈ cs, Retries rec c) :
    ∃ t, s.calls cs = some t ∧ t.ring = s.ring := by
  induction cs generalizing s with
  | nil => exact ⟨s, rfl, rfl⟩
  | cons c cs ih =>
    obtain ⟨u, r, hu, same⟩ := retry_stays heq hrefused (hcs c (List.mem_cons_self ..))
    obtain ⟨t, ht, same'⟩ := ih (s := u) (by rw [same]; exact heq) (by rw [same]; exact hrefused)
      (fun c' hc' => hcs c' (List.mem_cons_of_mem _ hc'))
    refine ⟨t, ?_, same'.trans same⟩
    rw [calls, List.foldlM_cons, hu]
    exact ht

/-- An emptied ring takes what a new one takes and what goes behind the place where the
indices have come to rest or in front of it, as less than half a ring always does.
What it refuses it refuses however often it is tried. -/
theorem empty_accepts_iff (h : Reaches s) (hq : s.queue = []) (rec : Record) (data : Memory UInt8) :
    ((s.ring.pushForced rec).1 = true ↔
      ((Ring.mk s.ring.size s.ring.reserved 0 0 data).pushForced rec).1 = true ∧
        (s.ring.writeIdx + rec.size < s.ring.size ∨ rec.size < s.ring.writeIdx)) ∧
    (2 * rec.size < s.ring.size → (s.ring.pushForced rec).1 = true) ∧
    ((s.ring.pushForced rec).1 = false → ∀ cs, (∀ c ∈ cs, Retries rec c) →
      ∃ t, s.calls cs = some t ∧ (t.ring.pushForced rec).1 = false) := by
  have good := reaches_good h
  have heq := empty_meets good hq
  have here := Ring.pushForced_empty good.bound good.write_lt heq rec
  have new := Ring.pushForced_empty (s := ⟨s.ring.size, s.ring.reserved, 0, 0, data⟩) good.bound
    good.pos rfl rec
  have hw := good.write_lt
  refine ⟨?_, ?_, ?_⟩
  · rw [here, new]
    simp only
    omega
  · intro hhalf
    rw [here]
    omega
  · intro hrefused cs hcs
    obtain ⟨t, ht, same⟩ := retries_stay heq hrefused hcs
    exact ⟨t, ht, by rw [same]; exact hrefused⟩

/-- An object of two words. -/
def twoWords (b : UInt8) : Record := ⟨List.replicate 16 b, by simp, by simp, by simp⟩

theorem empty_accepts_after_one :
    ∃ s : RingRun, Reaches s ∧ s.queue = [] ∧ s.ring.writeIdx = 16 ∧
      (s.ring.pushForced (oneWord 2)).1 = true ∧ (s.ring.pushForced (twoWords 2)).1 = false := by
  have h0 : Reaches ⟨⟨40, 0, 0, 0, fun _ => 0⟩, false, []⟩ := .start 40 0 _ (by omega) (by omega)
  have h1 := Reaches.call (.op (.push (oneWord 1))) h0 rfl
  have h2 := Reaches.call (.op .next) h1 rfl
  have h3 := Reaches.call (.op .pop) h2 rfl
  exact ⟨_, h3, rfl, rfl, (empty_accepts_iff h3 rfl (oneWord 2) (fun _ => 0)).2.1 (by decide), by decide⟩

/-- A ring of 40 bytes that has had one record of 16 bytes in it takes none of 24 any more. -/
theorem empty_refuses_two_words :
    ¬ ∀ (s : RingRun) (rec : Record) (data : Memory UInt8), Reaches s → s.queue = [] →
      ((Ring.mk s.ring.size s.ring.reserved 0 0 data).pushForced rec).1 = true →
        (s.ring.pushForced rec).1 = true := by
  intro accepts
  have h0 : Reaches ⟨⟨40, 0, 0, 0, fun _ => 0⟩, false, []⟩ := .start 40 0 _ (by omega) (by omega)
  have h1 := Reaches.call (.op (.push (oneWord 1))) h0 rfl
  have h2 := Reaches.call (.op .next) h1 rfl
  have h3 := Reaches.call (.op .pop) h2 rfl
  have taken := accepts _ (twoWords 2) (fun _ => 0) h3 rfl (by decide)
  revert taken
  decide

end RingRun

end XiRuntime
