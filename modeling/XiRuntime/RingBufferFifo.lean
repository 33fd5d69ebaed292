import XiRuntime.RingBuffer

namespace XiRuntime

open ByteStore

/-- The records stand one behind the other from `a` up to `b`. -/
def Tiles (data : Memory UInt8) : Nat → Nat → List Record → Prop
  | a, b, [] => a = b
  | a, b, rec :: recs => data.load a rec.size = rec.bytes ∧ Tiles data (a + rec.size) b recs

namespace Tiles

variable {data : Memory UInt8} {a b : Nat} {recs : List Record}

theorem le (h : Tiles data a b recs) : a ≤ b := by
  induction recs generalizing a with
  | nil => exact Nat.le_of_eq h
  | cons rec recs ih =>
    have hle := ih h.2
    omega

theorem lt (h : Tiles data a b recs) (hne : recs ≠ []) : a + 16 ≤ b := by
  cases recs with
  | nil => exact absurd rfl hne
  | cons rec recs =>
    have hle := h.2.le
    have hsize := rec.size_ge
    omega

theorem congr {data' : Memory UInt8} (h : Tiles data a b recs)
    (hd : ∀ x, a ≤ x → x < b → data' x = data x) : Tiles data' a b recs := by
  induction recs generalizing a with
  | nil => exact h
  | cons rec recs ih =>
    have hle := h.2.le
    have hload : data'.load a rec.size = data.load a rec.size :=
      load_congr (fun x hx hy => hd x hx (by omega))
    exact ⟨hload.trans h.1, ih h.2 (fun x hx hy => hd x (by omega) hy)⟩

theorem store {start : Nat} {bytes : List UInt8} (h : Tiles data a b recs)
    (hd : b ≤ start ∨ start + bytes.length ≤ a) : Tiles (data.store start bytes) a b recs := by
  apply h.congr
  intro x hx hy
  apply store_outside
  omega

theorem snoc {rec : Record} (h : Tiles data a b recs) (hl : data.load b rec.size = rec.bytes) :
    Tiles data a (b + rec.size) (recs ++ [rec]) := by
  induction recs generalizing a with
  | nil =>
    cases h
    exact ⟨hl, rfl⟩
  | cons r recs ih => exact ⟨h.1, ih h.2⟩

theorem word {rec : Record} (h : Tiles data a b (rec :: recs)) :
    wordOf (data.load a 8) = rec.size := by
  have hsize : rec.size = 8 + rec.payload.length := rfl
  have hload := h.1
  rw [hsize, load_add, Record.bytes] at hload
  have hword := (List.append_inj hload (by rw [length_load, length_wordBytes])).1
  rw [hword, wordOf_wordBytes rec.size_lt]

theorem payload {rec : Record} (h : Tiles data a b (rec :: recs)) :
    data.load (a + 8) rec.payload.length = rec.payload := by
  have hsize : rec.size = 8 + rec.payload.length := rfl
  have hload := h.1
  rw [hsize, load_add, Record.bytes] at hload
  exact (List.append_inj hload (by rw [length_load, length_wordBytes])).2

end Tiles

/-- The reader is told to go back to the start at `e`: by the marker, or because
there is no room for one. -/
def WrapsAt (s : Ring) (e : Nat) : Prop :=
  s.size - e ≤ 8 ∨ wordOf (s.data.load e 8) = Ring.marker

/-- How the records lie in the ring: the writer is ahead of the reader, or it has
gone round and the records up to the wrap point `e` come first. `front` are the
records that the reader gets to without a wrap-around. -/
inductive Layout (s : Ring) : List Record → List Record → Prop
  | straight {recs : List Record} : Tiles s.data s.readIdx s.writeIdx recs → Layout s recs []
  | wrapped {front back : List Record} {e : Nat} : s.writeIdx < s.readIdx → e < s.size →
      Tiles s.data s.readIdx e front → WrapsAt s e → Tiles s.data 0 s.writeIdx back → back ≠ [] →
      Layout s front back

/-- The front record is at the reader. -/
theorem Layout.front_tiles {ring : Ring} {rec : Record} {front back : List Record}
    (hlay : Layout ring (rec :: front) back) (hw : ring.writeIdx < ring.size) :
    ring.readIdx ≠ ring.writeIdx ∧
      ∃ e, e < ring.size ∧ Tiles ring.data ring.readIdx e (rec :: front) := by
  cases hlay with
  | straight ht =>
    have hlt := ht.lt (by simp)
    exact ⟨by omega, _, hw, ht⟩
  | wrapped hwr he ht _ _ _ => exact ⟨by omega, _, he, ht⟩

/-- The bytes from the reader to the writer, round the end if need be. -/
def Ring.Used (s : Ring) (x : Nat) : Prop :=
  if s.readIdx ≤ s.writeIdx then s.readIdx ≤ x ∧ x < s.writeIdx else s.readIdx ≤ x ∨ x < s.writeIdx

/-- The records lie in the bytes that are used. -/
theorem Layout.congr {s : Ring} {front back : List Record} {data : Memory UInt8}
    (hlay : Layout s front back) (hd : ∀ x, s.Used x → data x = s.data x) :
    Layout { s with data := data } front back := by
  cases hlay with
  | straight ht =>
    have hle := ht.le
    refine .straight (ht.congr ?_)
    intro x hx hy
    exact hd x (by rw [Ring.Used, if_pos hle]; exact ⟨hx, hy⟩)
  | wrapped hwr he ht hwrap hback hne =>
    have hread := ht.le
    have used : ∀ x, s.readIdx ≤ x ∨ x < s.writeIdx → s.Used x := by
      intro x hx
      rwa [Ring.Used, if_neg (Nat.not_le.mpr hwr)]
    refine .wrapped hwr he (ht.congr (fun x hx _ => hd x (used x (Or.inl hx))))
      (hwrap.imp_right ?_) (hback.congr (fun x _ hy => hd x (used x (Or.inr hy)))) hne
    intro hm
    rw [← hm]
    exact congrArg wordOf (load_congr (fun x hx _ => hd x (used x (Or.inl (hread.trans hx)))))

/-- What holds of a ring in use. -/
structure RingRun.Good (s : RingRun) : Prop where
  pos : 1 ≤ s.ring.size
  bound : s.ring.size < 2 ^ 63
  write_lt : s.ring.writeIdx < s.ring.size
  read_lt : s.ring.readIdx < s.ring.size
  layout : ∃ front back, s.queue = front ++ back ∧ Layout s.ring front back ∧
    (s.armed = true → front ≠ [])

namespace Ring

variable {s : Ring} {front back : List Record}

/-- At the front record the reader stays where it is. -/
theorem nextReadableBlock_front {rec : Record} {e : Nat} (hb : s.size < 2 ^ 63)
    (ht : Tiles s.data s.readIdx e (rec :: front)) (he : e < s.size)
    (hne : s.readIdx ≠ s.writeIdx) : s.nextReadableBlock = (s, some s.readIdx) := by
  have hlt := ht.lt (by simp)
  have hsub := subWord_eq (show s.readIdx ≤ s.size by omega) (by omega)
  have hcond : ¬ (marker = wordOf (s.data.load s.readIdx 8) ∨ subWord s.size s.readIdx ≤ 8) := by
    rw [ht.word, hsub]
    rintro (hm | hm)
    · exact rec.size_ne_marker hm.symm
    · omega
  simp only [nextReadableBlock, hne, if_false, hcond]

theorem nextReadableBlock_wrap (hb : s.size < 2 ^ 63) (hr : s.readIdx < s.size)
    (hw : WrapsAt s s.readIdx) (hne : s.readIdx ≠ s.writeIdx) :
    s.nextReadableBlock = ({ s with readIdx := 0 }, some 0) := by
  have hsub := subWord_eq (show s.readIdx ≤ s.size by omega) (by omega)
  have hcond : marker = wordOf (s.data.load s.readIdx 8) ∨ subWord s.size s.readIdx ≤ 8 := by
    rw [hsub]
    exact hw.symm.imp Eq.symm id
  simp only [nextReadableBlock, hne, if_false, hcond, if_true]

/-- The memory once the wrap-around is marked. -/
def marked (s : Ring) : Memory UInt8 :=
  if s.size - s.writeIdx > 8 then s.data.store s.writeIdx (wordBytes marker) else s.data

/-- Where `do_push` puts the record, once its place is chosen and `available` bytes
are free from there on. -/
def placeAt (s : Ring) (rec : Record) (force : Bool) (adjusted available : Nat) : Option Nat :=
  if available < rec.size then none
  else if !force && decide (available - rec.size < s.reserved) then none
  else some adjusted

def place (s : Ring) (rec : Record) (force : Bool) : Option Nat :=
  let available := writeAvailable s.writeIdx s.readIdx s.size
  if available < rec.size then none
  else if (s.writeIdx + rec.size) % 2 ^ 64 ≥ s.size then
    s.placeAt rec force 0 (writeAvailable 0 s.readIdx s.size)
  else s.placeAt rec force s.writeIdx available

/-- The memory before the record is written to `a`. -/
def markedFor (s : Ring) (a : Nat) : Memory UInt8 :=
  if a < s.writeIdx ∧ subWord s.size s.writeIdx > 8 then
    s.data.store s.writeIdx (wordBytes marker)
  else s.data

def put (s : Ring) (rec : Record) (a : Nat) : Ring :=
  { s with
    data := (s.markedFor a).store a rec.bytes
    writeIdx := (a + rec.size) % 2 ^ 64 }

theorem doPush_place (s : Ring) (rec : Record) (force : Bool) :
    s.doPush rec force = (s.place rec force).elim (false, s) (fun a => (true, s.put rec a)) := by
  unfold doPush place placeAt commit
  by_cases h1 : writeAvailable s.writeIdx s.readIdx s.size < rec.size
  · simp only [h1, if_true, Option.elim]
  simp only [h1, if_false]
  by_cases h2 : (s.writeIdx + rec.size) % 2 ^ 64 ≥ s.size
  · simp only [h2, if_true]
    by_cases h3 : writeAvailable 0 s.readIdx s.size < rec.size
    · simp only [h3, if_true, Option.elim]
    simp only [h3, if_false]
    split <;> rfl
  · simp only [h2, if_false]
    split <;> rfl

theorem placeAt_true (s : Ring) (rec : Record) (a available : Nat) :
    s.placeAt rec true a available = if available < rec.size then none else some a := by
  simp only [placeAt, Bool.not_true, Bool.false_and, Bool.false_eq_true, if_false]

theorem placeAt_false (s : Ring) (rec : Record) (a available : Nat) :
    s.placeAt rec false a available = (s.placeAt rec true a available).bind (fun a =>
      if s.reserved ≤ available - rec.size then some a else none) := by
  rw [placeAt_true, placeAt]
  by_cases hroom : available < rec.size
  · rw [if_pos hroom, if_pos hroom, Option.bind_none]
  · rw [if_neg hroom, if_neg hroom, Option.bind_some]
    by_cases hkeep : s.reserved ≤ available - rec.size
    · rw [if_pos hkeep, if_neg (by simpa using hkeep)]
    · rw [if_neg hkeep, if_pos (by simpa using hkeep)]

/-- A forced record goes behind the last one if it fits there, and else to the start
if it fits in front of the reader. -/
theorem place_true (hb : s.size < 2 ^ 63) (hw : s.writeIdx < s.size) (hr : s.readIdx < s.size)
    (rec : Record) :
    s.place rec true =
      if s.writeIdx + rec.size < s.size ∧
          (s.readIdx ≤ s.writeIdx ∨ s.writeIdx + rec.size < s.readIdx) then some s.writeIdx
      else if s.size ≤ s.writeIdx + rec.size ∧ s.readIdx ≤ s.writeIdx ∧ rec.size < s.readIdx then some 0
      else none := by
  have hsize := rec.size_ge
  have hav := writeAvailable_eq hw hr hb
  have hav0 := writeAvailable_eq (show 0 < s.size by omega) hr hb
  simp only [place, placeAt_true]
  by_cases hroom : writeAvailable s.writeIdx s.readIdx s.size < rec.size
  · rw [if_pos hroom]
    rw [hav] at hroom
    rw [if_neg (by split at hroom <;> omega), if_neg (by split at hroom <;> omega)]
  rw [if_neg hroom, if_neg hroom]
  rw [hav] at hroom
  have hmod : (s.writeIdx + rec.size) % 2 ^ 64 = s.writeIdx + rec.size := by
    apply Nat.mod_eq_of_lt
    split at hroom <;> omega
  rw [hmod]
  by_cases hend : s.writeIdx + rec.size ≥ s.size
  · have hrw : s.readIdx ≤ s.writeIdx := by
      split at hroom <;> omega
    rw [if_pos hrw] at hroom
    have hfree : writeAvailable 0 s.readIdx s.size < rec.size ↔ ¬ rec.size < s.readIdx := by
      rw [hav0]
      split <;> omega
    rw [if_pos hend]
    simp only [hfree]
    by_cases hfront : rec.size < s.readIdx
    · rw [if_neg (not_not.mpr hfront), if_neg (by omega), if_pos ⟨hend, hrw, hfront⟩]
    · rw [if_pos hfront, if_neg (by omega), if_neg (fun h => hfront h.2.2)]
  · rw [if_neg hend, if_pos]
    exact ⟨by omega, by split at hroom <;> omega⟩

/-- What is free behind a record is what was free, less the record. -/
theorem writeAvailable_behind (hb : s.size < 2 ^ 63) (hr : s.readIdx < s.size) {a : Nat}
    (ha : a < s.size) {rec : Record} (hroom : ¬ writeAvailable a s.readIdx s.size < rec.size)
    (hend : a + rec.size < s.size) :
    writeAvailable (s.put rec a).writeIdx s.readIdx s.size =
      writeAvailable a s.readIdx s.size - rec.size := by
  have hmod : (a + rec.size) % 2 ^ 64 = a + rec.size := Nat.mod_eq_of_lt (by omega)
  simp only [put, hmod]
  rw [writeAvailable_eq ha hr hb] at hroom ⊢
  rw [writeAvailable_eq hend hr hb]
  by_cases hra : s.readIdx ≤ a
  · rw [if_pos hra, if_pos (by omega), ← Nat.sub_sub]
    omega
  · rw [if_neg hra] at hroom ⊢
    rw [if_neg (by omega)]
    omega

/-- The reserve is looked at behind all else, and measured against what is free then. -/
theorem place_false (hb : s.size < 2 ^ 63) (hw : s.writeIdx < s.size) (hr : s.readIdx < s.size)
    (rec : Record) :
    s.place rec false = (s.place rec true).bind (fun a =>
      if s.reserved ≤ writeAvailable (s.put rec a).writeIdx s.readIdx s.size then some a else none) := by
  have behind : ∀ a, a < s.size → a + rec.size < s.size →
      s.placeAt rec false a (writeAvailable a s.readIdx s.size) =
        (s.placeAt rec true a (writeAvailable a s.readIdx s.size)).bind (fun a =>
          if s.reserved ≤ writeAvailable (s.put rec a).writeIdx s.readIdx s.size then some a else none) := by
    intro a ha hend
    rw [placeAt_false, placeAt_true]
    by_cases hroom : writeAvailable a s.readIdx s.size < rec.size
    · rw [if_pos hroom, Option.bind_none, Option.bind_none]
    · rw [if_neg hroom, Option.bind_some, Option.bind_some, writeAvailable_behind hb hr ha hroom hend]
  simp only [place]
  by_cases hroom : writeAvailable s.writeIdx s.readIdx s.size < rec.size
  · rw [if_pos hroom, if_pos hroom, Option.bind_none]
  rw [if_neg hroom, if_neg hroom]
  have hlt : rec.size < s.size := by
    rw [writeAvailable_eq hw hr hb] at hroom
    split at hroom <;> omega
  rw [Nat.mod_eq_of_lt (show s.writeIdx + rec.size < 2 ^ 64 by omega)]
  by_cases hend : s.writeIdx + rec.size ≥ s.size
  · rw [if_pos hend, if_pos hend]
    exact behind 0 (by omega) (by omega)
  · rw [if_neg hend, if_neg hend]
    exact behind s.writeIdx hw (by omega)

/-- What is accepted with the reserve kept is accepted when forced. -/
theorem place_cases (hb : s.size < 2 ^ 63) (hw : s.writeIdx < s.size) (hr : s.readIdx < s.size)
    (rec : Record) (force : Bool) :
    s.place rec force = none ∨
    (s.place rec force = some s.writeIdx ∧ s.writeIdx + rec.size < s.size ∧
      (s.readIdx ≤ s.writeIdx ∨ s.writeIdx + rec.size < s.readIdx)) ∨
    (s.place rec force = some 0 ∧ s.size ≤ s.writeIdx + rec.size ∧ s.readIdx ≤ s.writeIdx ∧
      rec.size < s.readIdx) := by
  cases hp : s.place rec force with
  | none => exact Or.inl rfl
  | some a =>
    have forced : s.place rec true = some a := by
      cases force with
      | true => exact hp
      | false =>
        rw [place_false hb hw hr] at hp
        obtain ⟨b, hforced, hkept⟩ := Option.bind_eq_some_iff.mp hp
        split at hkept
        next => rw [hforced, hkept]
        next => simp at hkept
    rw [place_true hb hw hr] at forced
    split at forced
    next hahead =>
      cases Option.some.inj forced
      exact Or.inr (Or.inl ⟨rfl, hahead⟩)
    next =>
      split at forced
      next hwrap =>
        cases Option.some.inj forced
        exact Or.inr (Or.inr ⟨rfl, hwrap⟩)
      next => simp at forced

theorem put_ahead (hb : s.size < 2 ^ 63) {rec : Record} (hlt : s.writeIdx + rec.size < s.size) :
    s.put rec s.writeIdx = { s with
      data := s.data.store s.writeIdx rec.bytes
      writeIdx := s.writeIdx + rec.size } := by
  rw [put, Nat.mod_eq_of_lt (by omega)]
  simp only [markedFor, Nat.lt_irrefl, false_and, if_false]

theorem markedFor_zero (hb : s.size < 2 ^ 63) (hw : s.writeIdx < s.size) (hpos : 0 < s.writeIdx) :
    s.markedFor 0 = s.marked := by
  have hsub := subWord_eq (Nat.le_of_lt hw) (show s.size < 2 ^ 64 by omega)
  simp only [markedFor, marked, hpos, true_and, hsub]

theorem put_wrapped (hb : s.size < 2 ^ 63) (hw : s.writeIdx < s.size) {rec : Record}
    (hrw : s.readIdx ≤ s.writeIdx) (hlt : rec.size < s.readIdx) :
    s.put rec 0 = { s with
      data := s.marked.store 0 rec.bytes
      writeIdx := rec.size } := by
  rw [put, markedFor_zero hb hw (by omega), Nat.zero_add, Nat.mod_eq_of_lt rec.size_lt]

/-- A record is refused, stored behind the last one, or stored at the start
behind a wrap-around; the writer never catches up with the reader. -/
theorem doPush_cases (hb : s.size < 2 ^ 63) (hw : s.writeIdx < s.size) (hr : s.readIdx < s.size)
    (rec : Record) (force : Bool) :
    s.doPush rec force = (false, s) ∨
    (s.writeIdx + rec.size < s.size ∧
      (s.readIdx ≤ s.writeIdx ∨ s.writeIdx + rec.size < s.readIdx) ∧
      s.doPush rec force = (true, { s with
        data := s.data.store s.writeIdx rec.bytes
        writeIdx := s.writeIdx + rec.size })) ∨
    (s.readIdx ≤ s.writeIdx ∧ rec.size < s.readIdx ∧
      s.doPush rec force = (true, { s with
        data := s.marked.store 0 rec.bytes
        writeIdx := rec.size })) := by
  rw [doPush_place]
  rcases place_cases hb hw hr rec force with hp | ⟨hp, hlt, hroom⟩ | ⟨hp, -, hrw, hlt⟩
  · rw [hp]
    exact Or.inl rfl
  · rw [hp, Option.elim_some, put_ahead hb hlt]
    exact Or.inr (Or.inl ⟨hlt, hroom, rfl⟩)
  · rw [hp, Option.elim_some, put_wrapped hb hw hrw hlt]
    exact Or.inr (Or.inr ⟨hrw, hlt, rfl⟩)

theorem append_queue (front back : List Record) (rec : Record) :
    (front ++ back) ++ [rec] =
      (if back = [] then front ++ [rec] else front) ++ if back = [] then [] else back ++ [rec] := by
  split
  next hback => simp [hback]
  next => simp

theorem append_front_ne (hne : front ≠ []) (rec : Record) :
    (if back = [] then front ++ [rec] else front) ≠ [] := by
  split
  next => simp
  next => exact hne

/-- A record behind the last one. -/
theorem layout_append (hlay : Layout s front back) {rec : Record}
    (hroom : s.readIdx ≤ s.writeIdx ∨ s.writeIdx + rec.size < s.readIdx) :
    Layout { s with
        data := s.data.store s.writeIdx rec.bytes
        writeIdx := s.writeIdx + rec.size }
      (if back = [] then front ++ [rec] else front)
      (if back = [] then [] else back ++ [rec]) := by
  have hlen := rec.length_bytes
  have hload : (s.data.store s.writeIdx rec.bytes).load s.writeIdx rec.size = rec.bytes := by
    rw [← hlen]
    exact load_store_same _ _ _
  have kept : Layout { s with data := s.data.store s.writeIdx rec.bytes } front back := by
    apply hlay.congr
    intro x hx
    apply store_outside
    unfold Used at hx
    split at hx <;> omega
  cases kept with
  | straight ht => exact .straight (ht.snoc hload)
  | wrapped hwr he ht hwrap hback hne =>
    rw [if_neg hne, if_neg hne]
    have hroom' : s.writeIdx + rec.size < s.readIdx := by
      simp only at hwr
      omega
    exact .wrapped hroom' he ht hwrap (hback.snoc hload) (by simp)

/-- The old end is marked as the wrap point. -/
theorem wrapsAt_marked (s : Ring) : WrapsAt { s with data := s.marked } s.writeIdx := by
  unfold WrapsAt marked
  by_cases hroom : s.size - s.writeIdx > 8
  · right
    have hload := load_store_same s.data s.writeIdx (wordBytes marker)
    rw [length_wordBytes] at hload
    simp only [hroom, if_true, hload]
    exact wordOf_wordBytes (by unfold marker; omega)
  · left
    simp only
    omega

/-- A record at the start, behind a wrap-around. -/
theorem layout_wrap (hlay : Layout s front back) {rec : Record} (hrw : s.readIdx ≤ s.writeIdx)
    (hw : s.writeIdx < s.size) (hlt : rec.size < s.readIdx) :
    back = [] ∧ Layout { s with data := s.marked.store 0 rec.bytes, writeIdx := rec.size } front [rec] := by
  have hlen := rec.length_bytes
  cases hlay with
  | straight ht =>
    have ht' : Tiles s.marked s.readIdx s.writeIdx front := by
      unfold marked
      split
      next => exact ht.store (Or.inl (Nat.le_refl _))
      next => exact ht
    have hload : (s.marked.store 0 rec.bytes).load 0 rec.size = rec.bytes := by
      rw [← hlen]
      exact load_store_same _ _ _
    have hbefore : 0 + rec.bytes.length ≤ s.readIdx := by omega
    refine ⟨rfl, .wrapped hlt hw (ht'.store (Or.inr hbefore)) ?_ ⟨hload, Nat.zero_add _⟩ (by simp)⟩
    refine (wrapsAt_marked s).imp_right ?_
    intro hm
    rw [← hm, load_store_apart]
    unfold Apart
    omega
  | wrapped hwr _ _ _ _ _ => omega

/-- `next` finds nothing, stays at the front record, or goes round to it. -/
theorem layout_next (hlay : Layout s front back) (hb : s.size < 2 ^ 63) (hw : s.writeIdx < s.size)
    (hr : s.readIdx < s.size) :
    (front = [] ∧ back = [] ∧ s.readIdx = s.writeIdx ∧ s.next = (s, none)) ∨
    (front ≠ [] ∧ s.next = (s, some (s.readIdx + 8))) ∨
    (front = [] ∧ back ≠ [] ∧ s.writeIdx < s.readIdx ∧ WrapsAt s s.readIdx ∧
      Layout { s with readIdx := 0 } back [] ∧ s.next = ({ s with readIdx := 0 }, some 8)) := by
  cases front with
  | cons rec front =>
    obtain ⟨hne, e, he, ht⟩ := hlay.front_tiles hw
    refine Or.inr (Or.inl ⟨by simp, ?_⟩)
    simp [next, nextReadableBlock_front hb ht he hne]
  | nil =>
    cases hlay with
    | straight ht =>
      have heq : s.readIdx = s.writeIdx := ht
      exact Or.inl ⟨rfl, rfl, heq, by simp [next, nextReadableBlock, heq]⟩
    | wrapped hwr he ht hwrap hback hne =>
      -- the reader stands at the wrap point, and the writer has been at the start
      cases ht
      refine Or.inr (Or.inr ⟨rfl, hne, hwr, hwrap, .straight hback, ?_⟩)
      simp [next, nextReadableBlock_wrap hb hr hwrap (by omega)]

theorem layout_pop {rec : Record} (hlay : Layout s (rec :: front) back) (hb : s.size < 2 ^ 63)
    (hw : s.writeIdx < s.size) :
    s.pop = { s with readIdx := s.readIdx + rec.size } ∧ s.readIdx + rec.size < s.size ∧
      Layout { s with readIdx := s.readIdx + rec.size } front back := by
  obtain ⟨hne, e, he, ht⟩ := hlay.front_tiles hw
  have hle := ht.2.le
  refine ⟨?_, by omega, ?_⟩
  · have hcond : ¬ marker = rec.size := fun hm => rec.size_ne_marker hm.symm
    simp only [pop, hne, if_false, ht.word, hcond]
    rw [Nat.mod_eq_of_lt (by omega)]
  · cases hlay with
    | straight ht => exact .straight ht.2
    | wrapped hwr he ht hwrap hback hne =>
      have hle := ht.2.le
      exact .wrapped (by simp only; omega) he ht.2 hwrap hback hne

end Ring

namespace RingRun

variable {s : RingRun}

theorem good_start {size reserved : Nat} {data : Memory UInt8} (h : 1 ≤ size) (hb : size < 2 ^ 63) :
    Good ⟨⟨size, reserved, 0, 0, data⟩, false, []⟩ :=
  ⟨h, hb, h, h, [], [], rfl, .straight rfl, by simp⟩

/-- The record is stored in the free part between the writer and the reader. -/
theorem good_append (h : s.Good) {rec : Record} (hlt : s.ring.writeIdx + rec.size < s.ring.size)
    (hroom : s.ring.readIdx ≤ s.ring.writeIdx ∨ s.ring.writeIdx + rec.size < s.ring.readIdx) :
    Good { s with
      ring := { s.ring with
        data := s.ring.data.store s.ring.writeIdx rec.bytes
        writeIdx := s.ring.writeIdx + rec.size }
      queue := s.queue ++ [rec] } := by
  obtain ⟨front, back, hq, hlay, harm⟩ := h.layout
  refine ⟨h.pos, h.bound, hlt, h.read_lt, _, _, ?_, Ring.layout_append hlay hroom, ?_⟩
  · rw [hq]
    exact Ring.append_queue front back rec
  · intro armed
    exact Ring.append_front_ne (harm armed) rec

/-- The record is stored at the start, and the old end becomes the wrap point. -/
theorem good_wrap (h : s.Good) {rec : Record} (hrw : s.ring.readIdx ≤ s.ring.writeIdx)
    (hlt : rec.size < s.ring.readIdx) :
    Good { s with
      ring := { s.ring with
        data := s.ring.marked.store 0 rec.bytes
        writeIdx := rec.size }
      queue := s.queue ++ [rec] } := by
  obtain ⟨front, back, hq, hlay, harm⟩ := h.layout
  obtain ⟨hback, hlay'⟩ := Ring.layout_wrap hlay hrw h.write_lt hlt
  exact ⟨h.pos, h.bound, hlt.trans h.read_lt, h.read_lt, front, [rec], by simp [hq, hback], hlay', harm⟩

theorem pushed_good (h : s.Good) (rec : Record) (force : Bool) :
    (s.pushed rec (s.ring.doPush rec force)).Good := by
  rcases Ring.doPush_cases h.bound h.write_lt h.read_lt rec force with heq | ⟨hlt, hroom, heq⟩ |
    ⟨hrw, hlt, heq⟩
  · rw [heq]
    exact h
  · rw [heq]
    exact good_append h hlt hroom
  · rw [heq]
    exact good_wrap h hrw hlt

/-- `next` finds nothing, or leaves the reader at the oldest record. -/
theorem next_cases (h : s.Good) :
    (s.queue = [] ∧ s.ring.next = (s.ring, none)) ∨
    (∃ rec front back r, s.queue = (rec :: front) ++ back ∧ r < s.ring.size ∧
      Layout { s.ring with readIdx := r } (rec :: front) back ∧
      s.ring.next = ({ s.ring with readIdx := r }, some (r + 8))) := by
  obtain ⟨front, back, hq, hlay, -⟩ := h.layout
  rcases Ring.layout_next hlay h.bound h.write_lt h.read_lt with ⟨rfl, rfl, -, heq⟩ | ⟨hne, heq⟩ |
    ⟨rfl, hne, -, -, hlay', heq⟩
  · exact Or.inl ⟨hq, heq⟩
  · obtain ⟨rec, rest, rfl⟩ := List.exists_cons_of_ne_nil hne
    exact Or.inr ⟨rec, rest, back, s.ring.readIdx, hq, h.read_lt, hlay, heq⟩
  · obtain ⟨rec, rest, rfl⟩ := List.exists_cons_of_ne_nil hne
    exact Or.inr ⟨rec, rest, [], 0, by simp [hq], h.pos, hlay', heq⟩

theorem next_good (h : s.Good) :
    Good { s with ring := s.ring.next.1, armed := s.ring.next.2.isSome } := by
  rcases next_cases h with ⟨hq, heq⟩ | ⟨rec, front, back, r, hq, hr, hlay, heq⟩
  · obtain ⟨front, back, hq', hlay, -⟩ := h.layout
    rw [heq]
    exact ⟨h.pos, h.bound, h.write_lt, h.read_lt, front, back, hq', hlay, by simp⟩
  · rw [heq]
    exact ⟨h.pos, h.bound, h.write_lt, hr, rec :: front, back, hq, hlay, by simp⟩

theorem pop_good (h : s.Good) (harm : s.armed = true) :
    Good { ring := s.ring.pop, armed := false, queue := s.queue.tail } := by
  obtain ⟨front, back, hq, hlay, hfront⟩ := h.layout
  obtain ⟨rec, front, rfl⟩ := List.exists_cons_of_ne_nil (hfront harm)
  obtain ⟨hpop, hr, hlay'⟩ := Ring.layout_pop hlay h.bound h.write_lt
  rw [hpop]
  exact ⟨h.pos, h.bound, h.write_lt, hr, front, back, by simp [hq], hlay', by simp⟩

theorem step_good {s' : RingRun} {op : RingOp} (h : s.Good) (hs : s.step op = some s') : s'.Good := by
  cases op with
  | push rec =>
    cases Option.some.inj hs
    exact pushed_good h rec false
  | pushForced rec =>
    cases Option.some.inj hs
    exact pushed_good h rec true
  | next =>
    cases Option.some.inj hs
    exact next_good h
  | pop =>
    simp only [step] at hs
    split at hs
    next harm =>
      cases Option.some.inj hs
      exact pop_good h harm
    next => simp at hs

theorem reachable_good (h : Reachable s) : s.Good := by
  induction h with
  | start size reserved data hpos hb => exact good_start hpos hb
  | step op _ hs ih => exact step_good ih hs

/-- `next` returns null exactly when every record pushed was popped, and otherwise the
oldest one with its bytes; a push that fails changes nothing. -/
theorem ring_buffer_fifo (h : Reachable s) :
    (s.ring.next.2 = none ↔ s.queue = []) ∧
    (∀ rec rest, s.queue = rec :: rest → ∃ p, s.ring.next.2 = some p ∧
      s.ring.next.1.data.load p rec.payload.length = rec.payload) ∧
    (∀ rec, (s.ring.push rec).1 = false → (s.ring.push rec).2 = s.ring) ∧
    (∀ rec, (s.ring.pushForced rec).1 = false → (s.ring.pushForced rec).2 = s.ring) := by
  have hg := reachable_good h
  have hfail : ∀ rec force, (s.ring.doPush rec force).1 = false →
      (s.ring.doPush rec force).2 = s.ring := by
    intro rec force hf
    rcases Ring.doPush_cases hg.bound hg.write_lt hg.read_lt rec force with heq | ⟨-, -, heq⟩ |
      ⟨-, -, heq⟩
    · rw [heq]
    · simp [heq] at hf
    · simp [heq] at hf
  refine ⟨?_, ?_, fun rec => hfail rec false, fun rec => hfail rec true⟩
  · rcases next_cases hg with ⟨hq, heq⟩ | ⟨rec, front, back, r, hq, -, -, heq⟩
    · simp [hq, heq]
    · simp [hq, heq]
  · intro rec rest hq
    rcases next_cases hg with ⟨hq', -⟩ | ⟨rec', front, back, r, hq', -, hlay, heq⟩
    · simp [hq] at hq'
    · rw [hq, List.cons_append] at hq'
      cases (List.cons.inj hq').1
      obtain ⟨-, e, -, ht⟩ := hlay.front_tiles hg.write_lt
      rw [heq]
      exact ⟨r + 8, rfl, ht.payload⟩

/-- An object of one word. -/
def oneWord (b : UInt8) : Record := ⟨List.replicate 8 b, by simp, by simp, by simp⟩

/-- In a ring of 40 bytes the third record goes round: it is the oldest once the
first two were popped. -/
theorem ring_buffer_fifo_after_wrap :
    ∃ s : RingRun, Reachable s ∧ s.queue = [oneWord 3] ∧
      ∃ p, s.ring.next.2 = some p ∧ s.ring.next.1.data.load p 8 = List.replicate 8 3 := by
  have h0 : Reachable ⟨⟨40, 0, 0, 0, fun _ => 0⟩, false, []⟩ := .start 40 0 _ (by omega) (by omega)
  have h1 := Reachable.step (.push (oneWord 1)) h0 rfl
  have h2 := Reachable.step (.push (oneWord 2)) h1 rfl
  have h3 := Reachable.step .next h2 rfl
  have h4 := Reachable.step .pop h3 rfl
  have h5 := Reachable.step .next h4 rfl
  have h6 := Reachable.step .pop h5 rfl
  have h7 := Reachable.step (.push (oneWord 3)) h6 rfl
  exact ⟨_, h7, rfl, (ring_buffer_fifo h7).2.1 (oneWord 3) [] rfl⟩

end RingRun

end XiRuntime
