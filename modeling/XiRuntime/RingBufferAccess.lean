import XiRuntime.RingBufferThrow

namespace XiRuntime

open ByteStore

/-- Bytes of the array that are read or written in one go. -/
structure Span where
  start : Nat
  length : Nat
deriving DecidableEq, Repr

def Span.Has (sp : Span) (x : Nat) : Prop := sp.start ≤ x ∧ x < sp.start + sp.length

namespace Ring

/-- `next_readable_block` reads the size word before it looks at the room left. -/
def nextReads (s : Ring) : List Span := if s.readIdx = s.writeIdx then [] else [⟨s.readIdx, 8⟩]

/-- `pop` reads the size word, and the object it destroys. -/
def popReads (s : Ring) : List Span :=
  if s.readIdx = s.writeIdx then []
  else
    let size := wordOf (s.data.load s.readIdx 8)
    if marker = size then [⟨s.readIdx, 8⟩] else [⟨s.readIdx, 8⟩, ⟨s.readIdx + 8, size - 8⟩]

/-- `do_push` writes the marker, if there is a wrap-around to mark, and the record. -/
def pushWrites (s : Ring) (rec : Record) (force : Bool) : List Span :=
  match s.place rec force with
  | none => []
  | some a =>
    (if a < s.writeIdx ∧ subWord s.size s.writeIdx > 8 then [⟨s.writeIdx, 8⟩] else []) ++ [⟨a, rec.size⟩]

def reads (s : Ring) : RingOp → List Span
  | .push _ | .pushForced _ => []
  | .next => s.nextReads
  | .pop => s.popReads

def writes (s : Ring) : RingOp → List Span
  | .push rec => s.pushWrites rec false
  | .pushForced rec => s.pushWrites rec true
  | .next | .pop => []

end Ring

/-- A ring in use, with the bytes in which the records pushed and not yet popped were put. -/
structure AccessRun where
  run : RingRun
  held : List Span

namespace AccessRun

def heldAfter (s : AccessRun) : RingOp → List Span
  | .push rec => s.held ++ (s.run.ring.place rec false).toList.map (⟨·, rec.size⟩)
  | .pushForced rec => s.held ++ (s.run.ring.place rec true).toList.map (⟨·, rec.size⟩)
  | .next => s.held
  | .pop => s.held.tail

def step (s : AccessRun) (op : RingOp) : Option AccessRun :=
  (s.run.step op).map (fun run => ⟨run, s.heldAfter op⟩)

def start (size reserved : Nat) (data : Memory UInt8) : AccessRun :=
  ⟨⟨⟨size, reserved, 0, 0, data⟩, false, []⟩, []⟩

/-- All that is read or written is in the array, and no write touches a record that is
held. -/
structure Safe (s : AccessRun) (op : RingOp) : Prop where
  inside : ∀ sp ∈ s.run.ring.reads op ++ s.run.ring.writes op, ∀ x, sp.Has x → x < s.run.ring.size
  apart : ∀ sp ∈ s.run.ring.writes op, ∀ kept ∈ s.held, ∀ x, sp.Has x → ¬ kept.Has x

/-- The calls that leave the array: a `next` with fewer than 8 bytes left behind the
reader, and a push into a ring without any bytes. -/
def Overruns (s : AccessRun) : RingOp → Prop
  | .push rec => s.run.ring.size = 0 ∧ s.run.ring.reserved + rec.size < 2 ^ 64
  | .pushForced _ => s.run.ring.size = 0
  | .next => s.run.ring.readIdx ≠ s.run.ring.writeIdx ∧ s.run.ring.size < s.run.ring.readIdx + 8
  | .pop => False

end AccessRun

namespace Ring

variable {s : Ring} {rec : Record} {force : Bool} {x : Nat}

section Bounds

variable (hb : s.size < 2 ^ 63) (hw : s.writeIdx < s.size) (hr : s.readIdx < s.size)
include hb hw hr

theorem pushWrites_inside {sp : Span} (hsp : sp ∈ s.pushWrites rec force) (hx : sp.Has x) : x < s.size := by
  have hsub := subWord_eq (Nat.le_of_lt hw) (show s.size < 2 ^ 64 by omega)
  unfold pushWrites at hsp
  rw [hsub] at hsp
  unfold Span.Has at hx
  rcases place_cases hb hw hr rec force with hp | ⟨hp, hlt, -⟩ | ⟨hp, -, -, hlt⟩
  · simp [hp] at hsp
  · simp only [hp, Nat.lt_irrefl, false_and, if_false, List.nil_append, List.mem_singleton] at hsp
    subst hsp
    simp only at hx
    omega
  · simp only [hp, List.mem_append, List.mem_singleton] at hsp
    rcases hsp with hmark | hblock
    · split at hmark
      next =>
        rw [List.mem_singleton] at hmark
        subst hmark
        simp only at hx
        omega
      next => simp at hmark
    · subst hblock
      simp only at hx
      omega

/-- Writes keep off the bytes that are used. -/
theorem pushWrites_unused {sp : Span} (hsp : sp ∈ s.pushWrites rec force) (hx : sp.Has x) : ¬ s.Used x := by
  intro used
  unfold pushWrites at hsp
  cases hp : s.place rec force with
  | none => simp [hp] at hsp
  | some a =>
    simp only [hp, List.mem_append, List.mem_singleton] at hsp
    rcases hsp with hmark | hblock
    · split at hmark
      next hroom =>
        rw [List.mem_singleton] at hmark
        subst hmark
        have before := place_marks hb hw hr hp hroom.1 used
        exact absurd hx.1 (Nat.not_le.mpr before)
      next => simp at hmark
    · subst hblock
      exact place_unused hb hw hr hp used hx

end Bounds

end Ring

/-- The blocks of records that stand one behind the other from `a` on. -/
def spans : Nat → List Record → List Span
  | _, [] => []
  | a, rec :: recs => ⟨a, rec.size⟩ :: spans (a + rec.size) recs

namespace Tiles

variable {data : Memory UInt8} {a b : Nat} {recs : List Record}

theorem spans_snoc (h : Tiles data a b recs) (rec : Record) :
    spans a (recs ++ [rec]) = spans a recs ++ [⟨b, rec.size⟩] := by
  induction recs generalizing a with
  | nil =>
    cases h
    rfl
  | cons r recs ih =>
    rw [List.cons_append, spans, ih h.2, spans, List.cons_append]

theorem spans_has (h : Tiles data a b recs) {sp : Span} (hsp : sp ∈ spans a recs) {x : Nat}
    (hx : sp.Has x) : a ≤ x ∧ x < b := by
  induction recs generalizing a with
  | nil => simp [spans] at hsp
  | cons r recs ih =>
    have hle := h.2.le
    rw [spans, List.mem_cons] at hsp
    rcases hsp with rfl | hsp
    · unfold Span.Has at hx
      simp only at hx
      omega
    · have hrest := ih h.2 hsp
      omega

end Tiles

/-- Each part of the layout ends where the next record would go. -/
theorem Layout.tiles {s : Ring} {front back : List Record} (hlay : Layout s front back) :
    (back = [] ∧ Tiles s.data s.readIdx s.writeIdx front) ∨
    (back ≠ [] ∧ s.writeIdx < s.readIdx ∧ (∃ e, Tiles s.data s.readIdx e front) ∧
      Tiles s.data 0 s.writeIdx back) := by
  cases hlay with
  | straight ht => exact Or.inl ⟨rfl, ht⟩
  | wrapped hwr _ ht _ hback hne => exact Or.inr ⟨hne, hwr, ⟨_, ht⟩, hback⟩

theorem Layout.spans_append {s : Ring} {front back : List Record} (hlay : Layout s front back)
    (rec : Record) :
    (spans s.readIdx front ++ spans 0 back) ++ [⟨s.writeIdx, rec.size⟩] =
      spans s.readIdx (if back = [] then front ++ [rec] else front) ++
        spans 0 (if back = [] then [] else back ++ [rec]) := by
  rcases hlay.tiles with ⟨rfl, ht⟩ | ⟨hne, -, -, hback⟩
  · rw [if_pos rfl, if_pos rfl, ht.spans_snoc]
    simp [spans]
  · rw [if_neg hne, if_neg hne, hback.spans_snoc, List.append_assoc]

theorem Layout.held_used {s : Ring} {front back : List Record} (hlay : Layout s front back) {sp : Span}
    (hsp : sp ∈ spans s.readIdx front ++ spans 0 back) {x : Nat} (hx : sp.Has x) : s.Used x := by
  unfold Ring.Used
  rcases hlay.tiles with ⟨rfl, ht⟩ | ⟨-, hwr, ⟨e, ht⟩, hback⟩
  · rw [if_pos ht.le]
    exact ht.spans_has (by simpa [spans] using hsp) hx
  · rw [if_neg (Nat.not_le.mpr hwr)]
    rcases List.mem_append.mp hsp with hfront | hsp
    · exact Or.inl (ht.spans_has hfront hx).1
    · exact Or.inr (hback.spans_has hsp hx).2

namespace AccessRun

variable {s : AccessRun}

/-- The held bytes are those of the records in the order in which they lie. -/
structure Placed (s : AccessRun) : Prop where
  pos : 1 ≤ s.run.ring.size
  bound : s.run.ring.size < 2 ^ 63
  write_lt : s.run.ring.writeIdx < s.run.ring.size
  read_lt : s.run.ring.readIdx < s.run.ring.size
  layout : ∃ front back, s.run.queue = front ++ back ∧ Layout s.run.ring front back ∧
    s.held = spans s.run.ring.readIdx front ++ spans 0 back ∧ (s.run.armed = true → front ≠ [])

/-- A ring without any bytes, which takes nothing. -/
structure Void (s : AccessRun) : Prop where
  size : s.run.ring.size = 0
  read : s.run.ring.readIdx = 0
  write : s.run.ring.writeIdx = 0
  idle : s.run.armed = false

theorem Placed.push_safe (h : s.Placed) (rec : Record) (force : Bool) :
    (∀ sp ∈ s.run.ring.pushWrites rec force, ∀ x, sp.Has x → x < s.run.ring.size) ∧
      ∀ sp ∈ s.run.ring.pushWrites rec force, ∀ kept ∈ s.held, ∀ x, sp.Has x → ¬ kept.Has x := by
  obtain ⟨front, back, -, hlay, hheld, -⟩ := h.layout
  refine ⟨?_, ?_⟩
  · intro sp hsp x hx
    exact Ring.pushWrites_inside h.bound h.write_lt h.read_lt hsp hx
  · intro sp hsp kept hkept x hx hhas
    rw [hheld] at hkept
    exact Ring.pushWrites_unused h.bound h.write_lt h.read_lt hsp hx (hlay.held_used hkept hhas)

theorem Placed.pop_safe (h : s.Placed) (harmed : s.run.armed = true) :
    ∀ sp ∈ s.run.ring.popReads, ∀ x, sp.Has x → x < s.run.ring.size := by
  obtain ⟨front, back, -, hlay, -, harm⟩ := h.layout
  obtain ⟨rec, front, rfl⟩ := List.exists_cons_of_ne_nil (harm harmed)
  obtain ⟨hne, e, he, ht⟩ := hlay.front_tiles h.write_lt
  have hle := ht.2.le
  have hge := rec.size_ge
  have hword : ¬ Ring.marker = rec.size := fun hm => rec.size_ne_marker hm.symm
  intro sp hsp x hx
  unfold Ring.popReads at hsp
  simp only [hne, if_false, ht.word, hword, List.mem_cons, List.not_mem_nil, or_false] at hsp
  unfold Span.Has at hx
  rcases hsp with rfl | rfl
  · simp only at hx
    omega
  · simp only at hx
    omega

theorem armed_of_pop {t : AccessRun} (hs : s.step .pop = some t) : s.run.armed = true := by
  obtain ⟨run, hrun, -⟩ := Option.map_eq_some_iff.mp hs
  rw [RingRun.step] at hrun
  split at hrun
  next harmed => exact harmed
  next => simp at hrun

/-- A legal call is safe exactly when it does not overrun the array. -/
theorem Placed.safe_iff (h : s.Placed) {op : RingOp} {t : AccessRun} (hs : s.step op = some t) :
    s.Safe op ↔ ¬ s.Overruns op := by
  have hpos := h.pos
  cases op with
  | push rec =>
    have safe := h.push_safe rec false
    refine iff_of_true ⟨by simpa [Ring.reads, Ring.writes] using safe.1, safe.2⟩ ?_
    intro hover
    have := hover.1
    omega
  | pushForced rec =>
    have safe := h.push_safe rec true
    refine iff_of_true ⟨by simpa [Ring.reads, Ring.writes] using safe.1, safe.2⟩ ?_
    intro hover
    unfold Overruns at hover
    omega
  | next =>
    have reads : s.run.ring.reads .next ++ s.run.ring.writes .next = s.run.ring.nextReads :=
      List.append_nil _
    constructor
    · intro safe hover
      have inside := safe.inside
      rw [reads, Ring.nextReads, if_neg hover.1] at inside
      have last := inside _ (List.mem_singleton_self _) (s.run.ring.readIdx + 7) ⟨by simp, by simp⟩
      have := hover.2
      omega
    · intro hin
      refine ⟨?_, by simp [Ring.writes]⟩
      rw [reads, Ring.nextReads]
      split
      next => simp
      next hne =>
        intro sp hsp x hx
        rw [List.mem_singleton.mp hsp] at hx
        have room : ¬ s.run.ring.size < s.run.ring.readIdx + 8 := fun hshort => hin ⟨hne, hshort⟩
        have := hx.2
        simp only at this
        omega
  | pop =>
    have harmed := armed_of_pop hs
    have reads : s.run.ring.reads .pop ++ s.run.ring.writes .pop = s.run.ring.popReads :=
      List.append_nil _
    refine iff_of_true ⟨?_, by simp [Ring.writes]⟩ id
    rw [reads]
    exact h.pop_safe harmed

theorem Void.place_eq (h : s.Void) (rec : Record) (force : Bool) :
    s.run.ring.place rec force =
      if force = true ∨ s.run.ring.reserved + rec.size < 2 ^ 64 then some 0 else none := by
  have hsize := rec.size_lt
  have available : Ring.writeAvailable 0 0 0 = 2 ^ 64 - 1 := by decide
  have fits : ¬ 2 ^ 64 - 1 < rec.size := by omega
  unfold Ring.place Ring.placeAt
  simp only [h.size, h.read, h.write, available, fits, if_false, ge_iff_le, Nat.zero_le, if_true]
  cases force with
  | true => simp
  | false =>
    simp only [Bool.not_false, Bool.true_and, decide_eq_true_eq, Bool.false_eq_true, false_or]
    split_ifs <;> first | rfl | (exfalso; omega)

/-- Where nothing is free the count of free bytes wraps around, and a record is taken. -/
theorem Void.push_safe_iff (h : s.Void) (rec : Record) (force : Bool) :
    ((∀ sp ∈ s.run.ring.pushWrites rec force, ∀ x, sp.Has x → x < s.run.ring.size) ∧
        ∀ sp ∈ s.run.ring.pushWrites rec force, ∀ kept ∈ s.held, ∀ x, sp.Has x → ¬ kept.Has x) ↔
      ¬ (force = true ∨ s.run.ring.reserved + rec.size < 2 ^ 64) := by
  rw [Ring.pushWrites, h.place_eq, h.size]
  split
  next hnone =>
    split at hnone
    next => simp at hnone
    next hno => exact iff_of_true ⟨by simp, by simp⟩ hno
  next a hsome =>
    split at hsome
    next hyes =>
      refine iff_of_false ?_ (not_not_intro hyes)
      rintro ⟨inside, -⟩
      cases Option.some.inj hsome
      have hge := rec.size_ge
      have first := inside ⟨0, rec.size⟩ (by simp) 0 ⟨Nat.le_refl 0, by simp only; omega⟩
      exact absurd first (Nat.lt_irrefl 0)
    next => simp at hsome

theorem Void.safe_iff (h : s.Void) {op : RingOp} {t : AccessRun} (hs : s.step op = some t) :
    s.Safe op ↔ ¬ s.Overruns op := by
  have meets : s.run.ring.readIdx = s.run.ring.writeIdx := h.read.trans h.write.symm
  cases op with
  | push rec =>
    have safe := h.push_safe_iff rec false
    simp only [Bool.false_eq_true, false_or] at safe
    simp only [Overruns, h.size, true_and]
    rw [← safe]
    exact ⟨fun hsafe => ⟨hsafe.inside, hsafe.apart⟩, fun both => ⟨both.1, both.2⟩⟩
  | pushForced rec =>
    have safe := h.push_safe_iff rec true
    simp only [true_or, not_true_eq_false, iff_false] at safe
    exact iff_of_false (fun hsafe => safe ⟨hsafe.inside, hsafe.apart⟩) (not_not_intro h.size)
  | next =>
    refine iff_of_true ⟨?_, by simp [Ring.writes]⟩ (fun hover => hover.1 meets)
    simp [Ring.reads, Ring.writes, Ring.nextReads, meets]
  | pop => exact absurd (armed_of_pop hs) (by simp [h.idle])

theorem Placed.pushed (h : s.Placed) (rec : Record) (force : Bool) :
    Placed ⟨s.run.pushed rec (s.run.ring.doPush rec force),
      s.held ++ (s.run.ring.place rec force).toList.map (⟨·, rec.size⟩)⟩ := by
  obtain ⟨front, back, hq, hlay, hheld, harm⟩ := h.layout
  have hb := h.bound
  have hw := h.write_lt
  have hr := h.read_lt
  rw [Ring.doPush_place]
  rcases Ring.place_cases hb hw hr rec force with hp | ⟨hp, hlt, hroom⟩ | ⟨hp, -, hrw, hlt⟩
  · rw [hp]
    exact ⟨h.pos, hb, hw, hr, front, back, hq, hlay, by simp [RingRun.pushed, hheld], harm⟩
  · rw [hp, Option.elim_some, Ring.put_ahead hb hlt]
    refine ⟨h.pos, hb, hlt, hr, _, _, ?_, Ring.layout_append hlay hroom, ?_, ?_⟩
    · rw [← Ring.append_queue, ← hq]
      rfl
    · rw [hheld]
      exact hlay.spans_append rec
    · intro armed
      exact Ring.append_front_ne (harm armed) rec
  · rw [hp, Option.elim_some, Ring.put_wrapped hb hw hrw hlt]
    obtain ⟨rfl, wrapped⟩ := Ring.layout_wrap hlay hrw hw hlt
    exact ⟨h.pos, hb, hlt.trans hr, hr, front, [rec], by simp [RingRun.pushed, hq], wrapped,
      by simp [RingRun.pushed, hheld, spans], harm⟩

theorem Placed.step (h : s.Placed) {op : RingOp} {t : AccessRun} (hs : s.step op = some t) :
    t.Placed := by
  cases op with
  | push rec =>
    cases Option.some.inj hs
    exact h.pushed rec false
  | pushForced rec =>
    cases Option.some.inj hs
    exact h.pushed rec true
  | next =>
    cases Option.some.inj hs
    obtain ⟨front, back, hq, hlay, hheld, -⟩ := h.layout
    have hb := h.bound
    have hw := h.write_lt
    have hr := h.read_lt
    rcases Ring.layout_next hlay hb hw hr with ⟨rfl, rfl, -, hnext⟩ | ⟨hne, hnext⟩ |
      ⟨rfl, hne, -, -, hstart, hnext⟩
    · rw [hnext]
      exact ⟨h.pos, hb, hw, hr, [], [], hq, hlay, hheld, by simp⟩
    · rw [hnext]
      exact ⟨h.pos, hb, hw, hr, front, back, hq, hlay, hheld, fun _ => hne⟩
    · rw [hnext]
      exact ⟨h.pos, hb, hw, h.pos, back, [], by simp [hq], hstart,
        by simp [heldAfter, hheld, spans], fun _ => hne⟩
  | pop =>
    have harmed := armed_of_pop hs
    obtain ⟨front, back, hq, hlay, hheld, harm⟩ := h.layout
    obtain ⟨rec, front, rfl⟩ := List.exists_cons_of_ne_nil (harm harmed)
    obtain ⟨hpop, hr, hrest⟩ := Ring.layout_pop hlay h.bound h.write_lt
    rw [AccessRun.step, RingRun.step, if_pos harmed, hpop] at hs
    cases Option.some.inj hs
    exact ⟨h.pos, h.bound, h.write_lt, hr, front, back, by simp [hq], hrest,
      by simp [heldAfter, hheld, spans], by simp⟩

theorem Void.pushed (h : s.Void) {rec : Record} {force : Bool}
    (hno : ¬ (force = true ∨ s.run.ring.reserved + rec.size < 2 ^ 64)) (held : List Span) :
    Void ⟨s.run.pushed rec (s.run.ring.doPush rec force), held⟩ := by
  rw [Ring.doPush_place, h.place_eq, if_neg hno]
  exact ⟨h.size, h.read, h.write, h.idle⟩

theorem Void.step (h : s.Void) {op : RingOp} {t : AccessRun} (hs : s.step op = some t)
    (hin : ¬ s.Overruns op) : t.Void := by
  cases op with
  | push rec =>
    cases Option.some.inj hs
    refine h.pushed ?_ _
    rintro (hforce | hroom)
    · simp at hforce
    · exact hin ⟨h.size, hroom⟩
  | pushForced rec => exact absurd h.size hin
  | next =>
    cases Option.some.inj hs
    have meets : s.run.ring.readIdx = s.run.ring.writeIdx := h.read.trans h.write.symm
    have hnext : s.run.ring.next = (s.run.ring, none) := by
      simp [Ring.next, Ring.nextReadableBlock, meets]
    rw [hnext]
    exact ⟨h.size, h.read, h.write, rfl⟩
  | pop => exact absurd (armed_of_pop hs) (by simp [h.idle])

/-- What is so along a run as long as no call has overrun the array. -/
def Sound (s : AccessRun) : Prop := s.Void ∨ s.Placed

theorem sound_start {size : Nat} (hb : size < 2 ^ 63) (reserved : Nat) (data : Memory UInt8) :
    (start size reserved data).Sound := by
  cases size with
  | zero => exact Or.inl ⟨rfl, rfl, rfl, rfl⟩
  | succ size =>
    exact Or.inr ⟨Nat.succ_pos _, hb, Nat.succ_pos _, Nat.succ_pos _, [], [], rfl, .straight rfl, rfl,
      by simp [start]⟩

theorem Sound.safe_iff (h : s.Sound) {op : RingOp} {t : AccessRun} (hs : s.step op = some t) :
    s.Safe op ↔ ¬ s.Overruns op := by
  rcases h with void | placed
  · exact void.safe_iff hs
  · exact placed.safe_iff hs

theorem Sound.step (h : s.Sound) {op : RingOp} {t : AccessRun} (hs : s.step op = some t)
    (hin : ¬ s.Overruns op) : t.Sound := by
  rcases h with void | placed
  · exact Or.inl (void.step hs hin)
  · exact Or.inr (placed.step hs)

/-- A run keeps to its array, and to the free bytes of it, exactly as long as no `next`
is called with fewer than 8 bytes left and nothing is pushed into a ring of size 0. -/
theorem ring_stays_inside_iff {size : Nat} (hb : size < 2 ^ 63) (reserved : Nat) (data : Memory UInt8)
    (ops : List RingOp) :
    (∀ n op t t', ops[n]? = some op → (ops.take n).foldlM step (start size reserved data) = some t →
      t.step op = some t' → t.Safe op) ↔
    ∀ n op t t', ops[n]? = some op → (ops.take n).foldlM step (start size reserved data) = some t →
      t.step op = some t' → ¬ t.Overruns op := by
  apply Runs.partial_exact (G := fun t op _ => t.Safe op) (sound_start hb reserved data)
  · intro t op t' sound taken
    exact sound.safe_iff taken
  · intro t op t' sound taken inside
    exact sound.step taken inside

/-- A record of 16 bytes that is pushed into a ring of 48 and found there. -/
theorem ring_stays_inside_once :
    (∃ t, ([.push (RingRun.oneWord 1), .next] : List RingOp).foldlM step
        (start 48 0 (fun _ => 0)) = some t) ∧
      ∀ n op t t', ([.push (RingRun.oneWord 1), .next] : List RingOp)[n]? = some op →
        (([.push (RingRun.oneWord 1), .next] : List RingOp).take n).foldlM step
          (start 48 0 (fun _ => 0)) = some t → t.step op = some t' → t.Safe op := by
  refine ⟨⟨_, rfl⟩, ?_⟩
  apply (ring_stays_inside_iff (by decide) 0 (fun _ => 0) _).mpr
  intro n op t t' hop ht _
  rcases n with _ | _ | n
  · cases Option.some.inj hop
    cases Option.some.inj ht
    rintro ⟨hzero, -⟩
    exact absurd hzero (by decide)
  · cases Option.some.inj hop
    cases Option.some.inj ht
    rintro ⟨-, hshort⟩
    exact absurd hshort (by decide)
  · simp at hop

/-- In a ring of 51 bytes the third record ends at 48 and the next one goes round: the
`next` behind the third reads up to byte 55. And a ring of size 0 takes a record. -/
theorem ring_leaves_array :
    (∃ t t', ([.push (RingRun.oneWord 1), .next, .pop, .push (RingRun.oneWord 2),
          .push (RingRun.oneWord 3), .next, .pop, .push (RingRun.oneWord 4), .next, .pop] :
            List RingOp).foldlM step (start 51 0 (fun _ => 0)) = some t ∧
        t.step .next = some t' ∧ ¬ t.Safe .next) ∧
      ¬ (start 0 0 (fun _ => 0)).Safe (.push (RingRun.oneWord 1)) := by
  refine ⟨⟨_, _, rfl, rfl, ?_⟩, ?_⟩
  · intro safe
    have last := safe.inside ⟨48, 8⟩ (by decide) 55 ⟨by decide, by decide⟩
    revert last
    decide
  · intro safe
    have first := safe.inside ⟨0, 16⟩ (by decide) 0 ⟨by decide, by decide⟩
    revert first
    decide

end AccessRun

end XiRuntime
