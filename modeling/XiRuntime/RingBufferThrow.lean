import XiRuntime.RingBufferPeek

namespace XiRuntime

open ByteStore

namespace Ring

/-- The end of `do_push` when the constructor throws. The wrap marker stands by then,
and the block of the record holds what was written of it, `scribble`. -/
def commitThrows (s : Ring) (rec : Record) (force : Bool) (scribble : Memory UInt8)
    (adjusted available : Nat) : Option Ring :=
  if !force && decide (available - rec.size < s.reserved) then none
  else
    let data :=
      if adjusted < s.writeIdx ∧ subWord s.size s.writeIdx > 8 then
        s.data.store s.writeIdx (wordBytes marker)
      else s.data
    some { s with
      data := fun x => if adjusted ≤ x ∧ x < adjusted + rec.size then scribble x else data x }

/-- `do_push` of a record whose constructor throws; none if it returns before. -/
def doPushThrows (s : Ring) (rec : Record) (force : Bool) (scribble : Memory UInt8) : Option Ring :=
  let available := writeAvailable s.writeIdx s.readIdx s.size
  if available < rec.size then none
  else if (s.writeIdx + rec.size) % 2 ^ 64 ≥ s.size then
    let available := writeAvailable 0 s.readIdx s.size
    if available < rec.size then none else s.commitThrows rec force scribble 0 available
  else s.commitThrows rec force scribble s.writeIdx available

/-- The object that a reader finds at `p`, as long as the word before it says. -/
def objectAt (s : Ring) (p : Nat) : Nat × List UInt8 :=
  (p, s.data.load p (wordOf (s.data.load (p - 8) 8) - 8))

end Ring

inductive RingCall
  | op (o : RingOp)
  | throwing (rec : Record) (force : Bool) (scribble : Memory UInt8)

def RingCall.isPop : RingCall → Bool
  | .op .pop => true
  | _ => false

/-- What a caller sees; `removed` is the object destroyed. -/
inductive RingResult
  | pushed (ok : Bool)
  | threw
  | found (object : Option (Nat × List UInt8))
  | removed (object : Option (Nat × List UInt8))
deriving DecidableEq

namespace RingRun

/-- A pop may come at any time but where the rest of the array is too short to be
marked: it would take what is there for a record. -/
def call (s : RingRun) : RingCall → Option (RingRun × RingResult)
  | .op (.push rec) => some (s.pushed rec (s.ring.push rec), .pushed (s.ring.push rec).1)
  | .op (.pushForced rec) => some (s.pushed rec (s.ring.pushForced rec), .pushed (s.ring.pushForced rec).1)
  | .op .next =>
    some ({ s with ring := s.ring.next.1, armed := s.ring.next.2.isSome },
      .found (s.ring.next.2.map s.ring.next.1.objectAt))
  | .op .pop =>
    if s.ring.AtWrap ∧ s.ring.size - s.ring.readIdx ≤ 8 then none
    else
      some ({ ring := s.ring.pop
              armed := false
              queue := if s.ring.destroyed.isSome then s.queue.tail else s.queue },
        .removed (s.ring.destroyed.map s.ring.objectAt))
  | .throwing rec force scribble =>
    match s.ring.doPushThrows rec force scribble with
    | none => some (s, .pushed false)
    | some ring => some ({ s with ring := ring }, .threw)

/-- The states that calls lead to, pops without a `next` and pushes that throw included. -/
inductive Reaches : RingRun → Prop
  | start (size reserved : Nat) (data : Memory UInt8) : 1 ≤ size → size < 2 ^ 63 →
      Reaches ⟨⟨size, reserved, 0, 0, data⟩, false, []⟩
  | call {s s' : RingRun} {r : RingResult} (c : RingCall) : Reaches s → s.call c = some (s', r) →
      Reaches s'

/-- What a sequence of calls sees, if each pop comes behind a `next` that found something. -/
def trace (s : RingRun) : List RingCall → Option (List RingResult)
  | [] => some []
  | c :: cs =>
    if c.isPop && !s.armed then none
    else (s.call c).bind (fun out => (out.1.trace cs).map (out.2 :: ·))

end RingRun

namespace Ring

variable {s : Ring} {front back : List Record}

/-- The memory that a throwing constructor leaves. -/
def scribbled (s : Ring) (rec : Record) (a : Nat) (scribble : Memory UInt8) : Memory UInt8 :=
  fun x => if a ≤ x ∧ x < a + rec.size then scribble x else s.markedFor a x

theorem doPushThrows_place (s : Ring) (rec : Record) (force : Bool) (scribble : Memory UInt8) :
    s.doPushThrows rec force scribble =
      (s.place rec force).map (fun a => { s with data := s.scribbled rec a scribble }) := by
  unfold doPushThrows place placeAt commitThrows
  by_cases h1 : writeAvailable s.writeIdx s.readIdx s.size < rec.size
  · simp only [h1, if_true, Option.map_none]
  simp only [h1, if_false]
  by_cases h2 : (s.writeIdx + rec.size) % 2 ^ 64 ≥ s.size
  · simp only [h2, if_true]
    by_cases h3 : writeAvailable 0 s.readIdx s.size < rec.size
    · simp only [h3, if_true, Option.map_none]
    simp only [h3, if_false]
    split <;> rfl
  · simp only [h2, if_false]
    split <;> rfl

/-- The block of a record is not in bytes that are used. -/
theorem place_unused (hb : s.size < 2 ^ 63) (hw : s.writeIdx < s.size) (hr : s.readIdx < s.size)
    {rec : Record} {force : Bool} {a : Nat} (hp : s.place rec force = some a) {x : Nat}
    (hx : s.Used x) : ¬ (a ≤ x ∧ x < a + rec.size) := by
  unfold Used at hx
  rcases place_cases hb hw hr rec force with hnone | ⟨hahead, hlt, hroom⟩ | ⟨hwrap, -, hrw, hlt⟩
  · rw [hp] at hnone
    exact absurd hnone (by simp)
  · cases Option.some.inj (hp.symm.trans hahead)
    split at hx <;> omega
  · cases Option.some.inj (hp.symm.trans hwrap)
    rw [if_pos hrw] at hx
    omega

/-- Nor is the marker: where there is a wrap-around the bytes used end at the writer. -/
theorem place_marks (hb : s.size < 2 ^ 63) (hw : s.writeIdx < s.size) (hr : s.readIdx < s.size)
    {rec : Record} {force : Bool} {a : Nat} (hp : s.place rec force = some a) (ha : a < s.writeIdx)
    {x : Nat} (hx : s.Used x) : x < s.writeIdx := by
  unfold Used at hx
  rcases place_cases hb hw hr rec force with hnone | ⟨hahead, -, -⟩ | ⟨-, -, hrw, -⟩
  · rw [hp] at hnone
    exact absurd hnone (by simp)
  · cases Option.some.inj (hp.symm.trans hahead)
    exact absurd ha (Nat.lt_irrefl _)
  · rw [if_pos hrw] at hx
    exact hx.2

theorem markedFor_used (hb : s.size < 2 ^ 63) (hw : s.writeIdx < s.size) (hr : s.readIdx < s.size)
    {rec : Record} {force : Bool} {a : Nat} (hp : s.place rec force = some a) {x : Nat}
    (hx : s.Used x) : s.markedFor a x = s.data x := by
  unfold markedFor
  split
  next hmark => exact store_outside _ (Or.inl (place_marks hb hw hr hp hmark.1 hx))
  next => rfl

theorem layout_scribbled (hlay : Layout s front back) (hb : s.size < 2 ^ 63)
    (hw : s.writeIdx < s.size) (hr : s.readIdx < s.size) {rec : Record} {force : Bool} {a : Nat}
    (hp : s.place rec force = some a) (scribble : Memory UInt8) :
    Layout { s with data := s.scribbled rec a scribble } front back := by
  apply hlay.congr
  intro x hx
  rw [scribbled, if_neg (place_unused hb hw hr hp hx)]
  exact markedFor_used hb hw hr hp hx

end Ring

namespace Ring

theorem objectAt_front {s : Ring} {rec : Record} {front back : List Record}
    (hlay : Layout s (rec :: front) back) (hw : s.writeIdx < s.size) :
    s.objectAt (s.readIdx + 8) = (s.readIdx + 8, rec.payload) := by
  obtain ⟨-, e, -, ht⟩ := hlay.front_tiles hw
  have hlen : rec.size - 8 = rec.payload.length := by simp [Record.size]
  rw [objectAt, Nat.add_sub_cancel, ht.word, hlen, ht.payload]

end Ring

namespace RingRun

variable {s : RingRun} {data : Memory UInt8}

def withData (s : RingRun) (data : Memory UInt8) : RingRun :=
  { s with ring := { s.ring with data := data } }

section Next

variable {rec : Record} {front back : List Record}

theorem call_next_empty (hlay : Layout s.ring [] []) :
    s.call (.op .next) = some ({ s with armed := false }, .found none) := by
  have heq : s.ring.readIdx = s.ring.writeIdx := by
    cases hlay with
    | straight ht => exact ht
    | wrapped _ _ _ _ _ hne => exact absurd rfl hne
  simp [call, Ring.next, Ring.nextReadableBlock, heq]

theorem call_next_front (hb : s.ring.size < 2 ^ 63) (hw : s.ring.writeIdx < s.ring.size)
    (hlay : Layout s.ring (rec :: front) back) :
    s.call (.op .next) =
      some ({ s with armed := true }, .found (some (s.ring.readIdx + 8, rec.payload))) := by
  obtain ⟨hne, e, he, ht⟩ := hlay.front_tiles hw
  have hnext : s.ring.next = (s.ring, some (s.ring.readIdx + 8)) := by
    simp [Ring.next, Ring.nextReadableBlock_front hb ht he hne]
  simp [call, hnext, Ring.objectAt_front hlay hw]

theorem call_next_wrap (hb : s.ring.size < 2 ^ 63) (hw : s.ring.writeIdx < s.ring.size)
    (hr : s.ring.readIdx < s.ring.size) (hlay : Layout s.ring [] (rec :: back)) :
    Layout { s.ring with readIdx := 0 } (rec :: back) [] ∧
      s.call (.op .next) = some ({ s with ring := { s.ring with readIdx := 0 }, armed := true },
        .found (some (8, rec.payload))) := by
  rcases Ring.layout_next hlay hb hw hr with ⟨-, hnil, -⟩ | ⟨hne, -⟩ | ⟨-, -, -, -, hstart, hnext⟩
  · simp at hnil
  · exact absurd rfl hne
  · have object := Ring.objectAt_front hstart hw
    refine ⟨hstart, ?_⟩
    simp only [call, hnext, Option.map_some, Option.isSome_some]
    rw [← object]

theorem call_pop_front (hb : s.ring.size < 2 ^ 63) (hw : s.ring.writeIdx < s.ring.size)
    (hlay : Layout s.ring (rec :: front) back) :
    s.call (.op .pop) = some (⟨{ s.ring with readIdx := s.ring.readIdx + rec.size }, false, s.queue.tail⟩,
      .removed (some (s.ring.readIdx + 8, rec.payload))) := by
  have hnot := PeekRun.not_atWrap_of_front hw hlay
  obtain ⟨hpop, -⟩ := Ring.layout_pop hlay hb hw
  simp [call, hnot, PeekRun.destroyed_front hlay hw, hpop, Ring.objectAt_front hlay hw]

end Next

/-- Another memory with the same records at the same places; the free bytes may differ. -/
structure Twin (s : RingRun) (data : Memory UInt8) : Prop where
  pos : 1 ≤ s.ring.size
  bound : s.ring.size < 2 ^ 63
  write_lt : s.ring.writeIdx < s.ring.size
  read_lt : s.ring.readIdx < s.ring.size
  layout : ∃ front back, s.queue = front ++ back ∧ Layout s.ring front back ∧
    Layout (s.withData data).ring front back ∧ (s.armed = true → front ≠ [])

/-- Both pushes put the record to the same place, or refuse it. -/
theorem Twin.pushed (h : s.Twin data) (rec : Record) (force : Bool) :
    ∃ data', (s.withData data).ring.doPush rec force =
        ((s.ring.doPush rec force).1, { (s.ring.doPush rec force).2 with data := data' }) ∧
      (s.pushed rec (s.ring.doPush rec force)).Twin data' := by
  obtain ⟨front, back, hq, hlay, hlay', harm⟩ := h.layout
  have hb := h.bound
  have hw := h.write_lt
  have hr := h.read_lt
  have place : (s.withData data).ring.place rec force = s.ring.place rec force := rfl
  rw [Ring.doPush_place, Ring.doPush_place, place]
  rcases Ring.place_cases hb hw hr rec force with hp | ⟨hp, hlt, hroom⟩ | ⟨hp, -, hrw, hlt⟩
  · rw [hp]
    exact ⟨data, rfl, h⟩
  · rw [hp]
    simp only [Option.elim_some]
    refine ⟨_, rfl, ?_⟩
    have ahead := Ring.layout_append hlay hroom
    have ahead' := Ring.layout_append (s := (s.withData data).ring) hlay' hroom
    rw [← Ring.put_ahead hb hlt] at ahead
    rw [← Ring.put_ahead (s := (s.withData data).ring) hb hlt] at ahead'
    refine ⟨h.pos, hb, ?_, hr, _, _, ?_, ahead, ahead', ?_⟩
    · rw [RingRun.pushed, Ring.put_ahead hb hlt]
      exact hlt
    · rw [← Ring.append_queue, ← hq]
      rfl
    · intro armed
      exact Ring.append_front_ne (harm armed) rec
  · rw [hp]
    simp only [Option.elim_some]
    refine ⟨_, rfl, ?_⟩
    obtain ⟨hback, wrapped⟩ := Ring.layout_wrap hlay hrw hw hlt
    obtain ⟨-, wrapped'⟩ := Ring.layout_wrap (s := (s.withData data).ring) hlay' hrw hw hlt
    rw [← Ring.put_wrapped hb hw hrw hlt] at wrapped
    rw [← Ring.put_wrapped (s := (s.withData data).ring) hb hw hrw hlt] at wrapped'
    refine ⟨h.pos, hb, ?_, hr, front, [rec], ?_, wrapped, wrapped', harm⟩
    · rw [RingRun.pushed, Ring.put_wrapped hb hw hrw hlt]
      exact hlt.trans hr
    · simp [RingRun.pushed, hq, hback]

theorem Twin.next (h : s.Twin data) :
    ∃ s' r, s.call (.op .next) = some (s', r) ∧
      (s.withData data).call (.op .next) = some (s'.withData data, r) ∧ s'.Twin data := by
  obtain ⟨front, back, hq, hlay, hlay', harm⟩ := h.layout
  have hb := h.bound
  have hw := h.write_lt
  have hr := h.read_lt
  cases front with
  | cons rec front =>
    exact ⟨_, _, call_next_front hb hw hlay, call_next_front (s := s.withData data) hb hw hlay',
      h.pos, hb, hw, hr, rec :: front, back, hq, hlay, hlay', by simp⟩
  | nil =>
    cases back with
    | nil =>
      exact ⟨_, _, call_next_empty hlay, call_next_empty (s := s.withData data) hlay',
        h.pos, hb, hw, hr, [], [], hq, hlay, hlay', by simp⟩
    | cons rec back =>
      obtain ⟨start, hcall⟩ := call_next_wrap hb hw hr hlay
      obtain ⟨start', hcall'⟩ := call_next_wrap (s := s.withData data) hb hw hr hlay'
      exact ⟨_, _, hcall, hcall', h.pos, hb, hw, h.pos, rec :: back, [], by simp [hq], start, start',
        by simp⟩

theorem Twin.pop (h : s.Twin data) (harmed : s.armed = true) :
    ∃ s' r, s.call (.op .pop) = some (s', r) ∧
      (s.withData data).call (.op .pop) = some (s'.withData data, r) ∧ s'.Twin data := by
  obtain ⟨front, back, hq, hlay, hlay', harm⟩ := h.layout
  have hb := h.bound
  have hw := h.write_lt
  obtain ⟨rec, front, rfl⟩ := List.exists_cons_of_ne_nil (harm harmed)
  obtain ⟨-, hr, rest⟩ := Ring.layout_pop hlay hb hw
  obtain ⟨-, -, rest'⟩ := Ring.layout_pop hlay' hb hw
  exact ⟨_, _, call_pop_front hb hw hlay, call_pop_front (s := s.withData data) hb hw hlay',
    h.pos, hb, hw, hr, front, back, by simp [hq], rest, rest', by simp⟩

theorem Twin.throwing (h : s.Twin data) (rec : Record) (force : Bool) (scribble : Memory UInt8) :
    ∃ s' r data', s.call (.throwing rec force scribble) = some (s', r) ∧
      (s.withData data).call (.throwing rec force scribble) = some (s'.withData data', r) ∧
      s'.Twin data' := by
  obtain ⟨front, back, hq, hlay, hlay', harm⟩ := h.layout
  have hb := h.bound
  have hw := h.write_lt
  have hr := h.read_lt
  have place : (s.withData data).ring.place rec force = s.ring.place rec force := rfl
  simp only [call, Ring.doPushThrows_place, place]
  cases hp : s.ring.place rec force with
  | none => exact ⟨s, _, data, rfl, rfl, h⟩
  | some a =>
    exact ⟨_, _, _, rfl, rfl, h.pos, hb, hw, hr, front, back, hq,
      Ring.layout_scribbled hlay hb hw hr hp scribble,
      Ring.layout_scribbled (s := (s.withData data).ring) hlay' hb hw hr hp scribble, harm⟩

/-- Calls see the same in both, as long as pops come behind a `next`. -/
theorem Twin.call (h : s.Twin data) (c : RingCall) (hpop : (c.isPop && !s.armed) = false) :
    ∃ s' r data', s.call c = some (s', r) ∧
      (s.withData data).call c = some (s'.withData data', r) ∧ s'.Twin data' := by
  have pushes : ∀ rec force, ∃ s' r data',
      some (s.pushed rec (s.ring.doPush rec force), RingResult.pushed (s.ring.doPush rec force).1) =
        some (s', r) ∧
      some ((s.withData data).pushed rec ((s.withData data).ring.doPush rec force),
          RingResult.pushed ((s.withData data).ring.doPush rec force).1) =
        some (s'.withData data', r) ∧ s'.Twin data' := by
    intro rec force
    obtain ⟨data', heq, twin⟩ := h.pushed rec force
    refine ⟨_, _, data', rfl, ?_, twin⟩
    rw [heq]
    rfl
  cases c with
  | op o =>
    cases o with
    | push rec => exact pushes rec false
    | pushForced rec => exact pushes rec true
    | next =>
      obtain ⟨s', r, hs, ht, twin⟩ := h.next
      exact ⟨s', r, data, hs, ht, twin⟩
    | pop =>
      obtain ⟨s', r, hs, ht, twin⟩ := h.pop (by simpa [RingCall.isPop] using hpop)
      exact ⟨s', r, data, hs, ht, twin⟩
  | throwing rec force scribble => exact h.throwing rec force scribble

theorem Twin.trace (h : s.Twin data) (cs : List RingCall) : (s.withData data).trace cs = s.trace cs := by
  induction cs generalizing s data with
  | nil => rfl
  | cons c cs ih =>
    have armed : (s.withData data).armed = s.armed := rfl
    rw [RingRun.trace, RingRun.trace, armed]
    cases hpop : c.isPop && !s.armed with
    | true => rfl
    | false =>
      obtain ⟨s', r, data', hs, ht, twin⟩ := h.call c hpop
      rw [hs, ht]
      simp only [Bool.false_eq_true, if_false, Option.bind_some]
      rw [ih twin]

theorem popped_good (h : s.Good) (hmark : ¬ (s.ring.AtWrap ∧ s.ring.size - s.ring.readIdx ≤ 8)) :
    Good ⟨s.ring.pop, false, if s.ring.destroyed.isSome then s.queue.tail else s.queue⟩ := by
  obtain ⟨front, back, hq, hlay, -⟩ := h.layout
  have hb := h.bound
  have hw := h.write_lt
  have hr := h.read_lt
  cases front with
  | cons rec front =>
    obtain ⟨hpop, hr', rest⟩ := Ring.layout_pop hlay hb hw
    rw [PeekRun.destroyed_front hlay hw, hpop]
    exact ⟨h.pos, hb, hw, hr', front, back, by simp [hq], rest, by simp⟩
  | nil =>
    rcases Ring.layout_next hlay hb hw hr with ⟨-, -, heq, -⟩ | ⟨hne, -⟩ | ⟨-, -, hwr, hwrap, start, -⟩
    · have hpop : s.ring.pop = s.ring := by simp [Ring.pop, heq]
      have hnone : s.ring.destroyed = none := by simp [Ring.destroyed, heq]
      rw [hpop, hnone]
      exact ⟨h.pos, hb, hw, hr, [], back, hq, hlay, by simp⟩
    · exact absurd rfl hne
    · -- a pop at the marker only takes the reader round
      have hne : s.ring.readIdx ≠ s.ring.writeIdx := by omega
      have hword : Ring.marker = wordOf (s.ring.data.load s.ring.readIdx 8) := by
        rcases hwrap with hshort | hword
        · exact absurd ⟨⟨hne, Or.inl hshort⟩, hshort⟩ hmark
        · exact hword.symm
      have hpop : s.ring.pop = { s.ring with readIdx := 0 } := by
        simp only [Ring.pop, hne, if_false, ← hword, if_true]
      have hnone : s.ring.destroyed = none := by
        simp only [Ring.destroyed, hne, if_false, ← hword, if_true]
      rw [hpop, hnone]
      exact ⟨h.pos, hb, hw, h.pos, back, [], by simp [hq], start, by simp⟩

theorem call_good {c : RingCall} {s' : RingRun} {r : RingResult} (h : s.Good)
    (hc : s.call c = some (s', r)) : s'.Good := by
  cases c with
  | op o =>
    cases o with
    | push rec =>
      cases Option.some.inj hc
      exact pushed_good h rec false
    | pushForced rec =>
      cases Option.some.inj hc
      exact pushed_good h rec true
    | next =>
      cases Option.some.inj hc
      exact next_good h
    | pop =>
      rw [call] at hc
      split at hc
      next => simp at hc
      next hmark =>
        cases Option.some.inj hc
        exact popped_good h hmark
  | throwing rec force scribble =>
    rw [call, Ring.doPushThrows_place] at hc
    cases hp : s.ring.place rec force with
    | none =>
      rw [hp] at hc
      cases Option.some.inj hc
      exact h
    | some a =>
      rw [hp] at hc
      cases Option.some.inj hc
      obtain ⟨front, back, hq, hlay, harm⟩ := h.layout
      exact ⟨h.pos, h.bound, h.write_lt, h.read_lt, front, back, hq,
        Ring.layout_scribbled hlay h.bound h.write_lt h.read_lt hp scribble, harm⟩

theorem reaches_good (h : Reaches s) : s.Good := by
  induction h with
  | start size reserved data hpos hb => exact good_start hpos hb
  | call c _ hc ih => exact call_good ih hc

/-- A constructor that throws, whatever it has written by then, leaves a ring in which
all later calls see what they would have seen without that push. -/
theorem throwing_push_unseen (h : Reaches s) (rec : Record) (force : Bool) (scribble : Memory UInt8)
    {s' : RingRun} (hc : s.call (.throwing rec force scribble) = some (s', .threw))
    (cs : List RingCall) : s'.trace cs = s.trace cs := by
  have good := reaches_good h
  rw [call, Ring.doPushThrows_place] at hc
  cases hp : s.ring.place rec force with
  | none => simp [hp] at hc
  | some a =>
    simp only [hp, Option.map_some, Option.some.injEq, Prod.mk.injEq, and_true] at hc
    obtain ⟨front, back, hq, hlay, harm⟩ := good.layout
    have twin : s.Twin (s.ring.scribbled rec a scribble) :=
      ⟨good.pos, good.bound, good.write_lt, good.read_lt, front, back, hq, hlay,
        Ring.layout_scribbled hlay good.bound good.write_lt good.read_lt hp scribble, harm⟩
    rw [← hc]
    exact twin.trace cs

/-- In a ring of 48 bytes two records were pushed and popped; the third goes round, and
its constructor throws when the marker is written. -/
theorem throwing_push_unseen_at_wrap :
    ∃ s s' : RingRun, Reaches s ∧ s.queue = [] ∧ s'.ring.data 32 ≠ s.ring.data 32 ∧
      s'.trace [.op (.push (oneWord 3)), .op .next, .op .pop, .op .next] =
        s.trace [.op (.push (oneWord 3)), .op .next, .op .pop, .op .next] := by
  have h0 : Reaches ⟨⟨48, 0, 0, 0, fun _ => 0⟩, false, []⟩ := .start 48 0 _ (by omega) (by omega)
  have h1 := Reaches.call (.op (.push (oneWord 1))) h0 rfl
  have h2 := Reaches.call (.op (.push (oneWord 2))) h1 rfl
  have h3 := Reaches.call (.op .next) h2 rfl
  have h4 := Reaches.call (.op .pop) h3 rfl
  have h5 := Reaches.call (.op .next) h4 rfl
  have h6 := Reaches.call (.op .pop) h5 rfl
  refine ⟨_, _, h6, rfl, ?_, throwing_push_unseen h6 (oneWord 3) false (fun _ => 7) rfl _⟩
  decide

end RingRun

end XiRuntime
