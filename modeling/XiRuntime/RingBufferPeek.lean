import Mathlib.Data.List.Induction
import XiRuntime.RingBufferFifo
import XiRuntime.Runs

namespace XiRuntime

open ByteStore

namespace Ring

/-- The object that `pop` destroys. -/
def destroyed (s : Ring) : Option Nat :=
  if s.readIdx = s.writeIdx then none
  else if marker = wordOf (s.data.load s.readIdx 8) then none
  else some (s.readIdx + 8)

/-- The reader has yet to go round: `next_readable_block` would move it to the start. -/
def AtWrap (s : Ring) : Prop := s.readIdx ≠ s.writeIdx ∧ WrapsAt s s.readIdx

/-- `do_push` accepts the record when there are `available` bytes. -/
def Fits (s : Ring) (rec : Record) (force : Bool) (available : Nat) : Prop :=
  rec.size ≤ available ∧ (force = true ∨ s.reserved ≤ available - rec.size)

instance (s : Ring) : Decidable s.AtWrap := inferInstanceAs (Decidable (_ ∧ (_ ∨ _)))

instance (s : Ring) (rec : Record) (force : Bool) (available : Nat) :
    Decidable (s.Fits rec force available) := inferInstanceAs (Decidable (_ ∧ (_ ∨ _)))

end Ring

def RingOp.isNext : RingOp → Bool
  | .next => true
  | _ => false

/-- What the users of a ring get to see: whether a push was accepted, and which
object a pop destroyed. -/
inductive RingEvent
  | pushed (ok : Bool)
  | removed (object : Option Nat)
deriving DecidableEq, Repr

/-- A ring in use, with pops made at any time. -/
structure PeekRun where
  ring : Ring
  queue : List Record
  seen : List RingEvent

namespace PeekRun

def pushed (s : PeekRun) (rec : Record) (out : Bool × Ring) : PeekRun where
  ring := out.2
  queue := if out.1 then s.queue ++ [rec] else s.queue
  seen := s.seen ++ [.pushed out.1]

def step (s : PeekRun) : RingOp → PeekRun
  | .push rec => s.pushed rec (s.ring.push rec)
  | .pushForced rec => s.pushed rec (s.ring.pushForced rec)
  | .next => { s with ring := s.ring.next.1 }
  | .pop => ⟨s.ring.pop, s.queue.tail, s.seen ++ [.removed s.ring.destroyed]⟩

def start (size reserved : Nat) (data : Memory UInt8) : PeekRun := ⟨⟨size, reserved, 0, 0, data⟩, [], []⟩

/-- A step that comes out differently when `next` was called before it: a pop at the
wrap point, or a push for which there is room only behind the wrap point. -/
def Stumbles (s : PeekRun) : RingOp → Prop
  | .push rec => s.ring.AtWrap ∧ ¬ s.ring.Fits rec false (s.ring.readIdx - s.ring.writeIdx - 1) ∧
      s.ring.Fits rec false (s.ring.size - s.ring.writeIdx - 1)
  | .pushForced rec => s.ring.AtWrap ∧ ¬ s.ring.Fits rec true (s.ring.readIdx - s.ring.writeIdx - 1) ∧
      s.ring.Fits rec true (s.ring.size - s.ring.writeIdx - 1)
  | .next => False
  | .pop => s.ring.AtWrap

instance (s : PeekRun) : ∀ op, Decidable (s.Stumbles op)
  | .push _ => inferInstanceAs (Decidable (_ ∧ _ ∧ _))
  | .pushForced _ => inferInstanceAs (Decidable (_ ∧ _ ∧ _))
  | .next => inferInstanceAs (Decidable False)
  | .pop => inferInstanceAs (Decidable (Ring.AtWrap _))

def run (s : PeekRun) (ops : List RingOp) : PeekRun := runFrom step s ops

/-- The operations without the calls of `next`. -/
def skeleton (ops : List RingOp) : List RingOp := ops.filter (fun op => !op.isNext)

/-- No step of the run stumbles. -/
def Steady (s : PeekRun) (ops : List RingOp) : Prop :=
  ∀ n op, ops[n]? = some op → ¬ (s.run (ops.take n)).Stumbles op

/-- What holds of a ring in use, whoever pops from it. -/
def Good (s : PeekRun) : Prop := (⟨s.ring, false, s.queue⟩ : RingRun).Good

end PeekRun

namespace Ring

variable {s : Ring}

theorem next_of_not_atWrap (hb : s.size < 2 ^ 63) (hr : s.readIdx < s.size) (h : ¬ s.AtWrap) :
    s.next.1 = s := by
  unfold next nextReadableBlock
  by_cases heq : s.readIdx = s.writeIdx
  · simp [heq]
  · have hwrap : ¬ WrapsAt s s.readIdx := fun hw => h ⟨heq, hw⟩
    have hsub := subWord_eq (show s.readIdx ≤ s.size by omega) (by omega)
    have hcond : ¬ (marker = wordOf (s.data.load s.readIdx 8) ∨ subWord s.size s.readIdx ≤ 8) := by
      rw [hsub]
      intro hc
      exact hwrap (hc.symm.imp id Eq.symm)
    simp only [heq, if_false, hcond]

theorem next_of_atWrap (hb : s.size < 2 ^ 63) (hr : s.readIdx < s.size) (h : s.AtWrap) :
    s.next.1 = { s with readIdx := 0 } := by
  simp [next, nextReadableBlock_wrap hb hr h.2 h.1]

theorem placeAt_eq (rec : Record) (force : Bool) (a available : Nat) :
    s.placeAt rec force a available = if s.Fits rec force available then some a else none := by
  cases force with
  | true =>
    have hfits : s.Fits rec true available ↔ ¬ available < rec.size := by
      simp [Fits]
    rw [placeAt_true]
    by_cases hroom : available < rec.size
    · rw [if_pos hroom, if_neg (fun h => hfits.mp h hroom)]
    · rw [if_neg hroom, if_pos (hfits.mpr hroom)]
  | false =>
    rw [placeAt_false, placeAt_true]
    by_cases hroom : available < rec.size
    · have hfits : ¬ s.Fits rec false available := fun h => Nat.not_le.mpr hroom h.1
      rw [if_pos hroom, Option.bind_none, if_neg hfits]
    · have hfits : s.Fits rec false available ↔ s.reserved ≤ available - rec.size := by
        simp [Fits, Nat.not_lt.mp hroom]
      rw [if_neg hroom, Option.bind_some]
      simp only [hfits]

/-- A push that has no need to go round. -/
theorem doPush_ahead (hs : s.size < 2 ^ 63) {available : Nat} (rec : Record) (force : Bool)
    (hav : writeAvailable s.writeIdx s.readIdx s.size = available)
    (hlt : available + s.writeIdx < s.size) :
    (s.Fits rec force available → s.doPush rec force =
      (true, { s with
        data := s.data.store s.writeIdx rec.bytes
        writeIdx := s.writeIdx + rec.size })) ∧
      (¬ s.Fits rec force available → s.doPush rec force = (false, s)) := by
  have hplace : s.place rec force = if s.Fits rec force available then some s.writeIdx else none := by
    simp only [place, hav]
    by_cases hroom : available < rec.size
    · have hfits : ¬ s.Fits rec force available := fun h => Nat.not_le.mpr hroom h.1
      rw [if_pos hroom, if_neg hfits]
    · have hmod : (s.writeIdx + rec.size) % 2 ^ 64 = s.writeIdx + rec.size := Nat.mod_eq_of_lt (by omega)
      rw [if_neg hroom, hmod, if_neg (by omega), placeAt_eq]
  rw [doPush_place, hplace]
  constructor
  · intro hfits
    have hsize := hfits.1
    rw [if_pos hfits, Option.elim_some, put_ahead hs (by omega)]
  · intro hfits
    rw [if_neg hfits, Option.elim_none]

theorem Fits.mono {rec : Record} {force : Bool} {a b : Nat} (h : s.Fits rec force a) (hab : a ≤ b) :
    s.Fits rec force b := by
  obtain ⟨hsize, hforce | hres⟩ := h
  · exact ⟨by omega, Or.inl hforce⟩
  · exact ⟨by omega, Or.inr (by omega)⟩

end Ring

namespace PeekRun

variable {s : PeekRun}

theorem not_atWrap_of_front {ring : Ring} {rec : Record} {front back : List Record}
    (hw : ring.writeIdx < ring.size) (hlay : Layout ring (rec :: front) back) : ¬ ring.AtWrap := by
  obtain ⟨-, e, he, ht⟩ := hlay.front_tiles hw
  have hlt := ht.lt (by simp)
  rintro ⟨-, hshort | hmark⟩
  · omega
  · rw [ht.word] at hmark
    exact rec.size_ne_marker hmark

/-- The buffer is empty, the reader is at the oldest record, or it has to go round
to it. -/
theorem good_cases (h : s.Good) :
    (s.queue = [] ∧ s.ring.readIdx = s.ring.writeIdx) ∨
    (∃ rec front back, s.queue = (rec :: front) ++ back ∧ Layout s.ring (rec :: front) back ∧
      ¬ s.ring.AtWrap) ∨
    (s.ring.AtWrap ∧ s.ring.writeIdx < s.ring.readIdx ∧
      ∃ rec back, s.queue = rec :: back ∧ Tiles s.ring.data 0 s.ring.writeIdx (rec :: back)) := by
  obtain ⟨front, back, hq, hlay, -⟩ := h.layout
  cases front with
  | cons rec front =>
    exact Or.inr (Or.inl ⟨rec, front, back, hq, hlay, not_atWrap_of_front h.write_lt hlay⟩)
  | nil =>
    cases hlay with
    | straight ht => exact Or.inl ⟨hq, ht⟩
    | wrapped hwr he ht hwrap hback hne =>
      cases ht
      cases back with
      | nil => exact absurd rfl hne
      | cons rec back =>
        exact Or.inr (Or.inr ⟨⟨by simp only at hwr ⊢; omega, hwrap⟩, hwr, rec, back, hq, hback⟩)

theorem Good.bounds (h : s.Good) : 1 ≤ s.ring.size ∧ s.ring.size < 2 ^ 63 ∧
    s.ring.writeIdx < s.ring.size ∧ s.ring.readIdx < s.ring.size :=
  ⟨h.pos, h.bound, h.write_lt, h.read_lt⟩

theorem good_of_armed {t : RingRun} (h : t.Good) : (⟨t.ring, false, t.queue⟩ : RingRun).Good := by
  obtain ⟨front, back, hq, hlay, -⟩ := h.layout
  exact ⟨h.pos, h.bound, h.write_lt, h.read_lt, front, back, hq, hlay, by simp⟩

theorem good_start {size reserved : Nat} {data : Memory UInt8} (h : 1 ≤ size) (hb : size < 2 ^ 63) :
    (start size reserved data).Good := RingRun.good_start h hb

theorem pushed_good (h : s.Good) (rec : Record) (force : Bool) :
    (s.pushed rec (s.ring.doPush rec force)).Good := RingRun.pushed_good h rec force

theorem next_good (h : s.Good) : (s.step .next).Good := good_of_armed (RingRun.next_good h)

theorem destroyed_front {ring : Ring} {rec : Record} {front back : List Record}
    (hlay : Layout ring (rec :: front) back) (hw : ring.writeIdx < ring.size) :
    ring.destroyed = some (ring.readIdx + 8) := by
  obtain ⟨hne, e, -, ht⟩ := hlay.front_tiles hw
  have hword : ¬ Ring.marker = wordOf (ring.data.load ring.readIdx 8) := by
    rw [ht.word]
    exact fun hm => rec.size_ne_marker hm.symm
  simp only [Ring.destroyed, hne, if_false, hword]

theorem pop_front {rec : Record} {front back : List Record} (h : s.Good)
    (hq : s.queue = (rec :: front) ++ back) (hlay : Layout s.ring (rec :: front) back) :
    (s.step .pop).Good ∧ s.ring.destroyed = some (s.ring.readIdx + 8) ∧
      s.ring.data.load (s.ring.readIdx + 8) rec.payload.length = rec.payload := by
  have harmed : (⟨s.ring, true, s.queue⟩ : RingRun).Good :=
    ⟨h.pos, h.bound, h.write_lt, h.read_lt, rec :: front, back, hq, hlay, by simp⟩
  obtain ⟨-, e, -, ht⟩ := hlay.front_tiles h.write_lt
  exact ⟨RingRun.pop_good harmed rfl, destroyed_front hlay h.write_lt, ht.payload⟩

theorem step_good {op : RingOp} (h : s.Good) (hs : ¬ s.Stumbles op) : (s.step op).Good := by
  cases op with
  | push rec => exact pushed_good h rec false
  | pushForced rec => exact pushed_good h rec true
  | next => exact next_good h
  | pop =>
    rcases good_cases h with ⟨hq, heq⟩ | ⟨rec, front, back, hq, hlay, -⟩ | ⟨hwrap, -⟩
    · have hpop : s.ring.pop = s.ring := by simp [Ring.pop, heq]
      have hstep : (s.step .pop).ring = s.ring ∧ (s.step .pop).queue = s.queue := by
        simp [step, hpop, hq]
      unfold Good
      rw [hstep.1, hstep.2]
      exact h
    · exact (pop_front h hq hlay).1
    · exact absurd hwrap hs

/-- Where `next` has taken the reader to the start. -/
theorem atWrap_next (h : s.Good) (hwrap : s.ring.AtWrap) :
    s.ring.writeIdx < s.ring.readIdx ∧ s.ring.next.1 = { s.ring with readIdx := 0 } ∧
      ∃ rec back, s.queue = (rec :: back) ++ [] ∧
        Layout { s.ring with readIdx := 0 } (rec :: back) [] := by
  have hnext := Ring.next_of_atWrap h.bound h.read_lt hwrap
  rcases good_cases h with ⟨-, hsame⟩ | ⟨rec, front, back, -, -, hnot⟩ | ⟨-, hlt, rec, back, hq, ht⟩
  · exact absurd hsame hwrap.1
  · exact absurd hwrap hnot
  · exact ⟨hlt, hnext, rec, back, by simp [hq], .straight ht⟩

/-- `next` leaves the reader where the next call finds it. -/
theorem next_next (h : s.Good) : s.ring.next.1.next.1 = s.ring.next.1 := by
  by_cases hwrap : s.ring.AtWrap
  · obtain ⟨-, hnext, rec, back, -, hlay⟩ := atWrap_next h hwrap
    obtain ⟨-, hb, -, hr⟩ := (next_good h).bounds
    have hnot : ¬ s.ring.next.1.AtWrap := by
      rw [hnext]
      exact not_atWrap_of_front h.write_lt hlay
    exact Ring.next_of_not_atWrap hb hr hnot
  · have hnext := Ring.next_of_not_atWrap h.bound h.read_lt hwrap
    rw [hnext, hnext]

/-- Two rings that differ only in a wrap-around that the reader has still to make. -/
structure Alike (s t : PeekRun) : Prop where
  ring : s.ring.next.1 = t.ring.next.1
  queue : s.queue = t.queue
  seen : s.seen = t.seen

theorem Alike.refl (s : PeekRun) : Alike s s := ⟨rfl, rfl, rfl⟩

theorem Alike.step_next {t : PeekRun} (h : Alike s t) : s.step .next = t.step .next := by
  simp only [step]
  rw [h.ring, h.queue, h.seen]

section AtWrap

variable (h : s.Good) (hwrap : s.ring.AtWrap) (rec : Record) (force : Bool)
include h hwrap

/-- A push at the wrap point. -/
theorem doPush_atWrap :
    (s.ring.Fits rec force (s.ring.readIdx - s.ring.writeIdx - 1) → s.ring.doPush rec force =
      (true, { s.ring with
        data := s.ring.data.store s.ring.writeIdx rec.bytes
        writeIdx := s.ring.writeIdx + rec.size })) ∧
      (¬ s.ring.Fits rec force (s.ring.readIdx - s.ring.writeIdx - 1) →
        s.ring.doPush rec force = (false, s.ring)) := by
  obtain ⟨hlt, -⟩ := atWrap_next h hwrap
  obtain ⟨-, hb, hw, hr⟩ := h.bounds
  refine Ring.doPush_ahead hb rec force ?_ (by omega)
  rw [Ring.writeAvailable_eq hw hr hb, if_neg (by omega)]

/-- The same push with the reader at the start. -/
theorem doPush_wrapped :
    (s.ring.Fits rec force (s.ring.size - s.ring.writeIdx - 1) → s.ring.next.1.doPush rec force =
      (true, { s.ring with
        readIdx := 0
        data := s.ring.data.store s.ring.writeIdx rec.bytes
        writeIdx := s.ring.writeIdx + rec.size })) ∧
      (¬ s.ring.Fits rec force (s.ring.size - s.ring.writeIdx - 1) →
        s.ring.next.1.doPush rec force = (false, { s.ring with readIdx := 0 })) := by
  obtain ⟨hlt, hnext, -⟩ := atWrap_next h hwrap
  obtain ⟨hpos, hb, hw, -⟩ := h.bounds
  rw [hnext]
  refine Ring.doPush_ahead (s := { s.ring with readIdx := 0 }) hb rec force ?_ (by simp only; omega)
  rw [Ring.writeAvailable_eq (r := 0) hw hpos hb, if_pos (by omega)]
  simp

theorem pushed_alike
    (hs : ¬ (¬ s.ring.Fits rec force (s.ring.readIdx - s.ring.writeIdx - 1) ∧
      s.ring.Fits rec force (s.ring.size - s.ring.writeIdx - 1))) :
    Alike (s.pushed rec (s.ring.doPush rec force))
      ((s.step .next).pushed rec ((s.step .next).ring.doPush rec force)) := by
  obtain ⟨hlt, hnext, -⟩ := atWrap_next h hwrap
  obtain ⟨hyes, hno⟩ := doPush_atWrap h hwrap rec force
  obtain ⟨hyes', hno'⟩ := doPush_wrapped h hwrap rec force
  obtain ⟨-, -, -, hr⟩ := h.bounds
  have hmono : s.ring.Fits rec force (s.ring.readIdx - s.ring.writeIdx - 1) →
      s.ring.Fits rec force (s.ring.size - s.ring.writeIdx - 1) := fun hf => hf.mono (by omega)
  have hgood := pushed_good h rec force
  have hgood' := pushed_good (next_good h) rec force
  by_cases hfits : s.ring.Fits rec force (s.ring.readIdx - s.ring.writeIdx - 1)
  · have hpush := hyes hfits
    have hpush' := hyes' (hmono hfits)
    have hring : (s.step .next).ring = s.ring.next.1 := rfl
    rw [hring] at hgood' ⊢
    rw [hpush] at hgood ⊢
    rw [hpush'] at hgood' ⊢
    refine ⟨?_, rfl, rfl⟩
    -- the record ends before the wrap point, which stays as it was
    have hsize := hfits.1
    have hwrap' : Ring.AtWrap { s.ring with
        data := s.ring.data.store s.ring.writeIdx rec.bytes
        writeIdx := s.ring.writeIdx + rec.size } := by
      refine ⟨by simp only; omega, hwrap.2.imp_right ?_⟩
      intro hm
      have hlen := rec.length_bytes
      have hapart : Apart s.ring.writeIdx rec.bytes.length s.ring.readIdx 8 := by
        unfold Apart
        omega
      exact (congrArg wordOf (load_store_apart s.ring.data hapart)).trans hm
    obtain ⟨-, hleft, -⟩ := atWrap_next hgood hwrap'
    have hright := next_next hgood
    rw [hleft] at hright
    simp only [pushed] at hleft hright ⊢
    rw [hleft]
    exact hright.symm
  · have hfits' : ¬ s.ring.Fits rec force (s.ring.size - s.ring.writeIdx - 1) := fun hf => hs ⟨hfits, hf⟩
    have hring : (s.step .next).ring = s.ring.next.1 := rfl
    rw [hring, hno hfits, hno' hfits', ← hnext]
    exact ⟨(next_next h).symm, rfl, rfl⟩

end AtWrap

/-- A step that does not stumble does what it does behind a `next`. -/
theorem step_alike {op : RingOp} (h : s.Good) (hs : ¬ s.Stumbles op) :
    Alike (s.step op) ((s.step .next).step op) := by
  by_cases hwrap : s.ring.AtWrap
  · cases op with
    | push rec => exact pushed_alike h hwrap rec false (fun hf => hs ⟨hwrap, hf⟩)
    | pushForced rec => exact pushed_alike h hwrap rec true (fun hf => hs ⟨hwrap, hf⟩)
    | next =>
      refine ⟨?_, rfl, rfl⟩
      exact congrArg (fun r => (Ring.next r).1) (next_next h).symm
    | pop => exact absurd hwrap hs
  · have hsame : s.step .next = s := by
      simp only [step]
      rw [Ring.next_of_not_atWrap h.bound h.read_lt hwrap]
    rw [hsame]
    exact .refl _

theorem destroyed_next (h : s.Good) (hwrap : s.ring.AtWrap) :
    (s.step .next).ring.destroyed = some 8 ∧ s.ring.destroyed ≠ some 8 := by
  obtain ⟨hlt, hnext, rec, back, hq, hlay⟩ := atWrap_next h hwrap
  constructor
  · have hring : (s.step .next).ring = { s.ring with readIdx := 0 } := hnext
    rw [← hring] at hlay
    rw [(pop_front (next_good h) hq hlay).2.1, hring]
  · unfold Ring.destroyed
    split
    next => simp
    next =>
      split
      next => simp
      next =>
        intro h8
        have h0 := Option.some.inj h8
        omega

/-- The steps that stumble are those that a `next` in front of them changes. -/
theorem seen_next_iff (h : s.Good) (op : RingOp) :
    ((s.step .next).step op).seen = (s.step op).seen ↔ ¬ s.Stumbles op := by
  refine ⟨?_, fun hs => (step_alike h hs).seen.symm⟩
  have hpush : ∀ rec force, s.ring.AtWrap →
      ¬ s.ring.Fits rec force (s.ring.readIdx - s.ring.writeIdx - 1) →
      s.ring.Fits rec force (s.ring.size - s.ring.writeIdx - 1) →
      ((s.step .next).pushed rec (s.ring.next.1.doPush rec force)).seen ≠
        (s.pushed rec (s.ring.doPush rec force)).seen := by
    intro rec force hwrap hno hyes
    rw [(doPush_atWrap h hwrap rec force).2 hno, (doPush_wrapped h hwrap rec force).1 hyes]
    simp [pushed, step]
  cases op with
  | push rec =>
    rintro heq ⟨hwrap, hno, hyes⟩
    exact hpush rec false hwrap hno hyes heq
  | pushForced rec =>
    rintro heq ⟨hwrap, hno, hyes⟩
    exact hpush rec true hwrap hno hyes heq
  | next => exact fun _ hs => hs
  | pop =>
    intro heq hwrap
    obtain ⟨hnext, hhere⟩ := destroyed_next h hwrap
    have hseen : s.seen ++ [RingEvent.removed (s.step .next).ring.destroyed] =
        s.seen ++ [RingEvent.removed s.ring.destroyed] := heq
    have hsame : (s.step .next).ring.destroyed = s.ring.destroyed := by simpa using hseen
    exact hhere (hsame.symm.trans hnext)

theorem steady_nil (s : PeekRun) : s.Steady [] := by
  intro n op hop
  simp at hop

theorem steady_snoc {ops : List RingOp} {op : RingOp} :
    s.Steady (ops ++ [op]) ↔ s.Steady ops ∧ ¬ (s.run ops).Stumbles op := by
  constructor
  · intro h
    constructor
    · intro n op' hop
      have hn : n < ops.length := (List.getElem?_eq_some_iff.mp hop).1
      have hlast := h n op' (by rw [List.getElem?_append_left hn]; exact hop)
      rwa [List.take_append_of_le_length (Nat.le_of_lt hn)] at hlast
    · have hlast := h ops.length op (by simp)
      rwa [List.take_left] at hlast
  · rintro ⟨h, hlast⟩ n op' hop
    rcases Nat.lt_or_ge n ops.length with hn | hn
    · rw [List.getElem?_append_left hn] at hop
      rw [List.take_append_of_le_length (Nat.le_of_lt hn)]
      exact h n op' hop
    · rw [List.getElem?_append_right hn] at hop
      have hzero : n - ops.length = 0 := by
        have hlt := (List.getElem?_eq_some_iff.mp hop).1
        simpa using hlt
      rw [hzero] at hop
      cases Option.some.inj hop
      have hlen : n = ops.length := by omega
      rw [hlen, List.take_left]
      exact hlast

/-- The run in which a `next` is called before each of the other operations. -/
def peeked (s : PeekRun) (ops : List RingOp) : PeekRun :=
  runFrom (fun s op => (s.step .next).step op) s (skeleton ops)

theorem alike_snoc {t : PeekRun} {op : RingOp} (h : s.Good) (hs : ¬ s.Stumbles op)
    (halike : Alike s t) : Alike (s.step op) ((t.step .next).step op) := by
  rw [← halike.step_next]
  exact step_alike h hs

/-- Without stumbling a run sees what it would see with `next` called all the time. -/
theorem run_peeked (h : s.Good) {ops : List RingOp} (hs : s.Steady ops) :
    (s.run ops).Good ∧ Alike (s.run ops) (s.peeked ops) := by
  induction ops using List.reverseRecOn with
  | nil =>
    have hrun : s.run [] = s := rfl
    have hpeeked : s.peeked [] = s := rfl
    rw [hrun, hpeeked]
    exact ⟨h, .refl s⟩
  | append_singleton ops op ih =>
    obtain ⟨hpre, hlast⟩ := steady_snoc.mp hs
    obtain ⟨hgood, halike⟩ := ih hpre
    have hrun : s.run (ops ++ [op]) = (s.run ops).step op := Runs.snoc ops op
    rw [hrun]
    refine ⟨step_good hgood hlast, ?_⟩
    cases hop : op.isNext with
    | true =>
      have hnext : op = .next := by
        cases op with
        | next => rfl
        | _ => simp [RingOp.isNext] at hop
      have hskel : s.peeked (ops ++ [op]) = s.peeked ops := by simp [peeked, skeleton, hop]
      rw [hskel, hnext]
      exact ⟨(next_next hgood).trans halike.ring, halike.queue, halike.seen⟩
    | false =>
      have hskel : skeleton (ops ++ [op]) = skeleton ops ++ [op] := by simp [skeleton, hop]
      have hpeeked : s.peeked (ops ++ [op]) = ((s.peeked ops).step .next).step op := by
        rw [peeked, hskel, Runs.snoc]
        rfl
      rw [hpeeked]
      exact alike_snoc hgood hlast halike

theorem next_eq (h : s.Good) :
    s.ring.next.2 = if s.queue = [] then none else some (s.ring.next.1.readIdx + 8) := by
  rcases RingRun.next_cases h with ⟨hq, heq⟩ | ⟨rec, front, back, r, hq, -, -, heq⟩
  · simp only at hq heq
    simp [hq, heq]
  · simp only at hq heq
    simp [hq, heq]

theorem Alike.next {t : PeekRun} (h : Alike s t) (hs : s.Good) (ht : t.Good) :
    s.ring.next = t.ring.next := by
  apply Prod.ext h.ring
  rw [next_eq hs, next_eq ht, h.queue, h.ring]

/-- A pop that does not stumble removes the oldest record. -/
theorem pop_oldest (h : s.Good) (hs : ¬ s.Stumbles .pop) {rec : Record} {rest : List Record}
    (hq : s.queue = rec :: rest) :
    ∃ p, s.ring.destroyed = some p ∧ s.ring.data.load p rec.payload.length = rec.payload ∧
      s.ring.next.2 = some p ∧ (s.step .pop).queue = rest := by
  rcases good_cases h with ⟨hq', -⟩ | ⟨rec', front, back, hq', hlay, hnot⟩ | ⟨hwrap, -⟩
  · simp [hq] at hq'
  · obtain ⟨-, hdestroyed, hpayload⟩ := pop_front h hq' hlay
    rw [hq, List.cons_append] at hq'
    obtain ⟨hrec, -⟩ := List.cons.inj hq'
    subst hrec
    refine ⟨_, hdestroyed, hpayload, ?_, by simp [step, hq]⟩
    obtain ⟨-, hb, -, hr⟩ := h.bounds
    rw [next_eq h, Ring.next_of_not_atWrap hb hr hnot, if_neg (by simp [hq])]
  · exact absurd hwrap hs

/-- As long as no step is taken that stumbles over the wrap point, `next` may be called
or left out: pops remove the oldest record and all is seen alike. The steps that
stumble are exactly those that a `next` before them changes. -/
theorem next_pure_peek {size : Nat} (hpos : 1 ≤ size) (hb : size < 2 ^ 63) (reserved : Nat)
    (data : Memory UInt8) :
    (∀ ops, (start size reserved data).Steady (ops ++ [.pop]) →
      ∀ rec rest, ((start size reserved data).run ops).queue = rec :: rest →
        ∃ p, ((start size reserved data).run ops).ring.destroyed = some p ∧
          ((start size reserved data).run ops).ring.data.load p rec.payload.length = rec.payload ∧
          ((start size reserved data).run ops).ring.next.2 = some p ∧
          ((start size reserved data).run (ops ++ [.pop])).queue = rest) ∧
    (∀ ops ops', skeleton ops = skeleton ops' → (start size reserved data).Steady ops →
      (start size reserved data).Steady ops' →
        ((start size reserved data).run ops).seen = ((start size reserved data).run ops').seen ∧
        ((start size reserved data).run ops).queue = ((start size reserved data).run ops').queue ∧
        ((start size reserved data).run ops).ring.next = ((start size reserved data).run ops').ring.next) ∧
    (∀ ops op, (start size reserved data).Steady ops →
      (((start size reserved data).run (ops ++ [.next] ++ [op])).seen =
          ((start size reserved data).run (ops ++ [op])).seen ↔
        ¬ ((start size reserved data).run ops).Stumbles op)) := by
  have hstart : (start size reserved data).Good := good_start hpos hb
  have hsnoc : ∀ ops op, (start size reserved data).run (ops ++ [op]) =
      ((start size reserved data).run ops).step op := fun ops op => Runs.snoc ops op
  refine ⟨?_, ?_, ?_⟩
  · intro ops hs rec rest hq
    obtain ⟨hpre, hlast⟩ := steady_snoc.mp hs
    rw [hsnoc]
    exact pop_oldest (run_peeked hstart hpre).1 hlast hq
  · intro ops ops' hskel hs hs'
    obtain ⟨hgood, halike⟩ := run_peeked hstart hs
    obtain ⟨hgood', halike'⟩ := run_peeked hstart hs'
    have hsame : (start size reserved data).peeked ops = (start size reserved data).peeked ops' := by
      rw [peeked, peeked, hskel]
    rw [← hsame] at halike'
    have hboth : Alike ((start size reserved data).run ops) ((start size reserved data).run ops') :=
      ⟨halike.ring.trans halike'.ring.symm, halike.queue.trans halike'.queue.symm,
        halike.seen.trans halike'.seen.symm⟩
    exact ⟨hboth.seen, hboth.queue, hboth.next hgood hgood'⟩
  · intro ops op hs
    rw [hsnoc, hsnoc, hsnoc]
    exact seen_next_iff (run_peeked hstart hs).1 op

/-- Two records in a ring of 48 bytes, and a pop without a `next`. -/
theorem next_pure_peek_two :
    ∃ p, ((start 48 0 (fun _ => 0)).run
        [.push (RingRun.oneWord 1), .push (RingRun.oneWord 2)]).ring.destroyed = some p ∧
      ((start 48 0 (fun _ => 0)).run
        [.push (RingRun.oneWord 1), .push (RingRun.oneWord 2)]).ring.data.load p 8 =
          List.replicate 8 1 := by
  have hone : (start 48 0 (fun _ => 0)).Steady ([] ++ [.push (RingRun.oneWord 1)]) :=
    steady_snoc.mpr ⟨steady_nil _, by decide⟩
  have htwo : (start 48 0 (fun _ => 0)).Steady
      ([.push (RingRun.oneWord 1)] ++ [.push (RingRun.oneWord 2)]) :=
    steady_snoc.mpr ⟨hone, by decide⟩
  have hsteady : (start 48 0 (fun _ => 0)).Steady
      ([.push (RingRun.oneWord 1), .push (RingRun.oneWord 2)] ++ [.pop]) :=
    steady_snoc.mpr ⟨htwo, by decide⟩
  obtain ⟨p, hp, hload, -⟩ := (next_pure_peek (by decide) (by decide) 0 (fun _ => 0)).1 _ hsteady
    (RingRun.oneWord 1) [RingRun.oneWord 2] rfl
  exact ⟨p, hp, hload⟩

/-- In the same ring the third record goes round. The pop that comes after two others
removes it if `next` was called, and nothing otherwise. -/
theorem next_changes_pop :
    ¬ ∀ (size reserved : Nat) (data : Memory UInt8) (ops ops' : List RingOp), 1 ≤ size → size < 2 ^ 63 →
      skeleton ops = skeleton ops' →
        ((start size reserved data).run ops).seen = ((start size reserved data).run ops').seen := by
  intro h
  have hseen := h 48 0 (fun _ => 0)
    [.push (RingRun.oneWord 1), .push (RingRun.oneWord 2), .pop, .pop, .push (RingRun.oneWord 3), .pop]
    [.push (RingRun.oneWord 1), .push (RingRun.oneWord 2), .pop, .pop, .push (RingRun.oneWord 3),
      .next, .pop] (by decide) (by decide) rfl
  revert hseen
  decide

end PeekRun

end XiRuntime
