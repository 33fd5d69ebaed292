import XiRuntime.Http2Termination
import XiRuntime.Runs

namespace XiRuntime

namespace Http2

/-- There are bytes behind the place where one call of `decode` returns: a part of a header,
or what follows a frame after which the loop is left. -/
inductive BreaksOff : List UInt8 → Prop
  | header {inp : List UInt8} : parse inp = .short → inp ≠ [] → BreaksOff inp
  | stop {inp : List UInt8} {b : Body} : parse inp = .frame b → b.loop = false → b.rest ≠ [] →
      BreaksOff inp
  | later {inp : List UInt8} {b : Body} : parse inp = .frame b → b.loop = true → BreaksOff b.rest →
      BreaksOff inp

theorem breaksOff_iff (inp : List UInt8) :
    BreaksOff inp ↔ (parse inp = .short ∧ inp ≠ []) ∨
      ∃ b, parse inp = .frame b ∧ (b.loop = false ∧ b.rest ≠ [] ∨ b.loop = true ∧ BreaksOff b.rest) := by
  constructor
  · rintro (⟨hp, hne⟩ | ⟨hp, stop, hne⟩ | ⟨hp, loop, later⟩)
    · exact .inl ⟨hp, hne⟩
    · exact .inr ⟨_, hp, .inl ⟨stop, hne⟩⟩
    · exact .inr ⟨_, hp, .inr ⟨loop, later⟩⟩
  · rintro (⟨hp, hne⟩ | ⟨b, hp, ⟨stop, hne⟩ | ⟨loop, later⟩⟩)
    · exact .header hp hne
    · exact .stop hp stop hne
    · exact .later hp loop later

theorem settingsLoop_suffix (length : Nat) (inp : List UInt8) :
    (settingsLoop length inp).rest <:+ inp := by
  have six : ∀ (i₁ i₀ v₃ v₂ v₁ v₀ : UInt8) (rest : List UInt8),
      rest <:+ i₁ :: i₀ :: v₃ :: v₂ :: v₁ :: v₀ :: rest :=
    fun i₁ i₀ v₃ v₂ v₁ v₀ rest => ⟨[i₁, i₀, v₃, v₂, v₁, v₀], rfl⟩
  fun_induction settingsLoop length inp with
  | case1 => exact List.suffix_rfl
  | case2 length i₁ i₀ v₃ v₂ v₁ v₀ rest _ _ _ ih => exact ih.trans (six i₁ i₀ v₃ v₂ v₁ v₀ rest)
  | case3 length i₁ i₀ v₃ v₂ v₁ v₀ rest _ _ _ _ e _ => exact six i₁ i₀ v₃ v₂ v₁ v₀ rest
  | case4 length i₁ i₀ v₃ v₂ v₁ v₀ rest _ _ _ _ _ more ih =>
    exact ih.trans (six i₁ i₀ v₃ v₂ v₁ v₀ rest)
  | case5 => exact List.suffix_rfl

namespace Decoder

theorem readConnectionPreface_suffix (d : Decoder) (inp : List UInt8) :
    (d.readConnectionPreface inp).rest <:+ inp := by
  fun_induction readConnectionPreface d inp with
  | case1 => exact List.suffix_rfl
  | case2 => exact List.suffix_cons _ _
  | case3 => exact List.suffix_cons _ _
  | case4 d b rest _ _ _ ih => exact ih.trans (List.suffix_cons _ _)

theorem readFrameHeader_suffix (d : Decoder) (inp : List UInt8) :
    (d.readFrameHeader inp).rest <:+ inp := by
  by_cases hl : inp.length < frameHeaderSize
  · simp [readFrameHeader, hl]
  · rw [readFrameHeader_eq hl]
    split
    · exact List.drop_suffix _ _
    · exact List.drop_suffix _ _

theorem readSettingsFrame_suffix (d : Decoder) (inp : List UInt8) :
    (d.readSettingsFrame inp).rest <:+ inp := by
  have entries := settingsLoop_suffix d.length inp
  unfold readSettingsFrame
  by_cases h0 : d.length = 0
  · simp [h0]
  by_cases ha : d.hasFlag .ack = true
  · simp [h0, ha, transitionToError]
  by_cases h6 : d.length % 6 = 0
  · by_cases hs : d.streamId = 0
    · cases he : (settingsLoop d.length inp).error <;>
        simpa [h0, ha, h6, hs, he, transitionToError] using entries
    · simp [h0, ha, h6, hs, transitionToError]
  · simp [h0, ha, h6, transitionToError]

/-- A pass takes bytes off the front of the buffer. -/
theorem pass_suffix (d : Decoder) (inp : List UInt8) : (d.pass inp).rest <:+ inp := by
  cases hs : d.state with
  | readConnectionPreface => simpa [pass, hs] using readConnectionPreface_suffix d inp
  | readFrameHeader => simpa [pass, hs] using readFrameHeader_suffix d inp
  | readFramePadding =>
    cases inp with
    | nil => simp [pass, hs, readFramePadding]
    | cons p rest => simp [pass, hs, readFramePadding]
  | readDataFrame => simpa [pass, hs, readDataFrame] using List.drop_suffix d.length inp
  | readSettingsFrame => simpa [pass, hs] using readSettingsFrame_suffix d inp
  | connectionError => simp [pass, hs]
  | other b => simp [pass, hs]
  | _ => simpa [pass, hs, skipFrame] using List.drop_suffix d.length inp

/-- The decoder returns from these bytes before it has read them all. -/
def LeavesUnread (d : Decoder) (inp : List UInt8) : Prop :=
  match d.state with
  | .readConnectionPreface => ∃ t, t ≠ [] ∧ inp = initiationString.drop d.length ++ t
  | .readFrameHeader => BreaksOff inp
  | _ => False

/-- When `decode` returns, nothing is left or nothing more is read. -/
def Exhausts (d : Decoder) (inp : List UInt8) : Prop :=
  ∀ d' rest calls, Decodes d inp d' rest calls → d'.state = .connectionError ∨ rest = []

theorem decodes_of_stop {d d' : Decoder} {inp rest : List UInt8} {calls : List Call}
    (h : (d.pass inp).loop = false) :
    Decodes d inp d' rest calls ↔
      d' = (d.pass inp).dec ∧ rest = (d.pass inp).rest ∧ calls = (d.pass inp).calls := by
  constructor
  · rintro ⟨fuel, hf⟩
    cases fuel with
    | zero => simp [decodeFuel] at hf
    | succ fuel =>
      simp only [decodeFuel_of_stop h, Option.some.injEq, Prod.mk.injEq] at hf
      exact ⟨hf.1.symm, hf.2.1.symm, hf.2.2.symm⟩
  · rintro ⟨rfl, rfl, rfl⟩
    exact ⟨1, decodeFuel_of_stop h 0⟩

theorem decodes_of_loop {d d' : Decoder} {inp rest : List UInt8} {calls : List Call}
    (h : (d.pass inp).loop = true) :
    Decodes d inp d' rest calls ↔
      ∃ later, Decodes (d.pass inp).dec (d.pass inp).rest d' rest later ∧
        calls = (d.pass inp).calls ++ later := by
  constructor
  · rintro ⟨fuel, hf⟩
    cases fuel with
    | zero => simp [decodeFuel] at hf
    | succ fuel =>
      simp only [decodeFuel, h, if_true] at hf
      obtain ⟨⟨d'', rest', later⟩, hd, ho⟩ := Option.bind_eq_some_iff.mp hf
      cases Option.some.inj ho
      exact ⟨later, ⟨fuel, hd⟩, rfl⟩
  · rintro ⟨later, ⟨fuel, hf⟩, rfl⟩
    exact ⟨fuel + 1, by simp [decodeFuel, h, hf]⟩

theorem exhausts_of_stop {d : Decoder} {inp : List UInt8} (h : (d.pass inp).loop = false) :
    d.Exhausts inp ↔ (d.pass inp).dec.state = .connectionError ∨ (d.pass inp).rest = [] := by
  constructor
  · intro he
    exact he _ _ _ ((decodes_of_stop h).mpr ⟨rfl, rfl, rfl⟩)
  · intro he d' rest calls hd
    obtain ⟨rfl, rfl, -⟩ := (decodes_of_stop h).mp hd
    exact he

theorem exhausts_of_loop {d : Decoder} {inp : List UInt8} (h : (d.pass inp).loop = true) :
    d.Exhausts inp ↔ (d.pass inp).dec.Exhausts (d.pass inp).rest := by
  constructor
  · intro he d' rest calls hd
    exact he _ _ _ ((decodes_of_loop h).mpr ⟨calls, hd, rfl⟩)
  · intro he d' rest calls hd
    obtain ⟨later, hl, -⟩ := (decodes_of_loop h).mp hd
    exact he _ _ _ hl

theorem silent_exhausts {d d' : Decoder} {inp inp' : List UInt8} (h : Silent d inp d' inp') :
    d.Exhausts inp ↔ d'.Exhausts inp' := by
  induction h with
  | refl => exact Iff.rfl
  | pass hloop _ _ ih => exact (exhausts_of_loop hloop).trans ih

theorem exhausts_of_not_terminates {d : Decoder} {inp : List UInt8} (h : ¬ d.Terminates inp) :
    d.Exhausts inp := by
  rintro d' rest calls ⟨fuel, hf⟩
  exact absurd ⟨fuel, by rw [hf]; rfl⟩ h

theorem exhausts_header_iff {d : Decoder} {inp : List UInt8} (hs : d.state = .readFrameHeader) :
    d.Exhausts inp ↔ ¬ BreaksOff inp := by
  -- as for termination, the length of the buffer decreases with each frame
  induction hn : inp.length using Nat.strongRecOn generalizing d inp with
  | _ n ih =>
    rw [breaksOff_iff]
    cases hp : parse inp with
    | short =>
      have hpass := pass_header_short hs hp
      rw [exhausts_of_stop (by rw [hpass]), hpass]
      simp [hs]
    | rejected e =>
      obtain ⟨hloop, -, hstate, -⟩ := pass_header_rejected hs hp
      rw [exhausts_of_stop hloop]
      simp [hstate]
    | stalled =>
      have hangs : ¬ d.Terminates inp := by
        rw [terminates_header_iff hs, not_not]
        exact .here hp
      simp [exhausts_of_not_terminates hangs]
    | frame b =>
      obtain ⟨d', inp', hsil, hrest, -, hloop, hstate⟩ := silent_frame hs hp
      have hlen := parse_frame_rest_length hp
      rw [silent_exhausts hsil]
      by_cases hb : b.loop = true
      · rw [exhausts_of_loop (hloop.trans hb), hrest,
          ih b.rest.length (by simp only [frameHeaderSize] at hlen; omega) hstate rfl]
        simp [hb]
      · have stop : b.loop = false := by simpa using hb
        rw [exhausts_of_stop (hloop.trans stop), hrest]
        simp [hstate, stop]

/-- The bytes that complete the preface, and those behind it. -/
theorem readConnectionPreface_complete {d : Decoder} (hd : d.length < connectionPrefaceLength)
    (t : List UInt8) :
    d.readConnectionPreface (initiationString.drop d.length ++ t) =
      ⟨{ d with length := connectionPrefaceLength, state := .readFrameHeader }, t, [], false⟩ := by
  have enough : d.length + 1 ≤ connectionPrefaceLength := hd
  have last : initiationString.drop (connectionPrefaceLength - 1) = [10] := by decide
  have split : initiationString.drop d.length =
      (initiationString.drop d.length).take (connectionPrefaceLength - 1 - d.length) ++ [10] := by
    conv => lhs; rw [← List.take_append_drop (connectionPrefaceLength - 1 - d.length)
      (initiationString.drop d.length)]
    rw [List.drop_drop, ← last]
    congr 2
    omega
  have length : ((initiationString.drop d.length).take
      (connectionPrefaceLength - 1 - d.length)).length = connectionPrefaceLength - 1 - d.length := by
    rw [List.length_take, List.length_drop]
    exact Nat.min_eq_left (Nat.sub_le_sub_right (Nat.sub_le _ _) _)
  have breaks : d.BreaksOffPreface
      ((initiationString.drop d.length).take (connectionPrefaceLength - 1 - d.length)) :=
    ⟨List.take_prefix _ _, by rw [length]; omega⟩
  rw [split, List.append_assoc, readConnectionPreface_matched breaks, length,
    Nat.add_sub_cancel' (by omega)]
  rfl

theorem readConnectionPreface_stopped {d : Decoder} {inp : List UInt8}
    (hd : d.length < connectionPrefaceLength) (h : (d.readConnectionPreface inp).loop = false) :
    (d.readConnectionPreface inp).dec.state = .connectionError ∨
      inp = initiationString.drop d.length ++ (d.readConnectionPreface inp).rest := by
  induction inp generalizing d with
  | nil => simp [readConnectionPreface] at h
  | cons b rest ih =>
    have hlt : d.length < initiationString.length := hd
    simp only [readConnectionPreface] at h ⊢
    by_cases hb : initiationString[d.length]? = some b
    · have here : b = initiationString[d.length] := by
        rw [List.getElem?_eq_getElem hlt] at hb
        exact (Option.some.inj hb).symm
      simp only [hb, ne_eq, not_true_eq_false, if_false] at h ⊢
      rw [List.drop_eq_getElem_cons hlt, List.cons_append, ← here]
      by_cases last : d.length + 1 = connectionPrefaceLength
      · have nothing : initiationString.drop (d.length + 1) = [] :=
          List.drop_eq_nil_of_le (Nat.le_of_eq last.symm)
        rw [if_pos last, nothing, List.nil_append]
        exact .inr rfl
      · rw [if_neg last] at h ⊢
        have next : d.length + 1 < connectionPrefaceLength := by omega
        rcases ih (d := { d with length := d.length + 1 }) next h with failed | more
        · exact .inl failed
        · exact .inr (congrArg (b :: ·) more)
    · simp only [ne_eq, hb, not_false_eq_true, if_true]
      exact .inl rfl

theorem exhausts_preface_iff {d : Decoder} {inp : List UInt8}
    (hs : d.state = .readConnectionPreface) (hd : d.length < connectionPrefaceLength) :
    d.Exhausts inp ↔ ¬ ∃ t, t ≠ [] ∧ inp = initiationString.drop d.length ++ t := by
  have hpass : d.pass inp = d.readConnectionPreface inp := by simp only [pass, hs]
  constructor
  · rintro he ⟨t, ht, rfl⟩
    have complete := readConnectionPreface_complete hd t
    rw [exhausts_of_stop (by rw [hpass, complete]), hpass, complete] at he
    simp [ht] at he
  · intro hno
    by_cases hloop : (d.pass inp).loop = true
    · apply exhausts_of_not_terminates
      rw [terminates_preface_iff hs hd, not_not]
      by_contra hb
      rw [hpass, readConnectionPreface_stops hd hb] at hloop
      cases hloop
    · rw [Bool.not_eq_true] at hloop
      rw [exhausts_of_stop hloop, hpass]
      rw [hpass] at hloop
      rcases readConnectionPreface_stopped hd hloop with failed | behind
      · exact .inl failed
      · refine .inr ?_
        by_contra hne
        exact hno ⟨_, hne, behind⟩

/-- The decoders that `decode` can be called on. -/
def Idle (d : Decoder) : Prop := d = init ∨ d.state = .readFrameHeader ∨ d.state = .connectionError

theorem exhausts_iff {d : Decoder} (hd : d.Idle) (inp : List UInt8) :
    d.Exhausts inp ↔ ¬ d.LeavesUnread inp := by
  rcases hd with rfl | hs | hs
  · exact exhausts_preface_iff rfl (by decide)
  · simp only [LeavesUnread, hs]
    exact exhausts_header_iff hs
  · simp only [LeavesUnread, hs, not_false_eq_true, iff_true]
    rw [exhausts_of_stop (by simp [pass, hs])]
    simp [pass, hs]

end Decoder

/-- A codec in use: the buffer of the current `read`, which is gone when that returns, whether
the decoder still loops over it, the bytes of all buffers so far and those the decoder took. -/
structure Codec where
  dec : Decoder
  inp : List UInt8
  reading : Bool
  received : List UInt8
  consumed : List UInt8

inductive Codec.Action
  | read (inp : List UInt8)
  | iterate
deriving DecidableEq, Repr

namespace Codec

def start : Codec := ⟨.init, [], false, [], []⟩

/-- `read` comes in between two reads and hands its buffer to `decode`, a pass of whose loop
is one step. -/
def step (s : Codec) : Action → Codec
  | .read inp =>
    if s.reading then s
    else { s with inp := inp, reading := true, received := s.received ++ inp }
  | .iterate =>
    if s.reading then
      let p := s.dec.pass s.inp
      { s with
        dec := p.dec
        inp := p.rest
        reading := p.loop
        consumed := s.consumed ++ s.inp.take (s.inp.length - p.rest.length) }
    else s

def run (acts : List Action) : Codec := runFrom step start acts

/-- The decoder got the bytes as they came in. -/
def InOrder (s : Codec) : Prop := s.consumed <+: s.received

/-- The next step is a read of a buffer of which the decoder leaves a part. -/
def Drops (s : Codec) (a : Action) : Prop :=
  ∃ inp, a = .read inp ∧ s.reading = false ∧ s.dec.LeavesUnread inp

/-- All bytes so far were taken or are at hand, or no more are taken. -/
def Held (s : Codec) : Prop :=
  s.consumed ++ s.inp = s.received ∨ s.dec.state = .connectionError ∧ s.InOrder

/-- Nothing is at hand between two reads, and the current one will leave nothing. -/
def Whole (s : Codec) : Prop :=
  if s.reading then s.dec.Exhausts s.inp
  else s.dec.Idle ∧ (s.dec.state = .connectionError ∨ s.inp = [])

theorem Held.inOrder {s : Codec} (h : s.Held) : s.InOrder := by
  rcases h with h | ⟨-, h⟩
  · exact ⟨s.inp, h⟩
  · exact h

theorem step_read {s : Codec} (h : s.reading = false) (inp : List UInt8) :
    s.step (.read inp) = { s with inp := inp, reading := true, received := s.received ++ inp } := by
  simp [step, h]

theorem step_iterate {s : Codec} (h : s.reading = true) :
    s.step .iterate = { s with
      dec := (s.dec.pass s.inp).dec
      inp := (s.dec.pass s.inp).rest
      reading := (s.dec.pass s.inp).loop
      consumed := s.consumed ++ s.inp.take (s.inp.length - (s.dec.pass s.inp).rest.length) } := by
  simp [step, h]

theorem Held.iterate {s : Codec} (h : s.Held) : (s.step .iterate).Held := by
  by_cases hr : s.reading = true
  · rw [step_iterate hr]
    rcases h with h | ⟨hs, h⟩
    · left
      have taken := List.suffix_iff_eq_append.mp (s.dec.pass_suffix s.inp)
      show s.consumed ++ s.inp.take _ ++ (s.dec.pass s.inp).rest = s.received
      rw [List.append_assoc, taken, h]
    · right
      have hpass : s.dec.pass s.inp = ⟨s.dec, s.inp, [], false⟩ := by simp [Decoder.pass, hs]
      simp only [hpass, InOrder]
      exact ⟨hs, by simpa [InOrder] using h⟩
  · have same : s.step .iterate = s := by simp [step, hr]
    rw [same]
    exact h

theorem Held.read {s : Codec} (h : s.Held) (hw : s.Whole) (inp : List UInt8) :
    (s.step (.read inp)).Held := by
  by_cases hr : s.reading = true
  · have same : s.step (.read inp) = s := by simp [step, hr]
    rw [same]
    exact h
  · rw [Whole, if_neg hr] at hw
    rw [step_read (by simpa using hr)]
    by_cases hs : s.dec.state = .connectionError
    · exact .inr ⟨hs, h.inOrder.trans (List.prefix_append _ _)⟩
    · left
      have nothing : s.inp = [] := hw.2.resolve_left hs
      have all : s.consumed ++ s.inp = s.received := h.resolve_right (fun failed => hs failed.1)
      rw [nothing, List.append_nil] at all
      show s.consumed ++ inp = s.received ++ inp
      rw [all]

theorem Whole.step {s : Codec} (hw : s.Whole) {a : Action} (hk : ¬ s.Drops a) : (s.step a).Whole := by
  unfold Codec.step Whole at *
  cases a with
  | read inp =>
    by_cases hr : s.reading = true
    · simpa [hr] using hw
    · simp only [hr, Bool.false_eq_true, if_false, if_true] at hw ⊢
      rw [Decoder.exhausts_iff hw.1]
      exact fun leaves => hk ⟨inp, rfl, by simpa using hr, leaves⟩
  | iterate =>
    by_cases hr : s.reading = true
    · simp only [hr, if_true] at hw ⊢
      split
      next hloop => exact (Decoder.exhausts_of_loop hloop).mp hw
      next hloop =>
        have stop : (s.dec.pass s.inp).loop = false := by simpa using hloop
        exact ⟨.inr (Decoder.pass_stop_state stop), (Decoder.exhausts_of_stop stop).mp hw⟩
    · simpa [hr] using hw

theorem Held.step {s : Codec} (h : s.Held) (hw : s.Whole) (a : Action) : (s.step a).Held := by
  cases a with
  | read inp => exact h.read hw inp
  | iterate => exact h.iterate

theorem held_run {acts : List Action} (kept : ∀ n a, acts[n]? = some a → ¬ (run (acts.take n)).Drops a)
    (n : Nat) : (run (acts.take n)).Held ∧ (run (acts.take n)).Whole := by
  refine Runs.invariant (P := fun s : Codec => s.Held ∧ s.Whole) ?_ ?_ n
  · refine ⟨.inl rfl, ?_⟩
    simp only [Whole, start, Bool.false_eq_true, if_false]
    exact ⟨.inl rfl, .inr trivial⟩
  · intro n a ha ⟨held, whole⟩
    exact ⟨held.step whole a, whole.step (kept n a ha)⟩

def iterates (s : Codec) (k : Nat) : Codec := runFrom step s (List.replicate k .iterate)

theorem iterates_succ (s : Codec) (k : Nat) : s.iterates (k + 1) = (s.step .iterate).iterates k := rfl

theorem Held.iterates {s : Codec} (h : s.Held) (k : Nat) : (s.iterates k).Held := by
  induction k generalizing s with
  | zero => exact h
  | succ k ih => exact ih h.iterate

theorem Whole.iterates {s : Codec} (h : s.Whole) (k : Nat) : (s.iterates k).Whole := by
  induction k generalizing s with
  | zero => exact h
  | succ k ih => exact ih (h.step (by rintro ⟨inp, read, -⟩; cases read))

/-- The steps of a call that returns. -/
theorem iterates_decode {fuel : Nat} {s : Codec} (hr : s.reading = true) {d : Decoder}
    {rest : List UInt8} {calls : List Call}
    (h : Decoder.decodeFuel fuel s.dec s.inp = some (d, rest, calls)) :
    ∃ k, (s.iterates k).reading = false ∧ (s.iterates k).dec = d ∧ (s.iterates k).inp = rest := by
  induction fuel generalizing s calls with
  | zero => cases h
  | succ fuel ih =>
    have next := step_iterate hr
    simp only [Decoder.decodeFuel] at h
    split at h
    next hloop =>
      obtain ⟨⟨d', rest', calls'⟩, hd, ho⟩ := Option.bind_eq_some_iff.mp h
      cases Option.some.inj ho
      obtain ⟨k, done⟩ := ih (s := s.step .iterate) (by rw [next]; exact hloop) (by rw [next]; exact hd)
      exact ⟨k + 1, done⟩
    next hloop =>
      cases Option.some.inj h
      have stop : (s.dec.pass s.inp).loop = false := by simpa using hloop
      refine ⟨1, ?_⟩
      rw [iterates_succ, next]
      exact ⟨stop, rfl, rfl⟩

/-- Bytes are left in the buffer, and a header that begins with another byte takes their
place. -/
theorem not_inOrder_of_unread {s : Codec} (held : s.Held) (idle : s.reading = false)
    (hs : s.dec.state = .readFrameHeader) (unread : s.inp ≠ []) :
    ∃ next, ¬ ((s.step (.read next)).iterates 1).InOrder := by
  obtain ⟨b, rest, hb⟩ := List.exists_cons_of_ne_nil unread
  obtain ⟨c, hc⟩ : ∃ c : UInt8, c ≠ b := by
    by_cases zero : b = 0
    · exact ⟨1, by rw [zero]; decide⟩
    · exact ⟨0, Ne.symm zero⟩
  let next : List UInt8 := List.replicate frameHeaderSize c
  have all : s.consumed ++ s.inp = s.received :=
    held.resolve_right (fun failed => by rw [hs] at failed; cases failed.1)
  have taken : (s.dec.pass next).rest = [] := by
    have long : ¬ next.length < frameHeaderSize := by simp [next]
    simp only [Decoder.pass, hs, Decoder.readFrameHeader_eq long]
    split
    · simp [Decoder.transitionToError, next]
    · simp [next]
  refine ⟨next, ?_⟩
  rw [iterates_succ, step_read idle, step_iterate rfl]
  simp only [taken, List.length_nil, Nat.sub_zero, List.take_length, ← all]
  show ¬ s.consumed ++ next <+: s.consumed ++ s.inp ++ next
  rw [List.append_assoc, List.prefix_append_right_inj, hb]
  intro same
  exact hc (List.cons_prefix_cons.mp same).1

/-- The decoder gets the bytes in order as long as no read leaves bytes in its buffer, and
after one that does there is a read that breaks the order. -/
theorem codec_in_order_iff (acts : List Action)
    (kept : ∀ n a, acts[n]? = some a → ¬ (run (acts.take n)).Drops a) :
    (∀ n, (run (acts.take n)).InOrder) ∧
      ((run acts).reading = false → ∀ inp,
        (∀ k next m, (run (acts ++ .read inp :: (List.replicate k .iterate ++
          .read next :: List.replicate m .iterate))).InOrder) ↔
            ¬ (run acts).dec.LeavesUnread inp) := by
  refine ⟨fun n => (held_run kept n).1.inOrder, ?_⟩
  intro idle inp
  obtain ⟨held, whole⟩ := held_run kept acts.length
  rw [List.take_length] at held whole
  have unfolded : ∀ k next m, run (acts ++ .read inp :: (List.replicate k .iterate ++
      .read next :: List.replicate m .iterate)) =
        (((((run acts).step (.read inp)).iterates k).step (.read next)).iterates m) := by
    intro k next m
    simp only [run, iterates, runFrom, List.foldl_append, List.foldl_cons]
  simp only [unfolded]
  constructor
  · intro inOrder leaves
    have idler : (run acts).dec.Idle := by
      rw [Whole, if_neg (by simp [idle])] at whole
      exact whole.1
    have short : ¬ (run acts).dec.Exhausts inp := by
      rw [Decoder.exhausts_iff idler, not_not]
      exact leaves
    unfold Decoder.Exhausts at short
    push Not at short
    obtain ⟨d, rest, calls, ⟨fuel, returns⟩, alive, unread⟩ := short
    have begun : ((run acts).step (.read inp)).reading = true := by rw [step_read idle]
    obtain ⟨k, done, rfl, rfl⟩ := iterates_decode begun (by rw [step_read idle]; exact returns)
    have state := (Decoder.decodeFuel_state returns).resolve_right alive
    obtain ⟨next, broken⟩ := not_inOrder_of_unread ((held.read whole inp).iterates k) done state unread
    exact broken (inOrder k next 1)
  · intro keeps k next m
    have first : ¬ (run acts).Drops (.read inp) := by
      rintro ⟨inp', read, -, leaves⟩
      cases read
      exact keeps leaves
    have reads := (held.read whole inp).iterates k
    have exhausts := (whole.step first).iterates k
    exact ((reads.read exhausts next).iterates m).inOrder

/-- The SETTINGS frame with which a client follows up its preface. -/
def emptySettings : List UInt8 := [0, 0, 0, 4, 0, 0, 0, 0, 0]

/-- The preface comes in a buffer of its own. -/
theorem codec_in_order_apart :
    (run [.read Decoder.initiationString, .iterate, .read emptySettings, .iterate, .iterate]).InOrder ∧
      (run [.read Decoder.initiationString, .iterate, .read emptySettings, .iterate,
        .iterate]).consumed = Decoder.initiationString ++ emptySettings := by
  have kept : ∀ n a,
      [Action.read Decoder.initiationString, .iterate, .read emptySettings, .iterate,
        .iterate][n]? = some a →
      ¬ (run ([Action.read Decoder.initiationString, .iterate, .read emptySettings, .iterate,
        .iterate].take n)).Drops a := by
    rintro n a taken ⟨inp, rfl, -, leaves⟩
    rcases n with _ | _ | _ | _ | _ | n
    · cases taken
      obtain ⟨t, ht, same⟩ : ∃ t, t ≠ [] ∧ Decoder.initiationString =
          Decoder.initiationString.drop 0 ++ t := leaves
      rw [List.drop_zero, List.self_eq_append_right] at same
      exact ht same
    · cases taken
    · cases taken
      have last : parse emptySettings = .frame ⟨[], [], false, true⟩ := by decide
      have breaks : BreaksOff emptySettings := leaves
      rw [breaksOff_iff, last] at breaks
      simp at breaks
    · cases taken
    · cases taken
    · simp at taken
  exact ⟨(codec_in_order_iff _ kept).1 5, by decide +kernel⟩

/-- The SETTINGS frame comes in one buffer with the preface, and the decoder goes on with the
acknowledgement that follows. -/
theorem codec_loses_settings :
    ¬ (run [.read (Decoder.initiationString ++ emptySettings), .iterate,
      .read [0, 0, 0, 4, 1, 0, 0, 0, 0], .iterate]).InOrder := by
  unfold InOrder
  decide +kernel

end Codec

end Http2

end XiRuntime
