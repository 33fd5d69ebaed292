import XiRuntime.Http2Grammar

namespace XiRuntime

namespace Http2

/-- The bytes break off right behind the header of a padded frame, at a point
that one call of `decode` gets to. -/
inductive RunsIntoPadding : List UInt8 → Prop
  | here {inp : List UInt8} : parse inp = .stalled → RunsIntoPadding inp
  | later {inp : List UInt8} {b : Body} : parse inp = .frame b → b.loop = true →
      RunsIntoPadding b.rest → RunsIntoPadding inp

namespace Decoder

/-- The decoders that earlier calls of `decode` leave. -/
inductive Reached : Decoder → Prop
  | init : Reached init
  | decode {d d' : Decoder} {inp rest : List UInt8} {calls : List Call} :
      Reached d → Decodes d inp d' rest calls → Reached d'

/-- `d` wants a part of the preface that `inp` begins but does not finish. -/
def BreaksOffPreface (d : Decoder) (inp : List UInt8) : Prop :=
  inp <+: initiationString.drop d.length ∧ inp.length + d.length < connectionPrefaceLength

/-- The bytes give out where a handler asks to be run again without them. -/
def Stalls (d : Decoder) (inp : List UInt8) : Prop :=
  match d.state with
  | .readConnectionPreface => d.BreaksOffPreface inp
  | .readFrameHeader => RunsIntoPadding inp
  | _ => False

/-- A pass that asks for no other is the whole call. -/
theorem decodeFuel_of_stop {d : Decoder} {inp : List UInt8} (h : (d.pass inp).loop = false)
    (fuel : Nat) :
    decodeFuel (fuel + 1) d inp = some ((d.pass inp).dec, (d.pass inp).rest, (d.pass inp).calls) := by
  simp [decodeFuel, h]

theorem terminates_of_stop {d : Decoder} {inp : List UInt8} (h : (d.pass inp).loop = false) :
    d.Terminates inp := by
  refine ⟨1, ?_⟩
  rw [decodeFuel_of_stop h]
  rfl

theorem terminates_of_loop {d : Decoder} {inp : List UInt8} (h : (d.pass inp).loop = true) :
    d.Terminates inp ↔ (d.pass inp).dec.Terminates (d.pass inp).rest := by
  constructor
  · rintro ⟨fuel, hf⟩
    cases fuel with
    | zero => simp [decodeFuel] at hf
    | succ fuel =>
      refine ⟨fuel, ?_⟩
      cases hd : decodeFuel fuel (d.pass inp).dec (d.pass inp).rest with
      | none => simp [decodeFuel, h, hd] at hf
      | some out => rfl
  · rintro ⟨fuel, hf⟩
    obtain ⟨out, hd⟩ := Option.isSome_iff_exists.mp hf
    refine ⟨fuel + 1, ?_⟩
    simp [decodeFuel, h, hd]

theorem silent_terminates {d d' : Decoder} {inp inp' : List UInt8} (h : Silent d inp d' inp') :
    d.Terminates inp ↔ d'.Terminates inp' := by
  induction h with
  | refl => exact Iff.rfl
  | pass hloop _ _ ih => exact (terminates_of_loop hloop).trans ih

/-- A pass that changes nothing and asks for another one is repeated for ever. -/
theorem not_terminates_of_fixed {d : Decoder} {inp : List UInt8}
    (h : d.pass inp = ⟨d, inp, [], true⟩) : ¬ d.Terminates inp := by
  rintro ⟨fuel, hf⟩
  induction fuel with
  | zero => simp [decodeFuel] at hf
  | succ fuel ih =>
    apply ih
    cases hd : decodeFuel fuel d inp with
    | none => simp [decodeFuel, h, hd] at hf
    | some out => rfl

/-- Bytes of the preface that do not finish it only move the position. -/
theorem readConnectionPreface_matched {d : Decoder} {inp : List UInt8} (h : d.BreaksOffPreface inp)
    (t : List UInt8) :
    d.readConnectionPreface (inp ++ t) =
      ({ d with length := d.length + inp.length } : Decoder).readConnectionPreface t := by
  induction inp generalizing d with
  | nil => rfl
  | cons b rest ih =>
    obtain ⟨hp, hl⟩ := h
    simp only [List.length_cons] at hl
    have hlt : d.length < initiationString.length := by
      have : connectionPrefaceLength = initiationString.length := rfl
      omega
    rw [List.drop_eq_getElem_cons hlt, List.cons_prefix_cons] at hp
    obtain ⟨hb, hp⟩ := hp
    have hget : initiationString[d.length]? = some b := by
      rw [List.getElem?_eq_getElem hlt, hb]
    have hnot : ¬ d.length + 1 = connectionPrefaceLength := by omega
    have hnext : ({ d with length := d.length + 1 } : Decoder).BreaksOffPreface rest :=
      ⟨hp, by simp only; omega⟩
    rw [List.cons_append, readConnectionPreface]
    simp only [hget, ne_eq, not_true_eq_false, if_false, hnot, ih hnext, List.length_cons]
    rw [Nat.add_right_comm, Nat.add_assoc]

theorem readConnectionPreface_breaks {d : Decoder} {inp : List UInt8} (h : d.BreaksOffPreface inp) :
    d.readConnectionPreface inp = ⟨{ d with length := d.length + inp.length }, [], [], true⟩ := by
  have matched := readConnectionPreface_matched h []
  rwa [List.append_nil] at matched

theorem readConnectionPreface_stops {d : Decoder} {inp : List UInt8}
    (hd : d.length < connectionPrefaceLength) (h : ¬ d.BreaksOffPreface inp) :
    (d.readConnectionPreface inp).loop = false := by
  induction inp generalizing d with
  | nil => exact absurd ⟨List.nil_prefix, by simpa using hd⟩ h
  | cons b rest ih =>
    simp only [readConnectionPreface]
    split
    next => rfl
    next hb =>
      split
      next => rfl
      next hl =>
        apply ih
        · simp only at hl ⊢
          omega
        · rintro ⟨hp, hlen⟩
          apply h
          have hlt : d.length < initiationString.length := hd
          have hget : initiationString[d.length] = b := by
            rw [ne_eq, not_not, List.getElem?_eq_getElem hlt] at hb
            exact Option.some.inj hb
          refine ⟨?_, ?_⟩
          · rw [List.drop_eq_getElem_cons hlt, List.cons_prefix_cons]
            exact ⟨hget.symm, hp⟩
          · simp only [List.length_cons] at hlen ⊢
            omega

theorem terminates_preface_iff {d : Decoder} {inp : List UInt8}
    (hs : d.state = .readConnectionPreface) (hd : d.length < connectionPrefaceLength) :
    d.Terminates inp ↔ ¬ d.BreaksOffPreface inp := by
  constructor
  · intro ht hb
    have hpass : d.pass inp = ⟨{ d with length := d.length + inp.length }, [], [], true⟩ := by
      simp only [pass, hs, readConnectionPreface_breaks hb]
    rw [terminates_of_loop (by rw [hpass]), hpass] at ht
    refine not_terminates_of_fixed ?_ ht
    simp [pass, hs, readConnectionPreface]
  · intro hb
    apply terminates_of_stop
    simpa [pass, hs] using readConnectionPreface_stops hd hb

theorem terminates_header_iff {d : Decoder} {inp : List UInt8} (hs : d.state = .readFrameHeader) :
    d.Terminates inp ↔ ¬ RunsIntoPadding inp := by
  -- every frame takes its header off the buffer, so the buffer's length decreases
  induction hn : inp.length using Nat.strongRecOn generalizing d inp with
  | _ n ih =>
    cases hp : parse inp with
    | short =>
      refine iff_of_true (terminates_of_stop ?_) ?_
      · rw [pass_header_short hs hp]
      · rintro (h | ⟨h, -, -⟩) <;> simp [hp] at h
    | rejected e =>
      refine iff_of_true (terminates_of_stop (pass_header_rejected hs hp).1) ?_
      rintro (h | ⟨h, -, -⟩) <;> simp [hp] at h
    | stalled =>
      obtain ⟨d', hsil, hs'⟩ := silent_stalled hs hp
      refine iff_of_false ?_ (not_not.mpr (.here hp))
      rw [silent_terminates hsil]
      apply not_terminates_of_fixed
      simp [pass, hs', readFramePadding]
    | frame b =>
      obtain ⟨d', inp', hsil, hrest, hcalls, hloop, hstate⟩ := silent_frame hs hp
      have hlen := parse_frame_rest_length hp
      rw [silent_terminates hsil]
      by_cases hb : b.loop = true
      · rw [terminates_of_loop (hloop.trans hb), hrest,
          ih b.rest.length (by simp only [frameHeaderSize] at hlen; omega) hstate rfl]
        refine not_congr ⟨fun h => .later hp hb h, ?_⟩
        rintro (h | ⟨h, -, h'⟩)
        · simp [hp] at h
        · rw [hp] at h
          cases Parsed.frame.inj h
          exact h'
      · refine iff_of_true (terminates_of_stop (hloop.trans (by simpa using hb))) ?_
        rintro (h | ⟨h, h', -⟩)
        · simp [hp] at h
        · rw [hp] at h
          cases Parsed.frame.inj h
          exact hb h'

theorem readConnectionPreface_stop_state {d : Decoder} {inp : List UInt8}
    (h : (d.readConnectionPreface inp).loop = false) :
    (d.readConnectionPreface inp).dec.state = .readFrameHeader ∨
      (d.readConnectionPreface inp).dec.state = .connectionError := by
  fun_induction readConnectionPreface d inp with
  | case1 => simp at h
  | case2 => exact Or.inr rfl
  | case3 => exact Or.inl rfl
  | case4 d b rest _ _ _ ih => exact ih h

/-- The two states in which the loop can be left. -/
theorem pass_stop_state {d : Decoder} {inp : List UInt8} (h : (d.pass inp).loop = false) :
    (d.pass inp).dec.state = .readFrameHeader ∨ (d.pass inp).dec.state = .connectionError := by
  cases hs : d.state with
  | readConnectionPreface =>
    simp only [pass, hs] at h ⊢
    exact readConnectionPreface_stop_state h
  | readFrameHeader =>
    cases hp : parse inp with
    | short => exact Or.inl (by rw [pass_header_short hs hp, hs])
    | rejected e => exact Or.inr (pass_header_rejected hs hp).2.2.1
    | stalled =>
      obtain ⟨hl, hv⟩ := parse_accepted (Or.inl hp)
      simp [pass_header_accepted hs hl hv] at h
    | frame b =>
      obtain ⟨hl, hv⟩ := parse_accepted (Or.inr ⟨b, hp⟩)
      simp [pass_header_accepted hs hl hv] at h
  | readFramePadding => cases inp <;> simp [pass, hs, readFramePadding] at h
  | readDataFrame => simp [pass, hs, readDataFrame]
  | readSettingsFrame => simp [pass, hs]
  | connectionError => simp [pass, hs]
  | other b => simp [pass, hs] at h
  | _ => simp [pass, hs, skipFrame]

theorem decodeFuel_state {fuel : Nat} {d d' : Decoder} {inp rest : List UInt8} {calls : List Call}
    (h : decodeFuel fuel d inp = some (d', rest, calls)) :
    d'.state = .readFrameHeader ∨ d'.state = .connectionError := by
  induction fuel generalizing d inp calls with
  | zero => simp [decodeFuel] at h
  | succ fuel ih =>
    simp only [decodeFuel] at h
    split at h
    next hl =>
      obtain ⟨⟨d'', rest', calls'⟩, hd, ho⟩ := Option.bind_eq_some_iff.mp h
      cases Option.some.inj ho
      exact ih hd
    next hl =>
      cases Option.some.inj h
      exact pass_stop_state (by simpa using hl)

theorem reached_state {d : Decoder} (h : Reached d) :
    d = init ∨ d.state = .readFrameHeader ∨ d.state = .connectionError := by
  cases h with
  | init => exact Or.inl rfl
  | decode _ hd =>
    obtain ⟨fuel, hf⟩ := hd
    exact Or.inr (decodeFuel_state hf)

theorem decode_terminates_iff {d : Decoder} (hd : Reached d) (inp : List UInt8) :
    d.Terminates inp ↔ ¬ d.Stalls inp := by
  rcases reached_state hd with rfl | hs | hs
  · exact terminates_preface_iff rfl (by decide)
  · simp only [Stalls, hs]
    exact terminates_header_iff hs
  · simp only [Stalls, hs, not_false_eq_true, iff_true]
    apply terminates_of_stop
    simp [pass, hs]

theorem decode_terminates_iff_at_preface :
    Reached init ∧ init.Terminates initiationString := by
  refine ⟨.init, (decode_terminates_iff .init initiationString).mpr ?_⟩
  intro h
  exact absurd h.2 (by decide)

/-- The decoder behind the preface. -/
def opened : Decoder := { init with length := connectionPrefaceLength, state := .readFrameHeader }

theorem reached_opened : Reached opened := by
  have h : Decodes init initiationString opened [] [] := ⟨1, by decide⟩
  exact .decode .init h

/-- Neither a fresh decoder on an empty buffer nor one behind the preface, on
the header of a padded DATA frame alone, ever returns. -/
theorem decode_not_terminates_on_partial_input :
    (Reached init ∧ ¬ init.Terminates []) ∧
      (Reached opened ∧ ¬ opened.Terminates [0, 0, 1, 0, 8, 0, 0, 0, 1]) := by
  refine ⟨⟨.init, ?_⟩, reached_opened, ?_⟩
  · exact not_terminates_of_fixed rfl
  · rw [terminates_header_iff rfl, not_not]
    exact .here (by decide)

end Decoder

end Http2

end XiRuntime
