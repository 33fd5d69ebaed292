import XiRuntime.Http2Grammar

namespace XiRuntime

namespace Http2

namespace Decoder

/-- The passes of the loop in `decode`, each on what the one before has left. -/
def nthPass (d : Decoder) (inp : List UInt8) : Nat → Pass
  | 0 => d.pass inp
  | k + 1 => (d.nthPass inp k).dec.pass (d.nthPass inp k).rest

/-- The padding length is taken off a `_length` that has it, and a frame that is there
as a whole is taken from the buffer by the passes over its header, padding and payload. -/
structure LengthKept (d : Decoder) (inp : List UInt8) : Prop where
  decrement : (d.nthPass inp 0).rest ≠ [] → 1 ≤ (d.nthPass inp 0).dec.length
  consumed : frameHeaderSize + (headerOf inp).length ≤ inp.length →
    (d.nthPass inp 0).loop = true ∧ (d.nthPass inp 1).loop = true ∧
      (d.nthPass inp 2).dec.state = .readFrameHeader ∧
      (d.nthPass inp 2).rest = inp.drop (frameHeaderSize + (headerOf inp).length)

variable {d : Decoder} {inp : List UInt8}

theorem rest_eq_drop {p : UInt8} {payload : List UInt8} (hd : inp.drop frameHeaderSize = p :: payload) :
    payload = inp.drop (frameHeaderSize + 1) := by
  rw [← List.drop_drop, hd, List.drop_one, List.tail_cons]

section Padded

variable (hs : d.state = .readFrameHeader) (hl : ¬ inp.length < frameHeaderSize)
  (hv : (headerOf inp).validate = .noError) (hp : (headerOf inp).hasFlag .padded = true)
include hs hl hv hp

theorem nthPass_header : d.nthPass inp 0 =
    ⟨{ d with toFrameHeader := headerOf inp, state := .readFramePadding }, inp.drop frameHeaderSize, [], true⟩ := by
  rw [nthPass, pass_header_accepted hs hl hv, if_pos hp]

/-- Without a byte behind the header the decoder does not get on. -/
theorem nthPass_stalled (hd : inp.drop frameHeaderSize = []) :
    (d.nthPass inp 2).dec.state = .readFramePadding := by
  have header := nthPass_header hs hl hv hp
  have padding : d.nthPass inp 1 = d.nthPass inp 0 := by
    change (d.nthPass inp 0).dec.pass (d.nthPass inp 0).rest = d.nthPass inp 0
    rw [header, hd]
    rfl
  rw [nthPass, padding, header, hd]
  rfl

theorem nthPass_padding {p : UInt8} {payload : List UInt8} (hd : inp.drop frameHeaderSize = p :: payload) :
    d.nthPass inp 1 = ⟨{ d with
      toFrameHeader := (headerOf inp).unpad, padding := p, state := (headerOf inp).type.state },
      payload, [], true⟩ := by
  rw [nthPass, nthPass_header hs hl hv hp, hd]
  rfl

theorem nthPass_payload {p : UInt8} {payload : List UInt8} (hd : inp.drop frameHeaderSize = p :: payload) :
    (d.nthPass inp 2).dec.state = .readFrameHeader ∧
      (d.nthPass inp 2).rest = (body (headerOf inp).unpad payload).rest := by
  have known := validate_known hv
  rw [nthPass, nthPass_padding hs hl hv hp hd]
  let d' : Decoder := ⟨(headerOf inp).unpad, (headerOf inp).type.state, p⟩
  obtain ⟨rest, -, -, state⟩ := @pass_body d' payload rfl known
  exact ⟨state, rest⟩

theorem nthPass_looping : (d.nthPass inp 0).loop = true ∧ (d.nthPass inp 1).loop = true := by
  have header := nthPass_header hs hl hv hp
  cases hd : inp.drop frameHeaderSize with
  | nil =>
    refine ⟨by rw [header], ?_⟩
    rw [nthPass, header, hd]
    rfl
  | cons p payload => exact ⟨by rw [header], by rw [nthPass_padding hs hl hv hp hd]⟩

/-- A SETTINGS frame is refused once the padding length is off. -/
theorem not_kept_settings (ht : (headerOf inp).type = .settings) (hpos : 1 ≤ (headerOf inp).length)
    (whole : frameHeaderSize + (headerOf inp).length ≤ inp.length) : ¬ d.LengthKept inp := by
  intro kept
  have rest := (kept.consumed whole).2.2.2
  have h6 := validate_settings hv ht
  cases hd : inp.drop frameHeaderSize with
  | nil =>
    have := List.drop_eq_nil_iff.mp hd
    omega
  | cons p payload =>
    obtain ⟨e, refused⟩ := unpad_settings hv ht
    have same : body (headerOf inp).unpad payload = settingsBody (headerOf inp).unpad payload := if_pos ht
    rw [(nthPass_payload hs hl hv hp hd).2, same, refused, rest_eq_drop hd] at rest
    have lengths := congrArg List.length rest
    simp only [List.length_drop] at lengths
    omega

theorem not_kept_empty (hzero : (headerOf inp).length = 0) : ¬ d.LengthKept inp := by
  intro kept
  have header := nthPass_header hs hl hv hp
  have stalled : inp.drop frameHeaderSize = [] := by
    by_contra more
    have length := kept.decrement
    rw [header] at length
    have := length more
    simp only at this
    omega
  have state := (kept.consumed (by omega)).2.2.1
  rw [nthPass_stalled hs hl hv hp stalled] at state
  exact State.noConfusion state

/-- A padded frame keeps its length, and is taken from the buffer as a whole, unless it is
empty or a SETTINGS frame; those that are there as a whole go wrong. -/
theorem frame_length_kept_iff :
    d.LengthKept inp ↔
      (frameHeaderSize + (headerOf inp).length ≤ inp.length →
        (headerOf inp).type ≠ .settings ∧ 1 ≤ (headerOf inp).length) := by
  have header := nthPass_header hs hl hv hp
  constructor
  · intro kept whole
    have hpos : 1 ≤ (headerOf inp).length := by
      by_contra hzero
      exact not_kept_empty hs hl hv hp (by omega) kept
    exact ⟨fun ht => not_kept_settings hs hl hv hp ht hpos whole kept, hpos⟩
  · intro good
    refine ⟨?_, ?_⟩
    · intro _
      rw [header]
      simp only
      by_contra hzero
      have whole : frameHeaderSize + (headerOf inp).length ≤ inp.length := by omega
      have := (good whole).2
      omega
    · intro whole
      obtain ⟨ht, hpos⟩ := good whole
      obtain ⟨first, second⟩ := nthPass_looping hs hl hv hp
      cases hd : inp.drop frameHeaderSize with
      | nil =>
        have := List.drop_eq_nil_iff.mp hd
        omega
      | cons p payload =>
        obtain ⟨state, rest⟩ := nthPass_payload hs hl hv hp hd
        refine ⟨first, second, state, ?_⟩
        have same : body (headerOf inp).unpad payload = opaqueBody (headerOf inp).unpad payload := if_neg ht
        have taken : frameHeaderSize + 1 + ((headerOf inp).length - 1) =
            frameHeaderSize + (headerOf inp).length := by omega
        rw [rest, same, opaqueBody, unpad_length hv hpos, rest_eq_drop hd, List.drop_drop, taken]

end Padded

/-- A DATA frame with two bytes of padding behind one of data. -/
theorem frame_length_kept_data :
    LengthKept { init with state := .readFrameHeader } [0, 0, 4, 0, 8, 0, 0, 0, 1, 2, 7, 0, 0, 9] := by
  apply (frame_length_kept_iff rfl (by decide) (by decide) (by decide)).mpr
  intro _
  exact ⟨by decide, by decide⟩

/-- Empty CONTINUATION and PUSH_PROMISE frames are accepted with the flag; a SETTINGS
frame with one entry is left with five bytes of it. -/
theorem frame_length_wraps :
    ¬ LengthKept { init with state := .readFrameHeader } [0, 0, 0, 9, 8, 0, 0, 0, 1, 0] ∧
      ¬ LengthKept { init with state := .readFrameHeader } [0, 0, 0, 5, 8, 0, 0, 0, 1, 0] ∧
      ¬ LengthKept { init with state := .readFrameHeader }
        [0, 0, 6, 4, 8, 0, 0, 0, 0, 0, 1, 0, 0, 0, 0] := by
  refine ⟨?_, ?_, ?_⟩
  · intro kept
    have length := kept.decrement (by decide)
    revert length
    decide
  · intro kept
    have length := kept.decrement (by decide)
    revert length
    decide
  · intro kept
    have rest := (kept.consumed (by decide)).2.2.2
    revert rest
    decide

end Decoder

end Http2

end XiRuntime
