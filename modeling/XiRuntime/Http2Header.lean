import XiRuntime.Http2Frame

namespace XiRuntime

namespace Http2

namespace FrameHeader

/-- The header as `read_frame_header` takes it from the wire. -/
def ofWire (length : Nat) (type flags : UInt8) (streamId : UInt32) : FrameHeader :=
  ⟨length, .ofByte type, flags, streamId.toNat⟩

/-- The types up to `CONTINUATION`. -/
def Known (h : FrameHeader) : Prop := ∀ b, h.type ≠ .unknown b

/-- Frames of the connection are on stream 0, frames of a stream are not. -/
def StreamIdFits (h : FrameHeader) : Prop :=
  match h.type with
  | .data | .headers | .priority | .rstStream | .pushPromise => h.streamId ≠ 0
  | .settings | .ping | .goaway => h.streamId = 0
  | .windowUpdate | .continuation | .unknown _ => True

/-- What the fixed fields of a frame take. -/
def LengthFits (h : FrameHeader) : Prop :=
  let padding := if h.hasFlag .padded then 1 else 0
  match h.type with
  | .data => padding ≤ h.length
  | .headers => padding + (if h.hasFlag .priority then 5 else 0) ≤ h.length
  | .priority => h.length = 5
  | .rstStream => h.length = 4
  | .settings => if h.hasFlag .ack then h.length = 0 else 6 ∣ h.length
  | .pushPromise => 4 + padding ≤ h.length
  | .ping => h.length = 8
  | .goaway => 8 ≤ h.length
  | .windowUpdate => h.length = 4
  | .continuation | .unknown _ => True

/-- `validate_frame_header` tells the well-formed headers, and the reason for
refusing the others. -/
def ValidatedAsFormed (h : FrameHeader) : Prop :=
  (h.validate = .noError ↔ h.Known ∧ h.StreamIdFits ∧ h.LengthFits) ∧
    (h.Known → h.StreamIdFits → ¬ h.LengthFits → h.validate = .frameSizeError) ∧
    (¬ (h.Known ∧ h.StreamIdFits) → h.validate = .protocolError)

theorem isStreamIdValid_iff (h : FrameHeader) : h.isStreamIdValid = true ↔ h.StreamIdFits := by
  unfold isStreamIdValid StreamIdFits
  cases h.type <;> simp

/-- The test on PUSH_PROMISE picks 5 or 4 and both count as true. -/
theorem isLengthValid_pushPromise {h : FrameHeader} (ht : h.type = .pushPromise) :
    h.isLengthValid = true := by
  simp only [isLengthValid, ht]
  split <;> rfl

theorem isLengthValid_iff {h : FrameHeader} (ht : h.type ≠ .pushPromise) :
    h.isLengthValid = true ↔ h.LengthFits := by
  unfold isLengthValid LengthFits
  cases hty : h.type with
  | pushPromise => exact absurd hty ht
  | data => cases hp : h.hasFlag .padded <;> simp [Nat.one_le_iff_ne_zero]
  | headers => cases hp : h.hasFlag .padded <;> cases hq : h.hasFlag .priority <;> simp
  | settings => cases ha : h.hasFlag .ack <;> simp [Nat.dvd_iff_mod_eq_zero]
  | _ => simp

theorem validate_unknown {h : FrameHeader} (hl : h.length < maxAllowedFrameSize)
    (hk : ¬ h.Known) : h.validate = .protocolError := by
  have hty : ∃ b, h.type = .unknown b := by
    simpa [Known] using hk
  obtain ⟨b, hb⟩ := hty
  simp [validate, Nat.not_le.mpr hl, hb]

theorem validate_known_eq {h : FrameHeader} (hl : h.length < maxAllowedFrameSize) (hk : h.Known) :
    h.validate =
      if h.isStreamIdValid then if h.isLengthValid then .noError else .frameSizeError
      else .protocolError := by
  cases hs : h.isStreamIdValid <;> cases hv : h.isLengthValid <;> cases hty : h.type
  all_goals first
    | exact absurd hty (hk _)
    | simp [validate, Nat.not_le.mpr hl, hty, hs, hv]

theorem validatedAsFormed_iff {h : FrameHeader} (hl : h.length < maxAllowedFrameSize) :
    h.ValidatedAsFormed ↔
      ¬ (h.type = .pushPromise ∧ h.streamId ≠ 0 ∧ ¬ h.LengthFits) := by
  by_cases hk : h.Known
  · have hval := validate_known_eq hl hk
    have hsid := isStreamIdValid_iff h
    cases hs : h.isStreamIdValid with
    | false =>
      have hfits : ¬ h.StreamIdFits := by simpa [hs] using hsid
      rw [hs] at hval
      have hnot : ¬ (h.type = .pushPromise ∧ h.streamId ≠ 0 ∧ ¬ h.LengthFits) := by
        rintro ⟨hty, hne, -⟩
        exact hfits (by simpa [StreamIdFits, hty] using hne)
      simp [ValidatedAsFormed, hval, hk, hfits, hnot]
    | true =>
      have hfits : h.StreamIdFits := by simpa [hs] using hsid
      rw [hs] at hval
      by_cases hty : h.type = .pushPromise
      · have hne : h.streamId ≠ 0 := by simpa [StreamIdFits, hty] using hfits
        simp [ValidatedAsFormed, hval, hk, hfits, hty, hne, isLengthValid_pushPromise hty]
      · have hlen := isLengthValid_iff hty
        by_cases hf : h.LengthFits
        · simp [ValidatedAsFormed, hval, hk, hfits, hty, hf, hlen.mpr hf]
        · have hv : h.isLengthValid = false := by simpa [hf] using hlen
          simp [ValidatedAsFormed, hval, hk, hfits, hty, hf, hv]
  · have hnot : ¬ (h.type = .pushPromise ∧ h.streamId ≠ 0 ∧ ¬ h.LengthFits) := by
      rintro ⟨hty, -, -⟩
      exact hk (by simp [Known, hty])
    simp [ValidatedAsFormed, validate_unknown hl hk, hk, hnot]

theorem ofByte_pushPromise {t : UInt8} : FrameType.ofByte t = .pushPromise ↔ t = 5 := by
  unfold FrameType.ofByte
  split <;> simp_all

/-- Every header but that of a PUSH_PROMISE on a stream and too short for its
fixed fields is validated right. -/
theorem validate_frame_header_iff {length : Nat} (hl : length < maxAllowedFrameSize)
    (type flags : UInt8) (streamId : UInt32) :
    (ofWire length type flags streamId).ValidatedAsFormed ↔
      ¬ (type = 5 ∧ streamId ≠ 0 ∧
        length < 4 + (if flags &&& Flag.padded.bits ≠ 0 then 1 else 0)) := by
  rw [validatedAsFormed_iff hl]
  refine not_congr ?_
  have hid : (ofWire length type flags streamId).streamId ≠ 0 ↔ streamId ≠ 0 := by
    refine not_congr ?_
    exact UInt32.toNat_inj (b := 0)
  rw [hid]
  have hty : (ofWire length type flags streamId).type = .pushPromise ↔ type = 5 :=
    ofByte_pushPromise
  rw [hty]
  refine and_congr_right ?_
  intro h5
  refine and_congr_right ?_
  intro _
  have hp : (ofWire length type flags streamId).type = .pushPromise := hty.mpr h5
  simp only [LengthFits, hp, Nat.not_le]
  simp [ofWire, hasFlag]

/-- A settings frame of one entry, and a PUSH_PROMISE of the least length. -/
theorem validate_frame_header_settings_pushPromise :
    (ofWire 6 4 0 0).ValidatedAsFormed ∧ (ofWire 5 5 8 1).ValidatedAsFormed :=
  ⟨(validate_frame_header_iff (by decide) 4 0 0).mpr (by decide),
    (validate_frame_header_iff (by decide) 5 8 1).mpr (by decide)⟩

/-- An empty PUSH_PROMISE is accepted. -/
theorem validate_accepts_empty_pushPromise :
    ¬ ∀ (length : Nat) (type flags : UInt8) (streamId : UInt32), length < maxAllowedFrameSize →
      (ofWire length type flags streamId).ValidatedAsFormed := by
  intro h
  have hformed := (h 0 5 0 1 (by decide)).1.mp (by decide)
  have hlen : 4 + 0 ≤ 0 := hformed.2.2
  omega

end FrameHeader

end Http2

end XiRuntime
