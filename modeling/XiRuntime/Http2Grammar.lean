import XiRuntime.Http2Frame

namespace XiRuntime

namespace Http2

/-- The payload of one frame: what is left after it, the calls for it, whether
`decode` goes on in the same call, and whether all of the payload was there. -/
structure Body where
  rest : List UInt8
  calls : List Call
  loop : Bool
  whole : Bool
deriving DecidableEq, Repr

/-- A frame at the front of some bytes, told from the bytes alone. -/
inductive Parsed
  | short
  | rejected (e : Error)
  | stalled
  | frame (b : Body)
deriving DecidableEq, Repr

def settingsBody (h : FrameHeader) (payload : List UInt8) : Body :=
  if h.length = 0 then ⟨payload, if h.hasFlag .ack then [.settingsAck] else [], false, true⟩
  else if h.hasFlag .ack then ⟨payload, [.sendConnectionError .frameSizeError], false, true⟩
  else if h.length % 6 ≠ 0 then ⟨payload, [.sendConnectionError .protocolError], false, true⟩
  else if h.streamId ≠ 0 then ⟨payload, [.sendConnectionError .protocolError], false, true⟩
  else
    let out := settingsLoop h.length payload
    match out.error with
    | some e => ⟨out.rest, out.calls ++ [.sendConnectionError e], false, true⟩
    | none =>
      ⟨out.rest, out.calls ++ if out.length = 0 then [.settingsEnd] else [],
        out.rest.length > out.length, out.length == 0⟩

def opaqueBody (h : FrameHeader) (payload : List UInt8) : Body where
  rest := payload.drop h.length
  calls := []
  loop := (payload.drop h.length).length > if h.type = .data then 0 else h.length
  whole := h.length ≤ payload.length

def body (h : FrameHeader) (payload : List UInt8) : Body :=
  if h.type = .settings then settingsBody h payload else opaqueBody h payload

/-- The header in the first nine bytes. -/
def headerOf (inp : List UInt8) : FrameHeader where
  length := bigEndian (inp.take 3)
  type := .ofByte (inp.getD 3 0)
  flags := inp.getD 4 0
  streamId := bigEndian ((inp.drop 5).take 4)

/-- The padding byte is taken off the payload length. -/
def FrameHeader.unpad (h : FrameHeader) : FrameHeader :=
  { h with length := (h.length + (2 ^ 32 - 1)) % 2 ^ 32 }

def parse (inp : List UInt8) : Parsed :=
  if inp.length < frameHeaderSize then .short
  else if (headerOf inp).validate ≠ .noError then .rejected (headerOf inp).validate
  else if (headerOf inp).hasFlag .padded then
    match inp.drop frameHeaderSize with
    | [] => .stalled
    | _ :: payload => .frame (body (headerOf inp).unpad payload)
  else .frame (body (headerOf inp) (inp.drop frameHeaderSize))

theorem settingsLoop_zero (inp : List UInt8) : settingsLoop 0 inp = ⟨0, inp, [], none⟩ := by
  unfold settingsLoop
  split
  next => rfl
  next => rfl

theorem settingsLoop_short {inp : List UInt8} (h : inp.length < 6) (length : Nat) :
    settingsLoop length inp = ⟨length, inp, [], none⟩ := by
  unfold settingsLoop
  split
  next => simp at h; omega
  next => rfl

theorem settingsLoop_rest_length (length : Nat) (inp : List UInt8) :
    (settingsLoop length inp).rest.length ≤ inp.length := by
  fun_induction settingsLoop length inp with
  | case1 => simp
  | case2 length i₁ i₀ v₃ v₂ v₁ v₀ rest _ _ _ ih =>
    simp only [List.length_cons]
    omega
  | case3 length i₁ i₀ v₃ v₂ v₁ v₀ rest _ _ _ _ e _ =>
    simp only [List.length_cons]
    omega
  | case4 length i₁ i₀ v₃ v₂ v₁ v₀ rest _ _ _ _ _ more ih =>
    simp only [List.length_cons, more]
    omega
  | case5 => exact Nat.le_refl _

theorem body_rest_length (h : FrameHeader) (payload : List UInt8) :
    (body h payload).rest.length ≤ payload.length := by
  unfold body
  split
  next =>
    have hloop := settingsLoop_rest_length h.length payload
    unfold settingsBody
    by_cases h0 : h.length = 0
    · simp [h0]
    by_cases ha : h.hasFlag .ack = true
    · simp [h0, ha]
    by_cases h6 : h.length % 6 = 0
    · by_cases hs : h.streamId = 0
      · cases he : (settingsLoop h.length payload).error <;> simpa [h0, ha, h6, hs, he] using hloop
      · simp [h0, ha, h6, hs]
    · simp [h0, ha, h6]
  next =>
    simp only [opaqueBody, List.length_drop]
    omega

theorem parse_frame_rest_length {inp : List UInt8} {b : Body} (h : parse inp = .frame b) :
    b.rest.length + frameHeaderSize ≤ inp.length := by
  unfold parse at h
  split at h
  next => simp at h
  next hlen =>
    split at h
    next => simp at h
    next =>
      split at h
      next =>
        cases hd : inp.drop frameHeaderSize with
        | nil => simp [hd] at h
        | cons p payload =>
          simp only [hd] at h
          have hb := body_rest_length (headerOf inp).unpad payload
          have hl := congrArg List.length hd
          simp only [List.length_drop, List.length_cons] at hl
          cases Parsed.frame.inj h
          omega
      next =>
        have hb := body_rest_length (headerOf inp) (inp.drop frameHeaderSize)
        simp only [List.length_drop] at hb
        cases Parsed.frame.inj h
        omega

theorem validate_length_lt {h : FrameHeader} (hv : h.validate = .noError) :
    h.length < maxAllowedFrameSize := by
  by_contra hl
  have hge : h.length ≥ maxAllowedFrameSize := Nat.le_of_not_lt hl
  simp [FrameHeader.validate, hge] at hv

theorem validate_settings {h : FrameHeader} (hv : h.validate = .noError) (ht : h.type = .settings) :
    h.length % 6 = 0 := by
  have hl : ¬ h.length ≥ maxAllowedFrameSize := Nat.not_le.mpr (validate_length_lt hv)
  have hlen : h.isLengthValid = true := by
    by_contra hlen
    simp only [FrameHeader.validate, hl, if_false, ht] at hv
    split at hv
    next => simp at hv
    next => simp [hlen] at hv
  simp only [FrameHeader.isLengthValid, ht] at hlen
  split at hlen
  next => simp only [beq_iff_eq] at hlen; omega
  next => simpa using hlen

theorem unpad_length {h : FrameHeader} (hv : h.validate = .noError) (hpos : 1 ≤ h.length) :
    h.unpad.length = h.length - 1 := by
  have hlt := validate_length_lt hv
  simp only [maxAllowedFrameSize] at hlt
  simp only [FrameHeader.unpad]
  omega

/-- The padding byte makes every SETTINGS frame a faulty one. -/
theorem unpad_settings {h : FrameHeader} (hv : h.validate = .noError) (ht : h.type = .settings) :
    ∃ e, ∀ payload, settingsBody h.unpad payload =
      ⟨payload, [.sendConnectionError e], false, true⟩ := by
  have hlt := validate_length_lt hv
  have h6 := validate_settings hv ht
  simp only [maxAllowedFrameSize] at hlt
  have hn : h.unpad.length ≠ 0 ∧ h.unpad.length % 6 ≠ 0 := by
    simp only [FrameHeader.unpad]
    omega
  by_cases ha : h.unpad.hasFlag .ack = true
  · exact ⟨.frameSizeError, fun payload => by simp [settingsBody, hn, ha]⟩
  · exact ⟨.protocolError, fun payload => by simp [settingsBody, hn, ha]⟩

namespace Decoder

theorem readFrameHeader_eq {d : Decoder} {inp : List UInt8} (hl : ¬ inp.length < frameHeaderSize) :
    d.readFrameHeader inp =
      if (headerOf inp).validate ≠ .noError then
        ({ d with toFrameHeader := headerOf inp } : Decoder).transitionToError
          (inp.drop frameHeaderSize) [] (headerOf inp).validate
      else
        ⟨{ d with
            toFrameHeader := headerOf inp
            state := if (headerOf inp).hasFlag .padded then .readFramePadding
              else (headerOf inp).type.state }, inp.drop frameHeaderSize, [], true⟩ := by
  have hhead : (⟨(readU24 inp).1, .ofByte (readU8 (readU24 inp).2).1,
      (readU8 (readU8 (readU24 inp).2).2).1,
      (readU32 (readU8 (readU8 (readU24 inp).2).2).2).1⟩ : FrameHeader) = headerOf inp := by
    simp [readU24, readU8, readU32, readBytes, headerOf, List.take_one, List.head?_drop]
  have hrest : (readU32 (readU8 (readU8 (readU24 inp).2).2).2).2 = inp.drop frameHeaderSize := by
    simp [readU24, readU8, readU32, readBytes, frameHeaderSize]
  rw [← hhead, ← hrest]
  simp only [readFrameHeader, hl, if_false]

/-- The handler that the switch picks for a frame of a known type. -/
theorem pass_body {d : Decoder} {inp : List UInt8} (hs : d.state = d.type.state)
    (ht : ∀ b, d.type ≠ .unknown b) :
    (d.pass inp).rest = (body d.toFrameHeader inp).rest ∧
      (d.pass inp).calls = (body d.toFrameHeader inp).calls ∧
      (d.pass inp).loop = (body d.toFrameHeader inp).loop ∧
      (d.pass inp).dec.state = .readFrameHeader := by
  by_cases hset : d.type = .settings
  · have hstate : d.state = .readSettingsFrame := by rw [hs, hset]; rfl
    simp only [pass, hstate, body, hset, if_true, readSettingsFrame, settingsBody]
    by_cases h0 : d.length = 0
    · simp [h0]
    by_cases ha : d.hasFlag .ack = true
    · simp [h0, ha, transitionToError]
    by_cases h6 : d.length % 6 = 0
    · by_cases hs : d.streamId = 0
      · cases he : (settingsLoop d.length inp).error <;> simp [h0, ha, h6, hs, transitionToError]
      · simp [h0, ha, h6, hs, transitionToError]
    · simp [h0, ha, h6, transitionToError]
  · simp only [body, hset, if_false, opaqueBody]
    cases hty : d.type with
    | settings => exact absurd hty hset
    | unknown b => exact absurd hty (ht b)
    | data =>
      have hstate : d.state = .readDataFrame := by rw [hs, hty]; rfl
      simp [pass, hstate, readDataFrame]
    | _ => simp [pass, hs, hty, FrameType.state, skipFrame]

theorem validate_known {h : FrameHeader} (hv : h.validate = .noError) (b : UInt8) :
    h.type ≠ .unknown b := by
  intro ht
  unfold FrameHeader.validate at hv
  split at hv
  · simp at hv
  · simp [ht] at hv

/-- Passes of the loop that go on without calling the delegate. -/
inductive Silent : Decoder → List UInt8 → Decoder → List UInt8 → Prop
  | refl {d : Decoder} {inp : List UInt8} : Silent d inp d inp
  | pass {d d' : Decoder} {inp inp' : List UInt8} : (d.pass inp).loop = true → (d.pass inp).calls = [] →
      Silent (d.pass inp).dec (d.pass inp).rest d' inp' → Silent d inp d' inp'

theorem pass_header_short {d : Decoder} {inp : List UInt8} (hs : d.state = .readFrameHeader)
    (hp : parse inp = .short) : d.pass inp = ⟨d, inp, [], false⟩ := by
  have hl : inp.length < frameHeaderSize := by
    unfold parse at hp
    split at hp
    next hl => exact hl
    next => split_ifs at hp; split at hp <;> simp at hp
  simp [pass, hs, readFrameHeader, hl]

theorem parse_rejected {inp : List UInt8} {e : Error} (hp : parse inp = .rejected e) :
    ¬ inp.length < frameHeaderSize ∧ (headerOf inp).validate ≠ .noError ∧
      e = (headerOf inp).validate := by
  unfold parse at hp
  split at hp
  next => simp at hp
  next hl =>
    split at hp
    next hv => exact ⟨hl, hv, (Parsed.rejected.inj hp).symm⟩
    next => split_ifs at hp; split at hp <;> simp at hp

theorem pass_header_rejected {d : Decoder} {inp : List UInt8} {e : Error}
    (hs : d.state = .readFrameHeader) (hp : parse inp = .rejected e) :
    (d.pass inp).loop = false ∧ (d.pass inp).calls = [.sendConnectionError e] ∧
      (d.pass inp).dec.state = .connectionError ∧ (d.pass inp).rest = inp.drop frameHeaderSize := by
  obtain ⟨hl, hv, rfl⟩ := parse_rejected hp
  simp [pass, hs, readFrameHeader_eq hl, hv, transitionToError]

/-- The first pass over a header that is accepted. -/
theorem pass_header_accepted {d : Decoder} {inp : List UInt8} (hs : d.state = .readFrameHeader)
    (hl : ¬ inp.length < frameHeaderSize) (hv : (headerOf inp).validate = .noError) :
    d.pass inp = ⟨{ d with
      toFrameHeader := headerOf inp
      state := if (headerOf inp).hasFlag .padded then .readFramePadding
        else (headerOf inp).type.state }, inp.drop frameHeaderSize, [], true⟩ := by
  simp [pass, hs, readFrameHeader_eq hl, hv]

theorem parse_accepted {inp : List UInt8} (h : parse inp = .stalled ∨ ∃ b, parse inp = .frame b) :
    ¬ inp.length < frameHeaderSize ∧ (headerOf inp).validate = .noError := by
  constructor
  · intro hl
    simp [parse, hl] at h
  · by_contra hv
    by_cases hl : inp.length < frameHeaderSize
    · simp [parse, hl] at h
    · simp [parse, hl, hv] at h

theorem silent_stalled {d : Decoder} {inp : List UInt8} (hs : d.state = .readFrameHeader)
    (hp : parse inp = .stalled) :
    ∃ d', Silent d inp d' [] ∧ d'.state = .readFramePadding := by
  obtain ⟨hl, hv⟩ := parse_accepted (Or.inl hp)
  have hpass := pass_header_accepted hs hl hv
  have hpad : (headerOf inp).hasFlag .padded = true ∧ inp.drop frameHeaderSize = [] := by
    unfold parse at hp
    simp only [hl, if_false, hv, ne_eq, not_true_eq_false] at hp
    split at hp
    next hpad =>
      refine ⟨hpad, ?_⟩
      cases hd : inp.drop frameHeaderSize with
      | nil => rfl
      | cons p payload => simp [hd] at hp
    next => simp at hp
  refine ⟨(d.pass inp).dec, Silent.pass (by rw [hpass]) (by rw [hpass]) ?_, by rw [hpass]; simp [hpad.1]⟩
  have hrest : (d.pass inp).rest = [] := by rw [hpass]; exact hpad.2
  rw [hrest]
  exact Silent.refl

/-- A frame is decoded by silent passes over its header and padding and one pass
over its payload, after which the next header is due. -/
theorem silent_frame {d : Decoder} {inp : List UInt8} {b : Body} (hs : d.state = .readFrameHeader)
    (hp : parse inp = .frame b) :
    ∃ d' inp', Silent d inp d' inp' ∧ (d'.pass inp').rest = b.rest ∧ (d'.pass inp').calls = b.calls ∧
      (d'.pass inp').loop = b.loop ∧ (d'.pass inp').dec.state = .readFrameHeader := by
  obtain ⟨hl, hv⟩ := parse_accepted (Or.inr ⟨b, hp⟩)
  have hpass := pass_header_accepted hs hl hv
  have hknown := validate_known hv
  unfold parse at hp
  simp only [hl, if_false, hv, ne_eq, not_true_eq_false] at hp
  by_cases hpad : (headerOf inp).hasFlag .padded = true
  · cases hd : inp.drop frameHeaderSize with
    | nil => simp [hpad, hd] at hp
    | cons p payload =>
      simp only [hpad, if_true, hd, Parsed.frame.injEq] at hp
      subst hp
      have hpass' : d.pass inp = ⟨{ d with toFrameHeader := headerOf inp, state := .readFramePadding },
          p :: payload, [], true⟩ := by simpa [hpad, hd] using hpass
      -- the padding byte is there: one more silent pass
      refine ⟨{ d with
        toFrameHeader := (headerOf inp).unpad, padding := p, state := (headerOf inp).type.state },
        payload, ?_, pass_body rfl hknown⟩
      refine Silent.pass (by rw [hpass']) (by rw [hpass']) ?_
      rw [hpass']
      exact Silent.pass rfl rfl Silent.refl
  · rw [if_neg hpad, Parsed.frame.injEq] at hp
    subst hp
    refine ⟨(d.pass inp).dec, (d.pass inp).rest,
      Silent.pass (by rw [hpass]) (by rw [hpass]) Silent.refl, ?_⟩
    rw [hpass]
    exact pass_body (if_neg hpad) hknown

end Decoder

end Http2

end XiRuntime
