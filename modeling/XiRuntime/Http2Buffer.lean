import XiRuntime.BufferReader
import XiRuntime.Http2Grammar

namespace XiRuntime

namespace Http2

/-- One pass of the loop in `decode` over the buffer `in`. -/
structure BufferPass where
  dec : Decoder
  rest : Buffer
  calls : List Call
  loop : Bool
deriving DecidableEq, Repr

/-- `SettingsLoop` over a buffer. -/
structure BufferSettings where
  length : Nat
  rest : Buffer
  calls : List Call
  error : Option Error
deriving DecidableEq, Repr

namespace Decoder

namespace InBuffer

section

variable (m : Mem)

/-- `read_value_and_skip` of a type of one byte. -/
def readByte (r : BufferReader) : Option UInt8 × BufferReader :=
  let p := r.readValueAndSkip m 1
  (p.1.map (·.headD 0), p.2)

/-- The body of `read_u16`, `read_u24` and `read_u32`; `none` is an `unwrap` of nothing. -/
def readUnsigned (n : Nat) (b : Buffer) : Option (Nat × Buffer) :=
  match b.makeReader.readValueAndSkip m n with
  | (none, _) => none
  | (some bytes, r) => some (bigEndian bytes, r.buffer)

def readU16 (b : Buffer) : Option (Nat × Buffer) := readUnsigned m 2 b
def readU24 (b : Buffer) : Option (Nat × Buffer) := readUnsigned m 3 b
def readU32 (b : Buffer) : Option (Nat × Buffer) := readUnsigned m 4 b

def transitionToError (d : Decoder) (rest : Buffer) (calls : List Call) (e : Error) : BufferPass :=
  ⟨{ d with state := .connectionError }, rest, calls ++ [.sendConnectionError e], false⟩

/-- The loop of `read_connection_preface`, with the bytes of the buffer as its fuel. -/
def prefaceLoop : Nat → Decoder → BufferReader → BufferPass
  | 0, d, r => ⟨d, r.buffer, [], true⟩
  | fuel + 1, d, r =>
    match readByte m r with
    | (none, r') => ⟨d, r'.buffer, [], true⟩
    | (some b, r') =>
      let d' := { d with length := d.length + 1 }
      if initiationString[d.length]? ≠ some b then
        transitionToError d' r'.buffer [] .protocolError
      else if d'.length = connectionPrefaceLength then
        ⟨{ d' with state := .readFrameHeader }, r'.buffer, [], false⟩
      else prefaceLoop fuel d' r'

def readConnectionPreface (d : Decoder) (b : Buffer) : BufferPass :=
  prefaceLoop m b.size d b.makeReader

def readFramePadding (d : Decoder) (b : Buffer) : BufferPass :=
  match readByte m b.makeReader with
  | (none, r) => ⟨d, r.buffer, [], true⟩
  | (some p, r) =>
    ⟨{ d with padding := p, state := d.type.state, length := (d.length + (2 ^ 32 - 1)) % 2 ^ 32 },
      r.buffer, [], true⟩

/-- `while (_length && in->size() >= 6)`; every pass takes bytes from the buffer. -/
def settingsLoop : Nat → Nat → Buffer → Option BufferSettings
  | 0, length, b => some ⟨length, b, [], none⟩
  | fuel + 1, length, b =>
    if length = 0 ∨ b.size < 6 then some ⟨length, b, [], none⟩
    else do
      let (id, b) ← readU16 m b
      let (value, b) ← readU32 m b
      if id ≥ settingsMax then settingsLoop fuel length b
      else
        match settingError id value with
        | some e => some ⟨length, b, [], some e⟩
        | none =>
          let more ← settingsLoop fuel (length - 6) b
          some { more with calls := .settingReceived id value :: more.calls }

def readSettingsFrame (d : Decoder) (b : Buffer) : Option BufferPass :=
  let ack := d.hasFlag .ack
  if d.length = 0 then
    some ⟨{ d with state := .readFrameHeader }, b, if ack then [.settingsAck] else [], false⟩
  else if ack then some (transitionToError d b [] .frameSizeError)
  else if d.length % 6 ≠ 0 then some (transitionToError d b [] .protocolError)
  else if d.streamId ≠ 0 then some (transitionToError d b [] .protocolError)
  else do
    let out ← settingsLoop m b.size d.length b
    let d' := { d with length := out.length }
    match out.error with
    | some e => some (transitionToError d' out.rest out.calls e)
    | none =>
      some ⟨d', out.rest, out.calls ++ if out.length = 0 then [.settingsEnd] else [],
        out.rest.size > out.length⟩

def readDataFrame (d : Decoder) (b : Buffer) : BufferPass :=
  let rest := b.skipBytes d.length true
  ⟨{ d with state := .readFrameHeader }, rest, [], rest.size > 0⟩

def skipFrame (d : Decoder) (b : Buffer) : BufferPass :=
  let rest := b.skipBytes d.length true
  ⟨{ d with state := .readFrameHeader }, rest, [], rest.size > d.length⟩

/-- The reader for type and flags is made before `read_u24`, and its mark stays 0. -/
def readFrameHeader (d : Decoder) (b : Buffer) : Option BufferPass :=
  if b.size < frameHeaderSize then some ⟨d, b, [], false⟩
  else do
    let (length, b) ← readU24 m b
    let (type, r) := readByte m b.makeReader
    let type ← type
    let (flags, r) := readByte m r
    let flags ← flags
    let (streamId, b) ← readU32 m r.buffer
    let h : FrameHeader := ⟨length, .ofByte type, flags, streamId⟩
    let d' : Decoder := { d with toFrameHeader := h }
    let err := h.validate
    if err ≠ .noError then some (transitionToError d' b [] err)
    else
      some ⟨{ d' with state := if h.hasFlag .padded then .readFramePadding else h.type.state },
        b, [], true⟩

def pass (d : Decoder) (b : Buffer) : Option BufferPass :=
  match d.state with
  | .readConnectionPreface => some (readConnectionPreface m d b)
  | .readFrameHeader => readFrameHeader m d b
  | .readFramePadding => some (readFramePadding m d b)
  | .readDataFrame => some (readDataFrame d b)
  | .readSettingsFrame => do
    let p ← readSettingsFrame m d b
    some { p with dec := { p.dec with state := .readFrameHeader } }
  | .readHeadersFrame | .readPriorityFrame | .readRstStreamFrame | .readPushPromiseFrame
  | .readPingFrame | .readGoawayFrame | .readWindowUpdateFrame | .readContinuationFrame =>
    some (skipFrame d b)
  | .connectionError => some ⟨d, b, [], false⟩
  | .other _ => some ⟨d, b, [], true⟩

/-- `decode`, cut off after `fuel` passes of its loop. -/
def decodeFuel : Nat → Decoder → Buffer → Option (Decoder × Buffer × List Call)
  | 0, _, _ => none
  | fuel + 1, d, b => do
    let p ← pass m d b
    if p.loop then
      let (d', rest, calls) ← decodeFuel fuel p.dec p.rest
      some (d', rest, p.calls ++ calls)
    else some (p.dec, p.rest, p.calls)

end

end InBuffer

end Decoder

/-- What the pass leaves, with the bytes of the buffer in the place of the buffer. -/
def BufferPass.flat (m : Mem) (p : BufferPass) : Pass := ⟨p.dec, p.rest.content m, p.calls, p.loop⟩

/-- What the loop leaves, with the bytes of the buffer in the place of the buffer. -/
def BufferSettings.flat (m : Mem) (s : BufferSettings) : SettingsLoop :=
  ⟨s.length, s.rest.content m, s.calls, s.error⟩

/-- No `unwrap` fails, and apart from the fragments the outcome is `q`. -/
def Refines (m : Mem) (p : Option BufferPass) (q : Pass) : Prop :=
  ∃ p', p = some p' ∧ p'.rest.Valid ∧ p'.flat m = q

theorem six_bytes (inp : List UInt8) (h : 6 ≤ inp.length) :
    ∃ i₁ i₀ v₃ v₂ v₁ v₀ rest, inp = i₁ :: i₀ :: v₃ :: v₂ :: v₁ :: v₀ :: rest := by
  match inp, h with
  | i₁ :: i₀ :: v₃ :: v₂ :: v₁ :: v₀ :: rest, _ => exact ⟨i₁, i₀, v₃, v₂, v₁, v₀, rest, rfl⟩

namespace Decoder

namespace InBuffer

variable {m : Mem}

theorem readByte_some {r : BufferReader} (hv : r.buffer.Valid) (h : 1 ≤ (r.unmarked m).length) :
    ∃ b : Buffer, readByte m r = (some ((r.unmarked m).take 1 |>.headD 0), b.makeReader) ∧
      b.Valid ∧ b.content m = (r.unmarked m).drop 1 := by
  obtain ⟨b, read, valid, content⟩ := BufferReader.readValueAndSkip_some hv Nat.one_pos h
  exact ⟨b, by simp only [readByte, read, Option.map_some], valid, content⟩

theorem readByte_cons {r : BufferReader} {x : UInt8} {xs : List UInt8} (hv : r.buffer.Valid)
    (h : r.unmarked m = x :: xs) :
    ∃ b : Buffer, readByte m r = (some x, b.makeReader) ∧ b.Valid ∧ b.content m = xs := by
  obtain ⟨b, read, valid, content⟩ := readByte_some (m := m) hv (by simp [h])
  refine ⟨b, ?_, valid, ?_⟩
  · simpa only [h, List.take_succ_cons, List.headD_cons] using read
  · simpa only [h, List.drop_succ_cons, List.drop_zero] using content

theorem readByte_nil {r : BufferReader} (hv : r.buffer.Valid) (h : r.unmarked m = []) :
    readByte m r = (none, r) := by
  have read : r.readValueAndSkip m 1 = (none, r) :=
    BufferReader.readValueAndSkip_none hv (by simp [h])
  simp only [readByte, read, Option.map_none]

theorem readUnsigned_some {b : Buffer} {n : Nat} (hv : b.Valid) (hn : 0 < n)
    (h : n ≤ (b.content m).length) :
    ∃ b' : Buffer, readUnsigned m n b = some (bigEndian ((b.content m).take n), b') ∧ b'.Valid ∧
      b'.content m = (b.content m).drop n := by
  obtain ⟨b', read, valid, content⟩ :=
    BufferReader.readValueAndSkip_some (r := b.makeReader) hv hn h
  exact ⟨b', by simp only [readUnsigned, read, BufferReader.unmarked_makeReader,
    BufferReader.makeReader_buffer], valid, content⟩

theorem prefaceLoop_refines {fuel : Nat} {d : Decoder} {b : Buffer} (hv : b.Valid)
    (hf : (b.content m).length ≤ fuel) :
    (prefaceLoop m fuel d b.makeReader).rest.Valid ∧
      (prefaceLoop m fuel d b.makeReader).flat m = d.readConnectionPreface (b.content m) := by
  induction fuel generalizing d b with
  | zero =>
    have empty : b.content m = [] := List.eq_nil_of_length_eq_zero (Nat.le_zero.mp hf)
    refine ⟨hv, ?_⟩
    simp only [prefaceLoop, BufferPass.flat, BufferReader.makeReader_buffer, empty,
      Decoder.readConnectionPreface]
  | succ fuel ih =>
    cases hc : b.content m with
    | nil =>
      have read : readByte m b.makeReader = (none, b.makeReader) := readByte_nil hv hc
      simp only [prefaceLoop, read, BufferReader.makeReader_buffer, BufferPass.flat, hc,
        Decoder.readConnectionPreface]
      exact ⟨hv, trivial⟩
    | cons x xs =>
      obtain ⟨b', read, valid, content⟩ := readByte_cons (r := b.makeReader) hv hc
      simp only [prefaceLoop, read, Decoder.readConnectionPreface, BufferReader.makeReader_buffer]
      split
      next => exact ⟨valid, by rw [← content]; rfl⟩
      next =>
        split
        next => exact ⟨valid, by rw [← content]; rfl⟩
        next =>
          rw [← content]
          apply ih valid
          rw [content]
          simp only [hc, List.length_cons] at hf
          omega

theorem readFramePadding_refines {d : Decoder} {b : Buffer} (hv : b.Valid) :
    Refines m (some (readFramePadding m d b)) (d.readFramePadding (b.content m)) := by
  cases hc : b.content m with
  | nil =>
    have read : readByte m b.makeReader = (none, b.makeReader) := readByte_nil hv hc
    refine ⟨_, rfl, ?_, ?_⟩
    · simp only [readFramePadding, read]
      exact hv
    · simp only [readFramePadding, read, BufferPass.flat, BufferReader.makeReader_buffer, hc,
        Decoder.readFramePadding]
  | cons p rest =>
    obtain ⟨b', read, valid, content⟩ := readByte_cons (r := b.makeReader) hv hc
    refine ⟨_, rfl, ?_, ?_⟩
    · simp only [readFramePadding, read]
      exact valid
    · simp only [readFramePadding, read, BufferPass.flat, BufferReader.makeReader_buffer, content,
        Decoder.readFramePadding]

theorem readFrameHeader_refines {d : Decoder} {b : Buffer} (hv : b.Valid) :
    Refines m (readFrameHeader m d b) (d.readFrameHeader (b.content m)) := by
  have size := hv.length_content m
  by_cases short : b.size < frameHeaderSize
  · refine ⟨⟨d, b, [], false⟩, by simp only [readFrameHeader, short, if_true], hv, ?_⟩
    simp only [BufferPass.flat, Decoder.readFrameHeader, size, short, if_true]
  · have enough : 9 ≤ (b.content m).length := by
      rw [size]
      exact Nat.le_of_not_lt short
    obtain ⟨b₁, length, v₁, c₁⟩ := readUnsigned_some (m := m) (n := 3) hv (by omega) (by omega)
    obtain ⟨b₂, type, v₂, c₂⟩ := readByte_some (m := m) (r := b₁.makeReader) v₁
      (by simp only [BufferReader.unmarked_makeReader, c₁, List.length_drop]; omega)
    simp only [BufferReader.unmarked_makeReader] at type c₂
    obtain ⟨b₃, flags, v₃, c₃⟩ := readByte_some (m := m) (r := b₂.makeReader) v₂
      (by simp only [BufferReader.unmarked_makeReader, c₂, c₁, List.length_drop]; omega)
    simp only [BufferReader.unmarked_makeReader] at flags c₃
    obtain ⟨b₄, streamId, v₄, c₄⟩ := readUnsigned_some (m := m) (n := 4) v₃ (by omega)
      (by simp only [c₃, c₂, c₁, List.length_drop]; omega)
    simp only [readFrameHeader, short, if_false, readU24, length, type, flags, readU32,
      BufferReader.makeReader_buffer, streamId, Option.bind_eq_bind, Option.bind_some,
      Decoder.readFrameHeader, size, Http2.readU24, Http2.readU8, Http2.readU32, readBytes,
      Prod.map, id, ← c₁, ← c₂, ← c₃]
    split
    next => exact ⟨_, rfl, v₄, by rw [← c₄]; rfl⟩
    next => exact ⟨_, rfl, v₄, by rw [← c₄]; rfl⟩

theorem settingsLoop_refines {fuel length : Nat} {b : Buffer} (hv : b.Valid)
    (hf : (b.content m).length ≤ fuel) :
    ∃ s, settingsLoop m fuel length b = some s ∧ s.rest.Valid ∧
      s.flat m = Http2.settingsLoop length (b.content m) := by
  induction fuel generalizing length b with
  | zero =>
    refine ⟨⟨length, b, [], none⟩, rfl, hv, ?_⟩
    rw [settingsLoop_short (by omega)]
    rfl
  | succ fuel ih =>
    have size := hv.length_content m
    by_cases stop : length = 0 ∨ b.size < 6
    · refine ⟨⟨length, b, [], none⟩, by simp only [settingsLoop, stop, if_true], hv, ?_⟩
      rcases stop with rfl | short
      · exact (settingsLoop_zero _).symm
      · rw [← size] at short
        exact (settingsLoop_short short length).symm
    · obtain ⟨b₁, id, v₁, c₁⟩ := readUnsigned_some (m := m) (n := 2) hv (by omega) (by omega)
      obtain ⟨b₂, value, v₂, c₂⟩ := readUnsigned_some (m := m) (n := 4) v₁ (by omega)
        (by rw [c₁, List.length_drop]; omega)
      obtain ⟨i₁, i₀, w₃, w₂, w₁, w₀, rest, hc⟩ := six_bytes (b.content m) (by omega)
      rw [hc, List.take_succ_cons, List.take_succ_cons, List.take_zero] at id
      simp only [c₁, hc, List.drop_succ_cons, List.drop_zero, List.take_succ_cons,
        List.take_zero] at value c₂
      have shorter : (b₂.content m).length ≤ fuel := by
        rw [c₂]
        simp only [hc, List.length_cons] at hf
        omega
      have hl : length ≠ 0 := fun h => stop (Or.inl h)
      have enough : ¬ b.size < 6 := fun h => stop (Or.inr h)
      simp only [settingsLoop, enough, readU16, id, readU32, value, Option.bind_eq_bind,
        Option.bind_some, hc, Http2.settingsLoop, hl, or_self, if_false, ← c₂]
      by_cases known : bigEndian [i₁, i₀] ≥ settingsMax
      · simp only [known, if_true]
        exact ih v₂ shorter
      · simp only [known, if_false]
        cases settingError (bigEndian [i₁, i₀]) (bigEndian [w₃, w₂, w₁, w₀]) with
        | some e => exact ⟨_, rfl, v₂, rfl⟩
        | none =>
          obtain ⟨more, run, valid, same⟩ := @ih (length - 6) b₂ v₂ shorter
          simp only [run, Option.bind_some, ← same]
          exact ⟨_, rfl, valid, rfl⟩

theorem readSettingsFrame_refines {d : Decoder} {b : Buffer} (hv : b.Valid) :
    Refines m (readSettingsFrame m d b) (d.readSettingsFrame (b.content m)) := by
  unfold readSettingsFrame Decoder.readSettingsFrame
  by_cases h0 : d.length = 0
  · simp only [h0, if_true]
    exact ⟨_, rfl, hv, rfl⟩
  cases d.hasFlag .ack with
  | true =>
    simp only [h0, if_true, if_false]
    exact ⟨_, rfl, hv, rfl⟩
  | false =>
    by_cases h6 : d.length % 6 ≠ 0
    · simp only [h0, if_pos h6, if_false, Bool.false_eq_true]
      exact ⟨_, rfl, hv, rfl⟩
    by_cases hstream : d.streamId ≠ 0
    · simp only [h0, h6, if_pos hstream, if_false, Bool.false_eq_true]
      exact ⟨_, rfl, hv, rfl⟩
    obtain ⟨out, run, valid, same⟩ := @settingsLoop_refines m b.size d.length b hv
      (Nat.le_of_eq (hv.length_content m))
    simp only [h0, h6, hstream, if_false, Bool.false_eq_true, run, ← same, Option.bind_eq_bind,
      Option.bind_some, BufferSettings.flat]
    cases out.error with
    | some e => exact ⟨_, rfl, valid, rfl⟩
    | none =>
      refine ⟨_, rfl, valid, ?_⟩
      simp only [BufferPass.flat, valid.length_content m]

theorem readDataFrame_refines {d : Decoder} {b : Buffer} (hv : b.Valid) :
    Refines m (some (readDataFrame d b)) (d.readDataFrame (b.content m)) := by
  obtain ⟨valid, -, content⟩ := Buffer.skipBytes_spec hv d.length true
  refine ⟨_, rfl, valid, ?_⟩
  simp only [readDataFrame, Decoder.readDataFrame, BufferPass.flat, ← content,
    valid.length_content m]

theorem skipFrame_refines {d : Decoder} {b : Buffer} (hv : b.Valid) :
    Refines m (some (skipFrame d b)) (d.skipFrame (b.content m)) := by
  obtain ⟨valid, -, content⟩ := Buffer.skipBytes_spec hv d.length true
  refine ⟨_, rfl, valid, ?_⟩
  simp only [skipFrame, Decoder.skipFrame, BufferPass.flat, ← content, valid.length_content m]

theorem pass_refines {d : Decoder} {b : Buffer} (hv : b.Valid) :
    Refines m (pass m d b) (d.pass (b.content m)) := by
  unfold pass Decoder.pass
  cases d.state with
  | readConnectionPreface =>
    have whole := prefaceLoop_refines (d := d) hv (Nat.le_of_eq (hv.length_content m))
    exact ⟨_, rfl, whole.1, whole.2⟩
  | readFrameHeader => exact readFrameHeader_refines hv
  | readFramePadding => exact readFramePadding_refines hv
  | readDataFrame => exact readDataFrame_refines hv
  | readSettingsFrame =>
    obtain ⟨p, run, valid, same⟩ := readSettingsFrame_refines (m := m) (d := d) hv
    simp only [run, Option.bind_eq_bind, Option.bind_some, ← same]
    exact ⟨_, rfl, valid, rfl⟩
  | readHeadersFrame => exact skipFrame_refines hv
  | readPriorityFrame => exact skipFrame_refines hv
  | readRstStreamFrame => exact skipFrame_refines hv
  | readPushPromiseFrame => exact skipFrame_refines hv
  | readPingFrame => exact skipFrame_refines hv
  | readGoawayFrame => exact skipFrame_refines hv
  | readWindowUpdateFrame => exact skipFrame_refines hv
  | readContinuationFrame => exact skipFrame_refines hv
  | connectionError => exact ⟨_, rfl, hv, rfl⟩
  | other _ => exact ⟨_, rfl, hv, rfl⟩

/-- How the bytes are cut into fragments makes no difference to `decode`, and the reader
never unwraps nothing. -/
theorem decodeFuel_flat {fuel : Nat} {d : Decoder} {b : Buffer} (hv : b.Valid) :
    (∀ d' b' calls, decodeFuel m fuel d b = some (d', b', calls) → b'.Valid) ∧
      (decodeFuel m fuel d b).map (fun out => (out.1, out.2.1.content m, out.2.2)) =
        Decoder.decodeFuel fuel d (b.content m) := by
  induction fuel generalizing d b with
  | zero => exact ⟨by simp [decodeFuel], rfl⟩
  | succ fuel ih =>
    obtain ⟨p, run, valid, same⟩ := pass_refines (m := m) (d := d) hv
    simp only [decodeFuel, run, Option.bind_eq_bind, Option.bind_some, Decoder.decodeFuel, ← same,
      BufferPass.flat]
    cases p.loop with
    | false =>
      refine ⟨?_, rfl⟩
      intro d' b' calls h
      simp only [Bool.false_eq_true, if_false, Option.some.injEq, Prod.mk.injEq] at h
      obtain ⟨-, rfl, -⟩ := h
      exact valid
    | true =>
      obtain ⟨later, flat⟩ := ih (d := p.dec) valid
      simp only [if_true, ← flat]
      cases hd : decodeFuel m fuel p.dec p.rest with
      | none => exact ⟨by simp, rfl⟩
      | some out =>
        refine ⟨?_, rfl⟩
        intro d' b' calls h
        simp only [Option.bind_some, Option.some.injEq, Prod.mk.injEq] at h
        obtain ⟨-, rfl, -⟩ := h
        exact later _ _ _ hd

theorem decodeFuel_some {fuel : Nat} {d d' : Decoder} {b : Buffer} {rest : List UInt8}
    {calls : List Call} (hv : b.Valid)
    (h : Decoder.decodeFuel fuel d (b.content m) = some (d', rest, calls)) :
    ∃ b', decodeFuel m fuel d b = some (d', b', calls) ∧ b'.Valid ∧ b'.content m = rest := by
  obtain ⟨valid, flat⟩ := @decodeFuel_flat m fuel d b hv
  rw [h] at flat
  obtain ⟨⟨d₁, b', calls₁⟩, run, same⟩ := Option.map_eq_some_iff.mp flat
  obtain ⟨rfl, rest, rfl⟩ : d₁ = d' ∧ b'.content m = rest ∧ calls₁ = calls := by
    simpa only [Prod.mk.injEq] using same
  exact ⟨b', run, valid _ _ _ run, rest⟩

end InBuffer

end Decoder

end Http2

end XiRuntime
