import Mathlib.Algebra.Order.Ring.Nat

namespace XiRuntime

namespace Http2

/-- `frame`, read from one raw byte; `unknown` are the values above `MAX_KNOWN_FRAME`. -/
inductive FrameType
  | data
  | headers
  | priority
  | rstStream
  | settings
  | pushPromise
  | ping
  | goaway
  | windowUpdate
  | continuation
  | unknown (b : UInt8)
deriving DecidableEq, Repr

def FrameType.ofByte : UInt8 → FrameType
  | 0x00 => .data
  | 0x01 => .headers
  | 0x02 => .priority
  | 0x03 => .rstStream
  | 0x04 => .settings
  | 0x05 => .pushPromise
  | 0x06 => .ping
  | 0x07 => .goaway
  | 0x08 => .windowUpdate
  | 0x09 => .continuation
  | b => .unknown b

/-- `state`; `other` are the values without an enumerator, for which the switch
in `decode` has no case. -/
inductive State
  | readConnectionPreface
  | readFrameHeader
  | readFramePadding
  | readDataFrame
  | readHeadersFrame
  | readPriorityFrame
  | readRstStreamFrame
  | readSettingsFrame
  | readPushPromiseFrame
  | readPingFrame
  | readGoawayFrame
  | readWindowUpdateFrame
  | readContinuationFrame
  | connectionError
  | other (b : UInt8)
deriving DecidableEq, Repr

/-- `get_state_from_type`: the type byte with the high nibble set. -/
def FrameType.state : FrameType → State
  | .data => .readDataFrame
  | .headers => .readHeadersFrame
  | .priority => .readPriorityFrame
  | .rstStream => .readRstStreamFrame
  | .settings => .readSettingsFrame
  | .pushPromise => .readPushPromiseFrame
  | .ping => .readPingFrame
  | .goaway => .readGoawayFrame
  | .windowUpdate => .readWindowUpdateFrame
  | .continuation => .readContinuationFrame
  | .unknown b => if b ||| 0xF0 = 0xFF then .connectionError else .other (b ||| 0xF0)

inductive Flag
  | ack
  | padded
  | priority
deriving DecidableEq, Repr

def Flag.bits : Flag → UInt8
  | .ack => 0x01
  | .padded => 0x08
  | .priority => 0x20

/-- The members of `error` that the decoder reports. -/
inductive Error
  | noError
  | protocolError
  | flowControlError
  | frameSizeError
deriving DecidableEq, Repr

def frameHeaderSize : Nat := 9
def maxAllowedFrameSize : Nat := 2 ^ 24 - 1
def maxAllowedWindowSize : Nat := 2 ^ 31 - 1

/-- The code for `SETTINGS_MAX`. -/
def settingsMax : Nat := 7

structure FrameHeader where
  length : Nat
  type : FrameType
  flags : UInt8
  streamId : Nat
deriving DecidableEq, Repr

namespace FrameHeader

def hasFlag (h : FrameHeader) (f : Flag) : Bool := h.flags &&& f.bits != 0

def isStreamIdValid (h : FrameHeader) : Bool :=
  match h.type with
  | .data | .headers | .priority | .rstStream | .pushPromise => h.streamId != 0
  | .settings | .ping | .goaway => h.streamId == 0
  | _ => true

/-- `_length >= has_flag(PADDED) ? 1 : 0` compares with the flag as 0 or 1 and
then picks a number; the number is what is tested. -/
def isLengthValid (h : FrameHeader) : Bool :=
  match h.type with
  | .data => (if h.length ≥ (h.hasFlag .padded).toNat then 1 else 0) != 0
  | .headers =>
    let minLength := if h.hasFlag .padded then 1 else 0
    h.length ≥ if h.hasFlag .priority then minLength + 5 else minLength
  | .priority => h.length == 5
  | .rstStream => h.length == 4
  | .settings => if h.hasFlag .ack then h.length == 0 else h.length % 6 == 0
  | .pushPromise => (if h.length ≥ (h.hasFlag .padded).toNat then 5 else 4) != 0
  | .ping => h.length == 8
  | .goaway => h.length ≥ 8
  | .windowUpdate => h.length == 4
  | _ => true

def validate (h : FrameHeader) : Error :=
  if h.length ≥ maxAllowedFrameSize then .frameSizeError
  else
    match h.type with
    | .unknown _ => .protocolError
    | _ =>
      if !h.isStreamIdValid then .protocolError
      else if !h.isLengthValid then .frameSizeError
      else .noError

end FrameHeader

/-- Big-endian value of some bytes. -/
def bigEndian (bs : List UInt8) : Nat := bs.foldl (fun n b => n * 256 + b.toNat) 0

/-- `read_value_and_skip` of `n` bytes from a buffer that has them. -/
def readBytes (n : Nat) (inp : List UInt8) : List UInt8 × List UInt8 := (inp.take n, inp.drop n)

def readU24 (inp : List UInt8) : Nat × List UInt8 := (readBytes 3 inp).map bigEndian id
def readU32 (inp : List UInt8) : Nat × List UInt8 := (readBytes 4 inp).map bigEndian id
def readU8 (inp : List UInt8) : UInt8 × List UInt8 := (readBytes 1 inp).map (·.headD 0) id

inductive Call
  | settingReceived (id value : Nat)
  | settingsEnd
  | settingsAck
  | sendConnectionError (e : Error)
deriving DecidableEq, Repr

/-- The checks on the value of a known setting. -/
def settingError (id value : Nat) : Option Error :=
  if id = 2 then if value > 1 then some .protocolError else none
  else if id = 4 then if value > maxAllowedWindowSize then some .flowControlError else none
  else if id = 5 then if value > maxAllowedFrameSize then some .protocolError else none
  else none

/-- What the loop over the entries of a SETTINGS frame leaves: `_length`, the
buffer, the calls made and the error raised. -/
structure SettingsLoop where
  length : Nat
  rest : List UInt8
  calls : List Call
  error : Option Error
deriving DecidableEq, Repr

/-- `while (_length && in->size() >= 6)`. An unknown setting is skipped by
`continue`, before `_length` is decremented. -/
def settingsLoop (length : Nat) : List UInt8 → SettingsLoop
  | i₁ :: i₀ :: v₃ :: v₂ :: v₁ :: v₀ :: rest =>
    if length = 0 then ⟨length, i₁ :: i₀ :: v₃ :: v₂ :: v₁ :: v₀ :: rest, [], none⟩
    else
      let id := bigEndian [i₁, i₀]
      let value := bigEndian [v₃, v₂, v₁, v₀]
      if id ≥ settingsMax then settingsLoop length rest
      else
        match settingError id value with
        | some e => ⟨length, rest, [], some e⟩
        | none =>
          let more := settingsLoop (length - 6) rest
          { more with calls := .settingReceived id value :: more.calls }
  | inp => ⟨length, inp, [], none⟩

section Entry

variable {length : Nat} {i₁ i₀ v₃ v₂ v₁ v₀ : UInt8} (more : length ≠ 0) (rest : List UInt8)
include more

theorem settingsLoop_skipped (unknown : bigEndian [i₁, i₀] ≥ settingsMax) :
    settingsLoop length (i₁ :: i₀ :: v₃ :: v₂ :: v₁ :: v₀ :: rest) = settingsLoop length rest := by
  rw [settingsLoop]
  simp only [more, if_false, unknown, if_true]

theorem settingsLoop_refused (known : ¬ bigEndian [i₁, i₀] ≥ settingsMax) {e : Error}
    (bad : settingError (bigEndian [i₁, i₀]) (bigEndian [v₃, v₂, v₁, v₀]) = some e) :
    settingsLoop length (i₁ :: i₀ :: v₃ :: v₂ :: v₁ :: v₀ :: rest) =
      ⟨length, rest, [], some e⟩ := by
  rw [settingsLoop]
  simp only [more, if_false, known, bad]

theorem settingsLoop_taken (known : ¬ bigEndian [i₁, i₀] ≥ settingsMax)
    (good : settingError (bigEndian [i₁, i₀]) (bigEndian [v₃, v₂, v₁, v₀]) = none) :
    settingsLoop length (i₁ :: i₀ :: v₃ :: v₂ :: v₁ :: v₀ :: rest) =
      { settingsLoop (length - 6) rest with
        calls := .settingReceived (bigEndian [i₁, i₀]) (bigEndian [v₃, v₂, v₁, v₀]) ::
          (settingsLoop (length - 6) rest).calls } := by
  rw [settingsLoop]
  simp only [more, if_false, known, good]

end Entry

structure Decoder extends FrameHeader where
  state : State
  padding : UInt8
deriving DecidableEq, Repr

def Decoder.init : Decoder where
  length := 0
  type := .unknown 0xFF
  flags := 0
  streamId := 0
  state := .readConnectionPreface
  padding := 0

/-- One pass of the loop in `decode`: the decoder and the buffer afterwards, the
delegate calls and the value of `loop`. -/
structure Pass where
  dec : Decoder
  rest : List UInt8
  calls : List Call
  loop : Bool
deriving DecidableEq, Repr

namespace Decoder

/-- `"PRI * HTTP/2.0\r\n\r\nSM\r\n\r\n"`. -/
def initiationString : List UInt8 :=
  [80, 82, 73, 32, 42, 32, 72, 84, 84, 80, 47, 50, 46, 48, 13, 10, 13, 10, 83, 77, 13, 10, 13, 10]

def connectionPrefaceLength : Nat := initiationString.length

def transitionToError (d : Decoder) (rest : List UInt8) (calls : List Call) (e : Error) : Pass :=
  ⟨{ d with state := .connectionError }, rest, calls ++ [.sendConnectionError e], false⟩

def readConnectionPreface (d : Decoder) : List UInt8 → Pass
  | [] => ⟨d, [], [], true⟩
  | b :: rest =>
    let d' := { d with length := d.length + 1 }
    if initiationString[d.length]? ≠ some b then d'.transitionToError rest [] .protocolError
    else if d'.length = connectionPrefaceLength then
      ⟨{ d' with state := .readFrameHeader }, rest, [], false⟩
    else readConnectionPreface d' rest

def readFramePadding (d : Decoder) : List UInt8 → Pass
  | [] => ⟨d, [], [], true⟩
  | p :: rest =>
    ⟨{ d with padding := p, state := d.type.state, length := (d.length + (2 ^ 32 - 1)) % 2 ^ 32 },
      rest, [], true⟩

def readSettingsFrame (d : Decoder) (inp : List UInt8) : Pass :=
  let ack := d.hasFlag .ack
  if d.length = 0 then
    ⟨{ d with state := .readFrameHeader }, inp, if ack then [.settingsAck] else [], false⟩
  else if ack then d.transitionToError inp [] .frameSizeError
  else if d.length % 6 ≠ 0 then d.transitionToError inp [] .protocolError
  else if d.streamId ≠ 0 then d.transitionToError inp [] .protocolError
  else
    let out := settingsLoop d.length inp
    let d' := { d with length := out.length }
    match out.error with
    | some e => d'.transitionToError out.rest out.calls e
    | none =>
      ⟨d', out.rest, out.calls ++ if out.length = 0 then [.settingsEnd] else [],
        out.rest.length > out.length⟩

def readDataFrame (d : Decoder) (inp : List UInt8) : Pass :=
  let rest := inp.drop d.length
  ⟨{ d with state := .readFrameHeader }, rest, [], rest.length > 0⟩

/-- The frames whose payload is skipped in the switch itself. -/
def skipFrame (d : Decoder) (inp : List UInt8) : Pass :=
  let rest := inp.drop d.length
  ⟨{ d with state := .readFrameHeader }, rest, [], rest.length > d.length⟩

def readFrameHeader (d : Decoder) (inp : List UInt8) : Pass :=
  if inp.length < frameHeaderSize then ⟨d, inp, [], false⟩
  else
    let (length, inp) := readU24 inp
    let (type, inp) := readU8 inp
    let (flags, inp) := readU8 inp
    let (streamId, inp) := readU32 inp
    let h : FrameHeader := ⟨length, .ofByte type, flags, streamId⟩
    let d' : Decoder := { d with toFrameHeader := h }
    let err := h.validate
    if err ≠ .noError then d'.transitionToError inp [] err
    else
      ⟨{ d' with state := if h.hasFlag .padded then .readFramePadding else h.type.state }, inp, [], true⟩

/-- The body of the loop in `decode`. -/
def pass (d : Decoder) (inp : List UInt8) : Pass :=
  match d.state with
  | .readConnectionPreface => d.readConnectionPreface inp
  | .readFrameHeader => d.readFrameHeader inp
  | .readFramePadding => d.readFramePadding inp
  | .readDataFrame => d.readDataFrame inp
  | .readSettingsFrame =>
    let p := d.readSettingsFrame inp
    { p with dec := { p.dec with state := .readFrameHeader } }
  | .readHeadersFrame | .readPriorityFrame | .readRstStreamFrame | .readPushPromiseFrame
  | .readPingFrame | .readGoawayFrame | .readWindowUpdateFrame | .readContinuationFrame =>
    d.skipFrame inp
  | .connectionError => ⟨d, inp, [], false⟩
  | .other _ => ⟨d, inp, [], true⟩

/-- `decode`, cut off after `fuel` passes of its loop. -/
def decodeFuel : Nat → Decoder → List UInt8 → Option (Decoder × List UInt8 × List Call)
  | 0, _, _ => none
  | fuel + 1, d, inp =>
    let p := d.pass inp
    if p.loop then do
      let (d', rest, calls) ← decodeFuel fuel p.dec p.rest
      some (d', rest, p.calls ++ calls)
    else some (p.dec, p.rest, p.calls)

/-- `decode` returns. -/
def Decodes (d : Decoder) (inp : List UInt8) (d' : Decoder) (rest : List UInt8)
    (calls : List Call) : Prop :=
  ∃ fuel, decodeFuel fuel d inp = some (d', rest, calls)

def Terminates (d : Decoder) (inp : List UInt8) : Prop := ∃ fuel, (decodeFuel fuel d inp).isSome

end Decoder

end Http2

end XiRuntime
