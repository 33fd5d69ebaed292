import XiRuntime.Http2Grammar

namespace XiRuntime

namespace Http2

/-- The `n` bytes of a number, most significant first. -/
def bigEndianBytes : Nat → Nat → List UInt8
  | 0, _ => []
  | n + 1, v => bigEndianBytes n (v / 256) ++ [UInt8.ofNat v]

theorem bigEndian_snoc (bs : List UInt8) (b : UInt8) :
    bigEndian (bs ++ [b]) = bigEndian bs * 256 + b.toNat := by
  simp [bigEndian]

theorem bigEndianBytes_length (n v : Nat) : (bigEndianBytes n v).length = n := by
  induction n generalizing v with
  | zero => rfl
  | succ n ih => simp [bigEndianBytes, ih]

theorem bigEndian_bigEndianBytes {n v : Nat} (hv : v < 256 ^ n) :
    bigEndian (bigEndianBytes n v) = v := by
  induction n generalizing v with
  | zero =>
    have h0 : v = 0 := by simpa using hv
    rw [h0]
    rfl
  | succ n ih =>
    have hdiv : v / 256 < 256 ^ n := by
      rw [Nat.div_lt_iff_lt_mul (by decide), ← Nat.pow_succ]
      exact hv
    rw [bigEndianBytes, bigEndian_snoc, ih hdiv]
    have hb : (UInt8.ofNat v).toNat = v % 256 := by simp
    rw [hb]
    omega

/-- One entry of a SETTINGS frame: an id and a value. -/
structure Setting where
  id : UInt16
  value : UInt32
deriving DecidableEq, Repr

namespace Setting

def encode (s : Setting) : List UInt8 :=
  bigEndianBytes 2 s.id.toNat ++ bigEndianBytes 4 s.value.toNat

/-- The ids of `setting`. -/
def Known (s : Setting) : Prop := 1 ≤ s.id.toNat ∧ s.id.toNat < settingsMax

def Legal (s : Setting) : Prop := settingError s.id.toNat s.value.toNat = none

def received (s : Setting) : Call := .settingReceived s.id.toNat s.value.toNat

instance (s : Setting) : Decidable s.Known := inferInstanceAs (Decidable (_ ∧ _))

instance (s : Setting) : Decidable s.Legal := inferInstanceAs (Decidable (_ = _))

end Setting

def settingsPayload (entries : List Setting) : List UInt8 := entries.flatMap Setting.encode

/-- A SETTINGS frame on stream 0 without flags. -/
def settingsFrame (entries : List Setting) : List UInt8 :=
  bigEndianBytes 3 (6 * entries.length) ++ [4, 0] ++ bigEndianBytes 4 0 ++ settingsPayload entries

/-- What the delegate is to hear of a frame. -/
def settingsCalls (entries : List Setting) : List Call :=
  (entries.filter (fun s => s.Known)).map Setting.received ++ [.settingsEnd]

/-- The pass over the header and the pass over the entries give the frame back. -/
def SettingsDecoded (d : Decoder) (entries : List Setting) (tail : List UInt8) : Prop :=
  let head := d.pass (settingsFrame entries ++ tail)
  let done := head.dec.pass head.rest
  head.loop = true ∧ head.calls ++ done.calls = settingsCalls entries ∧ done.rest = tail ∧
    done.dec.state = .readFrameHeader

theorem settingsLoop_unknown {length : Nat} (hl : length ≠ 0) {s : Setting}
    (hs : settingsMax ≤ s.id.toNat) (rest : List UInt8) :
    settingsLoop length (s.encode ++ rest) = settingsLoop length rest := by
  have hid := bigEndian_bigEndianBytes (n := 2) s.id.toNat_lt
  simp only [bigEndianBytes, List.nil_append, List.cons_append] at hid
  simp only [Setting.encode, bigEndianBytes, List.nil_append, List.cons_append]
  exact settingsLoop_skipped hl rest (hid.symm ▸ hs)

theorem settingsLoop_legal {length : Nat} (hl : length ≠ 0) {s : Setting}
    (hs : s.id.toNat < settingsMax) (legal : s.Legal) (rest : List UInt8) :
    settingsLoop length (s.encode ++ rest) =
      { settingsLoop (length - 6) rest with
        calls := s.received :: (settingsLoop (length - 6) rest).calls } := by
  have hid := bigEndian_bigEndianBytes (n := 2) s.id.toNat_lt
  have hvalue := bigEndian_bigEndianBytes (n := 4) s.value.toNat_lt
  simp only [bigEndianBytes, List.nil_append, List.cons_append] at hid hvalue
  simp only [Setting.encode, bigEndianBytes, List.nil_append, List.cons_append]
  have known : ¬ settingsMax ≤ s.id.toNat := Nat.not_le.mpr hs
  rw [← hid] at known
  have good : settingError s.id.toNat s.value.toNat = none := legal
  rw [← hid, ← hvalue] at good
  rw [settingsLoop_taken hl rest known good, hid, hvalue, Setting.received]

/-- The ids that get past the test of the loop; 0 is one of them. -/
def Setting.Passes (s : Setting) : Prop := s.id.toNat < settingsMax

instance (s : Setting) : Decidable s.Passes := inferInstanceAs (Decidable (_ < _))

/-- The entries that do not pass leave `_length` as it is, so the loop goes on
behind the frame. -/
theorem settingsLoop_payload {entries : List Setting} (legal : ∀ s ∈ entries, s.Passes → s.Legal)
    (k : Nat) (tail : List UInt8) :
    settingsLoop (6 * (k + entries.length)) (settingsPayload entries ++ tail) =
      { settingsLoop (6 * (k + entries.countP (fun s => ¬ s.Passes))) tail with
        calls := (entries.filter (fun s => s.Passes)).map Setting.received ++
          (settingsLoop (6 * (k + entries.countP (fun s => ¬ s.Passes))) tail).calls } := by
  induction entries generalizing k with
  | nil => simp [settingsPayload]
  | cons s entries ih =>
    have htail : ∀ s' ∈ entries, s'.Passes → s'.Legal :=
      fun s' hs' => legal s' (List.mem_cons_of_mem _ hs')
    have hpos : 6 * (k + (s :: entries).length) ≠ 0 := by
      rw [List.length_cons]
      omega
    rw [settingsPayload, List.flatMap_cons, List.append_assoc]
    rw [settingsPayload] at ih
    by_cases hs : s.Passes
    · have hsub : 6 * (k + (s :: entries).length) - 6 = 6 * (k + entries.length) := by
        rw [List.length_cons]
        omega
      rw [settingsLoop_legal hpos hs (legal s List.mem_cons_self hs), hsub, ih htail k]
      simp [hs]
    · have hadd : 6 * (k + (s :: entries).length) = 6 * ((k + 1) + entries.length) := by
        rw [List.length_cons]
        omega
      have hcount : k + 1 + entries.countP (fun s => ¬ s.Passes) =
          k + (s :: entries).countP (fun s => ¬ s.Passes) := by
        rw [List.countP_cons_of_pos (by simpa using hs)]
        omega
      rw [settingsLoop_unknown hpos (Nat.not_lt.mp hs), hadd, ih htail (k + 1), hcount]
      simp [hs]

theorem settingsLoop_unread {length : Nat} {inp : List UInt8} (hl : length ≠ 0)
    (hrest : (settingsLoop length inp).rest = inp) :
    settingsLoop length inp = ⟨length, inp, [], none⟩ := by
  have hlen : (settingsLoop length inp).rest.length = inp.length := by rw [hrest]
  unfold settingsLoop at hlen ⊢
  split at hlen
  next i₁ i₀ v₃ v₂ v₁ v₀ rest =>
    -- at least the six bytes of this entry are gone
    exfalso
    simp only [hl, if_false] at hlen
    split at hlen
    next =>
      have hle := settingsLoop_rest_length length rest
      simp only [List.length_cons] at hlen
      omega
    next =>
      split at hlen
      next =>
        simp only [List.length_cons] at hlen
        omega
      next =>
        have hle := settingsLoop_rest_length (length - 6) rest
        simp only [List.length_cons] at hlen
        omega
  next => rfl

/-- The decoder behind the header of the frame. -/
def Decoder.atSettings (d : Decoder) (entries : List Setting) : Decoder :=
  { d with
    toFrameHeader := ⟨6 * entries.length, .settings, 0, 0⟩
    state := .readSettingsFrame }

section Frame

variable {entries : List Setting} (fits : 6 * entries.length < 2 ^ 24)
include fits

theorem headerOf_settingsFrame (tail : List UInt8) :
    headerOf (settingsFrame entries ++ tail) = ⟨6 * entries.length, .settings, 0, 0⟩ := by
  have hlen := bigEndian_bigEndianBytes (n := 3) fits
  simp only [bigEndianBytes, List.nil_append, List.cons_append] at hlen
  simp only [headerOf, settingsFrame, bigEndianBytes, List.nil_append, List.cons_append,
    List.take_succ_cons, List.take_zero, hlen]
  rfl

theorem validate_settingsFrame (tail : List UInt8) :
    (headerOf (settingsFrame entries ++ tail)).validate = .noError := by
  rw [headerOf_settingsFrame fits]
  have hlen : ¬ maxAllowedFrameSize ≤ 6 * entries.length := by
    simp only [maxAllowedFrameSize]
    omega
  simp [FrameHeader.validate, hlen, FrameHeader.isStreamIdValid, FrameHeader.isLengthValid,
    FrameHeader.hasFlag]

theorem pass_settingsFrame {d : Decoder} (hd : d.state = .readFrameHeader) (tail : List UInt8) :
    d.pass (settingsFrame entries ++ tail) =
      ⟨d.atSettings entries, settingsPayload entries ++ tail, [], true⟩ := by
  have hnine : (bigEndianBytes 3 (6 * entries.length) ++ [4, 0] ++ bigEndianBytes 4 0).length =
      frameHeaderSize := by simp [bigEndianBytes_length, frameHeaderSize]
  have hl : ¬ (settingsFrame entries ++ tail).length < frameHeaderSize := by
    rw [settingsFrame, List.length_append, List.length_append, hnine]
    omega
  rw [Decoder.pass_header_accepted hd hl (validate_settingsFrame fits tail)]
  rw [headerOf_settingsFrame fits]
  have hdrop : (settingsFrame entries ++ tail).drop frameHeaderSize = settingsPayload entries ++ tail := by
    rw [settingsFrame, List.append_assoc, List.drop_append_of_le_length (by rw [hnine]), ← hnine]
    simp
  rw [hdrop]
  simp [FrameHeader.hasFlag, FrameType.state, Decoder.atSettings]

end Frame

/-- The pass over the entries of a frame that has some. -/
theorem pass_atSettings (d : Decoder) {entries : List Setting} (hne : entries ≠ [])
    (inp : List UInt8) :
    ((d.atSettings entries).pass inp).rest = (settingsLoop (6 * entries.length) inp).rest ∧
      ((d.atSettings entries).pass inp).dec.state = .readFrameHeader ∧
      ((settingsLoop (6 * entries.length) inp).error = none →
        ((d.atSettings entries).pass inp).calls = (settingsLoop (6 * entries.length) inp).calls ++
          if (settingsLoop (6 * entries.length) inp).length = 0 then [.settingsEnd] else []) := by
  have hpos : 6 * entries.length ≠ 0 := by
    have := List.length_pos_iff.mpr hne
    omega
  have hknown : ∀ b, (d.atSettings entries).type ≠ .unknown b := by
    intro b h
    cases h
  obtain ⟨hr, hc, -, hs⟩ := @Decoder.pass_body (d.atSettings entries) inp rfl hknown
  have hack : (⟨6 * entries.length, .settings, 0, 0⟩ : FrameHeader).hasFlag .ack = false := by
    simp [FrameHeader.hasFlag]
  have hbody : body (d.atSettings entries).toFrameHeader inp =
      settingsBody ⟨6 * entries.length, .settings, 0, 0⟩ inp := rfl
  rw [hr, hc, hbody]
  refine ⟨?_, hs, ?_⟩
  · cases herr : (settingsLoop (6 * entries.length) inp).error <;>
      simp [settingsBody, hpos, hack, herr]
  · intro herr
    simp [settingsBody, hpos, hack, herr]

theorem settingsCalls_known {entries : List Setting} (hk : ∀ s ∈ entries, s.Known) :
    settingsCalls entries = entries.map Setting.received ++ [.settingsEnd] := by
  rw [settingsCalls, List.filter_eq_self.mpr (fun s hs => decide_eq_true (hk s hs))]

theorem legal_of_passes {s : Setting} (h : s.Known → s.Legal) (hp : s.Passes) : s.Legal := by
  by_cases h0 : s.id.toNat = 0
  · simp [Setting.Legal, settingError, h0]
  · exact h ⟨Nat.one_le_iff_ne_zero.mpr h0, hp⟩

theorem settingsLoop_all_pass {entries : List Setting} (legal : ∀ s ∈ entries, s.Passes → s.Legal)
    (hp : ∀ s ∈ entries, s.Passes) (tail : List UInt8) :
    settingsLoop (6 * entries.length) (settingsPayload entries ++ tail) =
      ⟨0, tail, entries.map Setting.received, none⟩ := by
  have hloop := settingsLoop_payload legal 0 tail
  have hcount : entries.countP (fun s => ¬ s.Passes) = 0 := by
    rw [List.countP_eq_zero]
    intro s hs
    simpa using hp s hs
  rw [hcount, Nat.zero_add, settingsLoop_zero] at hloop
  rw [hloop, List.filter_eq_self.mpr (fun s hs => decide_eq_true (hp s hs))]
  simp

/-- With an entry that does not pass the loop either eats into what follows the
frame or ends with some of `_length` left. -/
theorem settingsLoop_some_unknown {entries : List Setting}
    (legal : ∀ s ∈ entries, s.Passes → s.Legal) {u : Setting} (hu : u ∈ entries)
    (hp : ¬ u.Passes) {tail : List UInt8}
    (hrest : (settingsLoop (6 * entries.length) (settingsPayload entries ++ tail)).rest = tail) :
    (settingsLoop (6 * entries.length) (settingsPayload entries ++ tail)).length ≠ 0 ∧
      (settingsLoop (6 * entries.length) (settingsPayload entries ++ tail)).error = none ∧
      .settingsEnd ∉ (settingsLoop (6 * entries.length) (settingsPayload entries ++ tail)).calls := by
  have hcount : 0 < entries.countP (fun s => ¬ s.Passes) :=
    List.countP_pos_iff.mpr ⟨u, hu, by simpa using hp⟩
  have hloop := settingsLoop_payload legal 0 tail
  simp only [Nat.zero_add] at hloop
  rw [hloop] at hrest ⊢
  rw [settingsLoop_unread (by omega) hrest]
  refine ⟨by simp only; omega, rfl, ?_⟩
  simp [Setting.received]

namespace Decoder

variable {d : Decoder} (hd : d.state = .readFrameHeader)
include hd

/-- A SETTINGS frame is decoded as it was encoded exactly when it has entries and
all their ids are known. -/
theorem settings_decoded_iff {entries : List Setting} (fits : 6 * entries.length < 2 ^ 24)
    (legal : ∀ s ∈ entries, s.Known → s.Legal) (tail : List UInt8) :
    SettingsDecoded d entries tail ↔ entries ≠ [] ∧ ∀ s ∈ entries, s.Known := by
  have hlegal : ∀ s ∈ entries, s.Passes → s.Legal := fun s hs => legal_of_passes (legal s hs)
  simp only [SettingsDecoded, pass_settingsFrame fits hd tail]
  constructor
  · rintro ⟨-, hcalls, hrest, -⟩
    rw [List.nil_append] at hcalls
    have hne : entries ≠ [] := by
      rintro rfl
      simp [pass, atSettings, readSettingsFrame, FrameHeader.hasFlag, settingsCalls] at hcalls
    obtain ⟨hr, -, hc⟩ := pass_atSettings d hne (settingsPayload entries ++ tail)
    rw [hr] at hrest
    have hpasses : ∀ s ∈ entries, s.Passes := by
      intro u hu
      by_contra hp
      obtain ⟨hlen, herr, hend⟩ := settingsLoop_some_unknown hlegal hu hp hrest
      rw [hc herr, if_neg hlen, List.append_nil] at hcalls
      rw [hcalls] at hend
      simp [settingsCalls] at hend
    rw [settingsLoop_all_pass hlegal hpasses tail] at hc
    rw [hc rfl] at hcalls
    simp only [if_true, settingsCalls] at hcalls
    have hlen := congrArg List.length hcalls
    simp only [List.length_append, List.length_map, List.length_singleton] at hlen
    have hfilter : (entries.filter (fun s => s.Known)).length = entries.length := by omega
    refine ⟨hne, ?_⟩
    intro s hs
    exact of_decide_eq_true (List.length_filter_eq_length_iff.mp hfilter s hs)
  · rintro ⟨hne, hk⟩
    obtain ⟨hr, hs, hc⟩ := pass_atSettings d hne (settingsPayload entries ++ tail)
    rw [settingsLoop_all_pass hlegal (fun s hs => (hk s hs).2) tail] at hr hc
    refine ⟨trivial, ?_, hr, hs⟩
    rw [List.nil_append, hc rfl, settingsCalls_known hk]
    simp

end Decoder

/-- SETTINGS_MAX_CONCURRENT_STREAMS and SETTINGS_ENABLE_PUSH in one frame, and
the first bytes of the next one behind it. -/
theorem settings_decoded_two :
    SettingsDecoded { Decoder.init with state := .readFrameHeader } [⟨3, 100⟩, ⟨2, 1⟩] [0, 0, 6] :=
  (Decoder.settings_decoded_iff (d := { Decoder.init with state := .readFrameHeader }) rfl
    (by decide) (by decide) [0, 0, 6]).mpr (by decide)

/-- A frame with the unknown id 7: `settings_end` is not called. -/
theorem settings_not_decoded_unknown :
    ¬ ∀ (entries : List Setting) (tail : List UInt8) (d : Decoder), d.state = .readFrameHeader →
      6 * entries.length < 2 ^ 24 → (∀ s ∈ entries, s.Known → s.Legal) →
        SettingsDecoded d entries tail := by
  intro h
  have hdec := h [⟨7, 1⟩] [] { Decoder.init with state := .readFrameHeader } rfl (by decide) (by decide)
  exact absurd hdec.2.1 (by decide)

end Http2

end XiRuntime
