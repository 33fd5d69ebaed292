import Mathlib.Data.List.GetD
import XiRuntime.Http2Feed
import XiRuntime.Http2Termination

namespace XiRuntime

namespace Http2

/-- The bytes end between two frames, inside a header, or somewhere behind a
header that is refused: no frame is left with a part of its payload. -/
inductive Aligned : List UInt8 → Prop
  | short {inp : List UInt8} : parse inp = .short → Aligned inp
  | rejected {inp : List UInt8} {e : Error} : parse inp = .rejected e → Aligned inp
  | frame {inp : List UInt8} {b : Body} : parse inp = .frame b → b.whole = true → Aligned b.rest →
      Aligned inp

/-- Every cut between two chunks is aligned. -/
def AlignedCuts (chunks : List (List UInt8)) : Prop :=
  ∀ k < chunks.length, Aligned (chunks.take k).flatten

/-- More bytes are read where the loop stopped. -/
theorem settingsLoop_append {length : Nat} {inp : List UInt8} (t : List UInt8)
    (h : (settingsLoop length inp).error = none) :
    settingsLoop length (inp ++ t) =
      { settingsLoop (settingsLoop length inp).length ((settingsLoop length inp).rest ++ t) with
        calls := (settingsLoop length inp).calls ++
          (settingsLoop (settingsLoop length inp).length ((settingsLoop length inp).rest ++ t)).calls } := by
  fun_induction settingsLoop length inp with
  | case1 => simp
  | case2 length i₁ i₀ v₃ v₂ v₁ v₀ rest h0 id hid ih =>
    simp only [List.cons_append]
    rw [settingsLoop_skipped h0 _ hid]
    exact ih h
  | case3 length i₁ i₀ v₃ v₂ v₁ v₀ rest h0 id value hid e he => simp at h
  | case4 length i₁ i₀ v₃ v₂ v₁ v₀ rest h0 id value hid he more ih =>
    simp only [List.cons_append]
    rw [settingsLoop_taken h0 _ hid he, ih h]
  | case5 => simp

theorem settingsLoop_append_error {length : Nat} {inp : List UInt8} (t : List UInt8) {e : Error}
    (h : (settingsLoop length inp).error = some e) :
    settingsLoop length (inp ++ t) =
      { settingsLoop length inp with rest := (settingsLoop length inp).rest ++ t } := by
  fun_induction settingsLoop length inp with
  | case1 => simp at h
  | case2 length i₁ i₀ v₃ v₂ v₁ v₀ rest h0 id hid ih =>
    simp only [List.cons_append]
    rw [settingsLoop_skipped h0 _ hid]
    exact ih h
  | case3 length i₁ i₀ v₃ v₂ v₁ v₀ rest h0 id value hid e' he =>
    simp only [List.cons_append]
    rw [settingsLoop_refused h0 _ hid he]
  | case4 length i₁ i₀ v₃ v₂ v₁ v₀ rest h0 id value hid he more ih =>
    simp only [List.cons_append]
    rw [settingsLoop_taken h0 _ hid he, ih h]
  | case5 => simp at h

/-- The loop only stops short of its length when an entry is incomplete. -/
theorem settingsLoop_incomplete {length : Nat} {inp : List UInt8}
    (h : (settingsLoop length inp).error = none) (hl : (settingsLoop length inp).length ≠ 0) :
    (settingsLoop length inp).rest.length < 6 := by
  fun_induction settingsLoop length inp with
  | case1 => contradiction
  | case2 length i₁ i₀ v₃ v₂ v₁ v₀ rest h0 id hid ih => exact ih h hl
  | case3 => simp at h
  | case4 length i₁ i₀ v₃ v₂ v₁ v₀ rest h0 id value hid he more ih => exact ih h hl
  | case5 length inp hshort =>
    by_contra hlong
    rcases inp with _ | ⟨i₁, _ | ⟨i₀, _ | ⟨v₃, _ | ⟨v₂, _ | ⟨v₁, _ | ⟨v₀, rest⟩⟩⟩⟩⟩⟩
    case cons.cons.cons.cons.cons.cons => exact hshort _ _ _ _ _ _ _ rfl
    all_goals simp at hlong

/-- The SETTINGS frames whose entries are looked at. -/
def FrameHeader.HasEntries (h : FrameHeader) : Prop :=
  h.length ≠ 0 ∧ h.hasFlag .ack = false ∧ h.length % 6 = 0 ∧ h.streamId = 0

theorem settingsBody_entries {h : FrameHeader} (hh : h.HasEntries) (payload : List UInt8) :
    settingsBody h payload =
      match (settingsLoop h.length payload).error with
      | some e => ⟨(settingsLoop h.length payload).rest,
          (settingsLoop h.length payload).calls ++ [.sendConnectionError e], false, true⟩
      | none => ⟨(settingsLoop h.length payload).rest,
          (settingsLoop h.length payload).calls ++
            if (settingsLoop h.length payload).length = 0 then [.settingsEnd] else [],
          (settingsLoop h.length payload).rest.length > (settingsLoop h.length payload).length,
          (settingsLoop h.length payload).length == 0⟩ := by
  obtain ⟨h0, ha, h6, hs⟩ := hh
  cases he : (settingsLoop h.length payload).error <;>
    simp [settingsBody, h0, ha, h6, hs, he]

theorem settingsBody_other {h : FrameHeader} (hh : ¬ h.HasEntries) :
    ∃ calls loop, (∀ id v, Call.settingReceived id v ∉ calls) ∧
      ∀ payload, settingsBody h payload = ⟨payload, calls, loop, true⟩ := by
  unfold settingsBody
  by_cases h0 : h.length = 0
  · refine ⟨if h.hasFlag .ack then [.settingsAck] else [], false, ?_, fun payload => by simp [h0]⟩
    intro id v
    split <;> simp
  by_cases ha : h.hasFlag .ack = true
  · exact ⟨[.sendConnectionError .frameSizeError], false, by simp, fun payload => by simp [h0, ha]⟩
  by_cases h6 : h.length % 6 = 0
  · by_cases hs : h.streamId = 0
    · exact absurd ⟨h0, by simpa using ha, h6, hs⟩ hh
    · exact ⟨[.sendConnectionError .protocolError], false, by simp,
        fun payload => by simp [h0, ha, h6, hs]⟩
  · exact ⟨[.sendConnectionError .protocolError], false, by simp, fun payload => by simp [h0, ha, h6]⟩

theorem settingsBody_append {h : FrameHeader} {payload : List UInt8} (t : List UInt8)
    (hw : (settingsBody h payload).whole = true) :
    (settingsBody h (payload ++ t)).rest = (settingsBody h payload).rest ++ t ∧
      (settingsBody h (payload ++ t)).calls = (settingsBody h payload).calls := by
  by_cases hh : h.HasEntries
  · rw [settingsBody_entries hh] at hw ⊢
    rw [settingsBody_entries hh]
    cases he : (settingsLoop h.length payload).error with
    | some e =>
      rw [settingsLoop_append_error t he]
      simp [he]
    | none =>
      simp only [he, beq_iff_eq] at hw
      have happ := settingsLoop_append t he
      rw [hw, settingsLoop_zero] at happ
      rw [happ]
      simp [hw]
  · obtain ⟨calls, loop, -, heq⟩ := settingsBody_other hh
    simp [heq]

theorem body_append {h : FrameHeader} {payload : List UInt8} (t : List UInt8)
    (hw : (body h payload).whole = true) :
    (body h (payload ++ t)).rest = (body h payload).rest ++ t ∧
      (body h (payload ++ t)).calls = (body h payload).calls := by
  unfold body at hw ⊢
  split
  next hset =>
    simp only [hset, if_true] at hw
    exact settingsBody_append t hw
  next hset =>
    simp only [hset, if_false, opaqueBody, decide_eq_true_eq] at hw
    exact ⟨List.drop_append_of_le_length hw, rfl⟩

theorem headerOf_append {inp : List UInt8} (h : ¬ inp.length < frameHeaderSize) (t : List UInt8) :
    headerOf (inp ++ t) = headerOf inp := by
  have h9 : 9 ≤ inp.length := Nat.le_of_not_lt h
  unfold headerOf
  rw [List.take_append_of_le_length (by omega), List.drop_append_of_le_length (by omega),
    List.take_append_of_le_length (by rw [List.length_drop]; omega),
    List.getD_append _ _ _ _ (by omega), List.getD_append _ _ _ _ (by omega)]

theorem parse_append {inp : List UInt8} (h : ¬ inp.length < frameHeaderSize) (t : List UInt8) :
    parse (inp ++ t) =
      if (headerOf inp).validate ≠ .noError then .rejected (headerOf inp).validate
      else if (headerOf inp).hasFlag .padded then
        match inp.drop frameHeaderSize ++ t with
        | [] => .stalled
        | _ :: payload => .frame (body (headerOf inp).unpad payload)
      else .frame (body (headerOf inp) (inp.drop frameHeaderSize ++ t)) := by
  have hlen : ¬ (inp ++ t).length < frameHeaderSize := by
    rw [List.length_append]
    omega
  have hdrop : (inp ++ t).drop frameHeaderSize = inp.drop frameHeaderSize ++ t :=
    List.drop_append_of_le_length (Nat.le_of_not_lt h)
  cases hd : inp.drop frameHeaderSize ++ t <;>
    simp only [parse, if_neg hlen, headerOf_append h t, hdrop, hd]

theorem parse_append_rejected {inp : List UInt8} {e : Error} (h : parse inp = .rejected e)
    (t : List UInt8) : parse (inp ++ t) = .rejected e := by
  obtain ⟨hl, hv, rfl⟩ := Decoder.parse_rejected h
  rw [parse_append hl t, if_pos hv]

/-- The header and the payload that an accepted frame is made of. -/
theorem parse_frame_cases {inp : List UInt8} {b : Body} (h : parse inp = .frame b) :
    ∃ hd payload, b = body hd payload ∧ payload.length + frameHeaderSize ≤ inp.length ∧
      ∀ t, parse (inp ++ t) = .frame (body hd (payload ++ t)) := by
  obtain ⟨hl, hv⟩ := Decoder.parse_accepted (Or.inr ⟨b, h⟩)
  have hlen : (inp.drop frameHeaderSize).length + frameHeaderSize = inp.length := by
    rw [List.length_drop]
    omega
  unfold parse at h
  simp only [hl, if_false, hv, ne_eq, not_true_eq_false] at h
  by_cases hpad : (headerOf inp).hasFlag .padded = true
  · simp only [hpad, if_true] at h
    cases hd : inp.drop frameHeaderSize with
    | nil => simp [hd] at h
    | cons p payload =>
      simp only [hd, Parsed.frame.injEq] at h
      rw [hd, List.length_cons] at hlen
      refine ⟨(headerOf inp).unpad, payload, h.symm, by omega, ?_⟩
      intro t
      simp [parse_append hl t, hv, hpad, hd]
  · rw [if_neg hpad, Parsed.frame.injEq] at h
    refine ⟨headerOf inp, inp.drop frameHeaderSize, h.symm, Nat.le_of_eq hlen, ?_⟩
    intro t
    simp [parse_append hl t, hv, hpad]

theorem parse_append_frame {inp : List UInt8} {b : Body} (h : parse inp = .frame b)
    (hw : b.whole = true) (t : List UInt8) :
    ∃ b', parse (inp ++ t) = .frame b' ∧ b'.rest = b.rest ++ t ∧ b'.calls = b.calls := by
  obtain ⟨hd, payload, rfl, -, happ⟩ := parse_frame_cases h
  obtain ⟨hrest, hcalls⟩ := body_append t hw
  exact ⟨_, happ t, hrest, hcalls⟩

/-- Behind an aligned cut the bytes go on as if there had been none. -/
theorem drain_append {p t : List UInt8} {st st' : Standing} {cs cs' : List Call} (ha : Aligned p)
    (hp : Drain p st cs)
    (ht : (∃ q, st = .waiting q ∧ Drain (q ++ t) st' cs') ∨ (st = .failed ∧ st' = .failed ∧ cs' = [])) :
    Drain (p ++ t) st' (cs ++ cs') := by
  induction hp with
  | @waiting inp hs =>
    rcases ht with ⟨q, hq, hd⟩ | ⟨hf, -⟩
    · cases hq
      exact hd
    · cases hf
  | @failed inp e he =>
    rcases ht with ⟨q, hq, -⟩ | ⟨-, rfl, rfl⟩
    · cases hq
    · exact .failed (parse_append_rejected he t)
  | hung hs => cases ha <;> simp_all
  | @frame inp b st cs hb hd ih =>
    cases ha with
    | short hs => simp [hb] at hs
    | rejected hr => simp [hb] at hr
    | frame hb' hw har =>
      rw [hb] at hb'
      cases Parsed.frame.inj hb'
      obtain ⟨b', hparse, hrest, hcalls⟩ := parse_append_frame hb hw t
      rw [List.append_assoc, ← hcalls]
      refine .frame hparse ?_
      rw [hrest]
      exact ih har ht

theorem not_drain_hung {p : List UInt8} {cs : List Call} (ha : Aligned p) : ¬ Drain p .hung cs := by
  intro hd
  induction ha generalizing cs with
  | short hs => cases hd <;> simp_all
  | rejected hr => cases hd <;> simp_all
  | frame hb hw har ih =>
    cases hd with
    | hung hs => simp [hb] at hs
    | frame hb' hd' =>
      rw [hb] at hb'
      cases Parsed.frame.inj hb'
      exact ih hd'

/-- Chunks cut at aligned places come to what their concatenation comes to. -/
theorem feeds_flatten {chunks : List (List UInt8)} {p : List UInt8} {st : Standing}
    {cs cs' : List Call} (hp : Drain p st cs)
    (hcuts : ∀ k < chunks.length, Aligned (p ++ (chunks.take k).flatten))
    (hf : Feeds st chunks cs') : ∃ st', Drain (p ++ chunks.flatten) st' (cs ++ cs') := by
  induction chunks generalizing p st cs cs' with
  | nil =>
    have hnil : cs' = [] := by cases hf <;> rfl
    subst hnil
    exact ⟨st, by simpa using hp⟩
  | cons c chunks ih =>
    have ha : Aligned p := by simpa using hcuts 0 (by simp)
    cases hf with
    | @chunk q _ _ st₁ now later hd hf =>
      have hpc : Drain (p ++ c) st₁ (cs ++ now) := drain_append ha hp (Or.inl ⟨q, rfl, hd⟩)
      have hnext : ∀ k < chunks.length, Aligned ((p ++ c) ++ (chunks.take k).flatten) := by
        intro k hk
        have h := hcuts (k + 1) (by simpa using hk)
        simpa using h
      obtain ⟨st', hd'⟩ := ih hpc hnext hf
      exact ⟨st', by simpa using hd'⟩
    | failed => exact ⟨.failed, drain_append ha hp (Or.inr ⟨rfl, rfl, rfl⟩)⟩
    | hung => exact absurd hp (not_drain_hung ha)

theorem feeds_single {inp : List UInt8} {st : Standing} {cs : List Call} (h : Drain inp st cs) :
    Feeds (.waiting []) [inp] cs := by
  have hend : Feeds st [] [] := by
    cases st with
    | waiting buf => exact .done
    | failed => exact .failed
    | hung => exact .hung
  have hfeed : Feeds (.waiting []) [inp] (cs ++ []) := .chunk h hend
  rwa [List.append_nil] at hfeed

theorem sameCallbacks_of_aligned {d : Decoder} (hd : d.state = .readFrameHeader)
    {chunks : List (List UInt8)} (h : AlignedCuts chunks) : Feed.SameCallbacks d chunks := by
  obtain ⟨cs, hf⟩ := feeds_total chunks (.waiting [])
  have hnil : Drain [] (.waiting []) [] := .waiting rfl
  obtain ⟨st, hdrain⟩ := feeds_flatten hnil (by simpa [AlignedCuts] using h) hf
  refine ⟨cs, (Feed.emits_iff_feeds hd).mpr hf, (Feed.emits_iff_feeds hd).mpr ?_⟩
  exact feeds_single (by simpa using hdrain)

theorem parse_short {inp : List UInt8} (h : inp.length < frameHeaderSize) : parse inp = .short := by
  simp [parse, h]

theorem body_small {h : FrameHeader} {payload : List UInt8} (hl : payload.length < 6) (id v : Nat) :
    Call.settingReceived id v ∉ (body h payload).calls := by
  unfold body
  split
  next =>
    by_cases hh : h.HasEntries
    · rw [settingsBody_entries hh, settingsLoop_short hl]
      simp only [List.nil_append]
      split <;> simp
    · obtain ⟨calls, loop, hcalls, heq⟩ := settingsBody_other hh
      rw [heq]
      exact hcalls id v
  next => simp [opaqueBody]

/-- A header and less than one entry cannot deliver a setting. -/
theorem drain_small {inp : List UInt8} {st : Standing} {cs : List Call} (hl : inp.length < 15)
    (h : Drain inp st cs) (id v : Nat) : Call.settingReceived id v ∉ cs := by
  cases h with
  | waiting => simp
  | failed => simp
  | hung => simp
  | @frame _ b _ calls hp hd =>
    have hrest := parse_frame_rest_length hp
    obtain ⟨hh, payload, rfl, hpay, -⟩ := parse_frame_cases hp
    simp only [frameHeaderSize] at hrest hpay
    have hshort : parse (body hh payload).rest = .short :=
      parse_short (by simp only [frameHeaderSize]; omega)
    have hnil : calls = [] := by cases hd <;> simp_all
    rw [hnil, List.append_nil]
    exact body_small (by omega) id v

/-- The two ways of sending `p` and `t` make different calls. -/
def TellsApart (p t : List UInt8) : Prop :=
  ∃ st cs cs₁ st' cs', Drain p st cs ∧ Feeds st [t] cs₁ ∧ Drain (p ++ t) st' cs' ∧ cs ++ cs₁ ≠ cs'

theorem tellsApart_frame {p t : List UInt8} {b : Body} (hb : parse p = .frame b)
    (hw : b.whole = true) (h : TellsApart b.rest t) : TellsApart p t := by
  obtain ⟨st, cs, cs₁, st', cs', hd, hf, hd', hne⟩ := h
  obtain ⟨b', hparse, hrest, hcalls⟩ := parse_append_frame hb hw t
  rw [← hrest] at hd'
  refine ⟨st, b.calls ++ cs, cs₁, st', b'.calls ++ cs', .frame hb hd, hf, .frame hparse hd', ?_⟩
  rw [hcalls, List.append_assoc]
  exact fun heq => hne (List.append_cancel_left heq)

/-- The empty SETTINGS frame with the ACK flag. -/
def ackFrame : List UInt8 := [0, 0, 0, 4, 1, 0, 0, 0, 0]

theorem drain_ackFrame : Drain ackFrame (.waiting []) [.settingsAck] := by
  have hp : parse ackFrame = .frame ⟨[], [.settingsAck], false, true⟩ := by decide
  exact .frame hp (.waiting rfl)

theorem parse_stalled {inp : List UInt8} (h : parse inp = .stalled) :
    (headerOf inp).validate = .noError ∧
      ∀ p payload, parse (inp ++ p :: payload) = .frame (body (headerOf inp).unpad payload) := by
  obtain ⟨hl, hv⟩ := Decoder.parse_accepted (Or.inl h)
  have happ := parse_append hl []
  rw [List.append_nil, List.append_nil, h] at happ
  simp only [hv, ne_eq, not_true_eq_false, if_false] at happ
  refine ⟨hv, ?_⟩
  intro p payload
  rw [parse_append hl]
  simp only [hv, ne_eq, not_true_eq_false, if_false]
  by_cases hpad : (headerOf inp).hasFlag .padded = true
  · cases hd : inp.drop frameHeaderSize with
    | nil => simp [hpad]
    | cons q rest => simp [hpad, hd] at happ
  · simp [hpad] at happ

theorem tellsApart_stalled {p : List UInt8} (h : parse p = .stalled) : ∃ t, TellsApart p t := by
  obtain ⟨hv, happ⟩ := parse_stalled h
  by_cases ht : (headerOf p).type = .settings
  · obtain ⟨e, he⟩ := unpad_settings hv ht
    have hparse := happ 0 []
    have hbody : body (headerOf p).unpad [] = settingsBody (headerOf p).unpad [] := if_pos ht
    rw [hbody, he] at hparse
    exact ⟨[0], _, _, _, _, _, .hung h, .hung, .frame hparse (.waiting rfl), by simp⟩
  · let zeros : List UInt8 := List.replicate (headerOf p).unpad.length 0
    have hparse := happ 0 (zeros ++ ackFrame)
    have hbody : body (headerOf p).unpad (zeros ++ ackFrame) =
        opaqueBody (headerOf p).unpad (zeros ++ ackFrame) := if_neg ht
    have hrest : (opaqueBody (headerOf p).unpad (zeros ++ ackFrame)).rest = ackFrame := by
      simp [opaqueBody, zeros]
    rw [hbody] at hparse
    refine ⟨0 :: (zeros ++ ackFrame), _, _, _, .waiting [], _, .hung h, .hung,
      .frame hparse (by rw [hrest]; exact drain_ackFrame), by simp [opaqueBody]⟩

theorem tellsApart_opaque {p : List UInt8} {h : FrameHeader} {payload : List UInt8}
    (hp : parse p = .frame (opaqueBody h payload))
    (happ : ∀ t, parse (p ++ t) = .frame (opaqueBody h (payload ++ t)))
    (hlt : payload.length < h.length) : TellsApart p ackFrame := by
  have hrest : (opaqueBody h payload).rest = [] := List.drop_eq_nil_of_le (Nat.le_of_lt hlt)
  have hshort : parse (opaqueBody h (payload ++ ackFrame)).rest = .short := by
    apply parse_short
    simp only [opaqueBody, List.length_drop, List.length_append, frameHeaderSize, ackFrame,
      List.length_cons, List.length_nil]
    omega
  have hdrain : Drain (opaqueBody h payload).rest (.waiting []) [] := by
    rw [hrest]
    exact .waiting rfl
  exact ⟨_, _, _, _, _, .frame hp hdrain, feeds_single drain_ackFrame,
    .frame (happ ackFrame) (.waiting hshort), by simp [opaqueBody]⟩

/-- An entry that the first chunk begins: it is finished with zeros, and when it
turns out to be an unknown setting a known one is put behind it. -/
theorem settingsLoop_finish {k : Nat} (hk : k ≠ 0) {q : List UInt8} (hq : q.length < 6) :
    ∃ t, (q ++ t).length < 15 ∧
      ((∃ e, (settingsLoop k (q ++ t)).error = some e ∧ (q ++ t).length < frameHeaderSize) ∨
        ((settingsLoop k (q ++ t)).error = none ∧
          ∃ id v more, (settingsLoop k (q ++ t)).calls = .settingReceived id v :: more)) := by
  let z : List UInt8 := List.replicate (6 - q.length) 0
  have hlen : (q ++ z).length = 6 := by
    simp only [z, List.length_append, List.length_replicate]
    omega
  obtain ⟨i₁, i₀, v₃, v₂, v₁, v₀, hqz⟩ : ∃ i₁ i₀ v₃ v₂ v₁ v₀, q ++ z = [i₁, i₀, v₃, v₂, v₁, v₀] := by
    match hm : q ++ z, hlen with
    | [i₁, i₀, v₃, v₂, v₁, v₀], _ => exact ⟨_, _, _, _, _, _, rfl⟩
  by_cases hid : bigEndian [i₁, i₀] ≥ settingsMax
  · refine ⟨z ++ [0, 1, 0, 0, 0, 0], ?_, Or.inr ?_⟩
    · rw [← List.append_assoc, List.length_append, hlen]
      decide
    · rw [← List.append_assoc, hqz]
      have hone : settingsLoop k [0, 1, 0, 0, 0, 0] =
          ⟨k - 6, [], [.settingReceived 1 0], none⟩ := by
        simp [settingsLoop, hk, bigEndian, settingsMax, settingError]
      have hskip : settingsLoop k ([i₁, i₀, v₃, v₂, v₁, v₀] ++ [0, 1, 0, 0, 0, 0]) =
          settingsLoop k [0, 1, 0, 0, 0, 0] := settingsLoop_skipped hk _ hid
      rw [hskip, hone]
      exact ⟨rfl, 1, 0, [], rfl⟩
  · refine ⟨z, by omega, ?_⟩
    rw [hqz, settingsLoop]
    simp only [hk, if_false, hid]
    cases he : settingError (bigEndian [i₁, i₀]) (bigEndian [v₃, v₂, v₁, v₀]) with
    | some e => exact Or.inl ⟨e, rfl, by simp [frameHeaderSize]⟩
    | none => exact Or.inr ⟨by rw [settingsLoop_short (by simp)], _, _, _, rfl⟩

theorem tellsApart_settings {p : List UInt8} {h : FrameHeader} {payload : List UInt8}
    (hp : parse p = .frame (settingsBody h payload))
    (happ : ∀ t, parse (p ++ t) = .frame (settingsBody h (payload ++ t)))
    (hw : (settingsBody h payload).whole = false) : ∃ t, TellsApart p t := by
  by_cases hh : h.HasEntries
  · simp only [settingsBody_entries hh] at hp happ hw
    cases he : (settingsLoop h.length payload).error with
    | some e => simp [he] at hw
    | none =>
      simp only [he, beq_eq_false_iff_ne] at hw hp
      have hq := settingsLoop_incomplete he hw
      rw [if_neg hw, List.append_nil] at hp
      have hwait : Drain (settingsLoop h.length payload).rest
          (.waiting (settingsLoop h.length payload).rest) [] :=
        .waiting (parse_short (by simp only [frameHeaderSize]; omega))
      obtain ⟨t, hlen, hfin⟩ := settingsLoop_finish hw hq
      have hparse := happ t
      rw [settingsLoop_append t he] at hparse
      obtain ⟨st, cs₁, hnow⟩ := drain_total ((settingsLoop h.length payload).rest ++ t)
      have hfeed : Feeds (.waiting (settingsLoop h.length payload).rest) [t] (cs₁ ++ []) := by
        refine .chunk hnow ?_
        cases st with
        | waiting buf => exact .done
        | failed => exact .failed
        | hung => exact .hung
      rcases hfin with ⟨e, hee, hshort⟩ | ⟨hnone, id, v, more, hcalls⟩
      · simp only [hee] at hparse
        obtain ⟨st', cs', hdrain⟩ := drain_total
          (settingsLoop (settingsLoop h.length payload).length
            ((settingsLoop h.length payload).rest ++ t)).rest
        refine ⟨t, _, _, _, st', _, .frame hp hwait, hfeed, .frame hparse hdrain, ?_⟩
        have hnil : cs₁ = [] := by cases hnow <;> simp_all [parse_short hshort]
        simp [hnil]
      · simp only [hnone, hcalls] at hparse
        obtain ⟨st', cs', hdrain⟩ := drain_total
          (settingsLoop (settingsLoop h.length payload).length
            ((settingsLoop h.length payload).rest ++ t)).rest
        refine ⟨t, _, _, _, st', _, .frame hp hwait, hfeed, .frame hparse hdrain, ?_⟩
        have hnot := drain_small hlen hnow id v
        intro heq
        simp only [List.append_nil, List.append_assoc, List.append_cancel_left_eq] at heq
        apply hnot
        rw [heq]
        simp
  · obtain ⟨calls, loop, -, heq⟩ := settingsBody_other hh
    simp [heq] at hw

theorem tellsApart_of_not_aligned {p : List UInt8} (h : ¬ Aligned p) : ∃ t, TellsApart p t := by
  induction hn : p.length using Nat.strongRecOn generalizing p with
  | _ n ih =>
    cases hp : parse p with
    | short => exact absurd (.short hp) h
    | rejected e => exact absurd (.rejected hp) h
    | stalled => exact tellsApart_stalled hp
    | frame b =>
      by_cases hw : b.whole = true
      · have hlen := parse_frame_rest_length hp
        simp only [frameHeaderSize] at hlen
        have hrest : ¬ Aligned b.rest := fun ha => h (.frame hp hw ha)
        obtain ⟨t, ht⟩ := ih b.rest.length (by omega) hrest rfl
        exact ⟨t, tellsApart_frame hp hw ht⟩
      · obtain ⟨hd, payload, rfl, -, happ⟩ := parse_frame_cases hp
        unfold body at hp happ hw
        by_cases hset : hd.type = .settings
        · simp only [hset, if_true] at hp happ hw
          exact tellsApart_settings hp happ (by simpa using hw)
        · simp only [hset, if_false] at hp happ hw
          exact ⟨ackFrame, tellsApart_opaque hp happ (by simpa [opaqueBody] using hw)⟩

theorem aligned_of_sameCallbacks {d : Decoder} (hd : d.state = .readFrameHeader) {p : List UInt8}
    (h : ∀ t, Feed.SameCallbacks d [p, t]) : Aligned p := by
  by_contra hna
  obtain ⟨t, st, cs, cs₁, st', cs', hp, hf, hpt, hne⟩ := tellsApart_of_not_aligned hna
  have hcut : Feeds (.waiting []) [p, t] (cs ++ cs₁) := .chunk hp hf
  have hone : Feeds (.waiting []) [[p, t].flatten] cs' := by
    rw [List.flatten_cons, List.flatten_singleton]
    exact feeds_single hpt
  obtain ⟨calls, hc, hw⟩ := h t
  apply hne
  rw [Feed.settles_unique ((Feed.emits_iff_feeds hd).mpr hcut) hc,
    Feed.settles_unique ((Feed.emits_iff_feeds hd).mpr hone) hw]

/-- Cuts at aligned places make no difference to the delegate, and they are the
only ones: behind any other place there are bytes that tell the two apart. -/
theorem decode_chunking_iff {d : Decoder} (hd : d.state = .readFrameHeader) :
    (∀ chunks, AlignedCuts chunks → Feed.SameCallbacks d chunks) ∧
      ∀ p, (∀ t, Feed.SameCallbacks d [p, t]) ↔ Aligned p := by
  refine ⟨fun chunks h => sameCallbacks_of_aligned hd h, ?_⟩
  intro p
  constructor
  · exact aligned_of_sameCallbacks hd
  · intro ha t
    apply sameCallbacks_of_aligned hd
    intro k hk
    match k, hk with
    | 0, _ => exact .short rfl
    | 1, _ => simpa using ha

/-- An acknowledgement cut inside its header. -/
theorem decode_chunking_in_header :
    Decoder.opened.state = .readFrameHeader ∧
      Feed.SameCallbacks Decoder.opened [[0, 0, 0, 4], [1, 0, 0, 0, 0]] := by
  refine ⟨rfl, (decode_chunking_iff rfl).1 _ ?_⟩
  intro k hk
  match k, hk with
  | 0, _ => exact .short rfl
  | 1, _ => exact .short rfl

/-- A DATA frame cut behind its header: what is left of its payload is taken for
a frame of its own. -/
theorem decode_chunking_in_payload :
    ¬ ∀ d : Decoder, d.state = .readFrameHeader → ∀ chunks, Feed.SameCallbacks d chunks := by
  intro h
  have hp : parse [0, 0, 9, 0, 0, 0, 0, 0, 1] = .frame ⟨[], [], false, false⟩ := by decide
  have hw : parse ([0, 0, 9, 0, 0, 0, 0, 0, 1] ++ ackFrame) = .frame ⟨[], [], false, true⟩ := by decide
  have hfirst : Drain [0, 0, 9, 0, 0, 0, 0, 0, 1] (.waiting []) [] := .frame hp (.waiting rfl)
  have hcut : Feeds (.waiting []) [[0, 0, 9, 0, 0, 0, 0, 0, 1], ackFrame] ([] ++ [.settingsAck]) :=
    .chunk hfirst (feeds_single drain_ackFrame)
  have hwhole : Drain ([0, 0, 9, 0, 0, 0, 0, 0, 1] ++ ackFrame) (.waiting []) [] :=
    .frame hw (.waiting rfl)
  have hone : Feeds (.waiting []) [[[0, 0, 9, 0, 0, 0, 0, 0, 1], ackFrame].flatten] [] :=
    feeds_single hwhole
  have hd : Decoder.opened.state = .readFrameHeader := rfl
  obtain ⟨calls, hc, ho⟩ := h Decoder.opened hd [[0, 0, 9, 0, 0, 0, 0, 0, 1], ackFrame]
  have h1 := Feed.settles_unique ((Feed.emits_iff_feeds hd).mpr hcut) hc
  have h2 := Feed.settles_unique ((Feed.emits_iff_feeds hd).mpr hone) ho
  rw [← h2] at h1
  simp at h1

end Http2

end XiRuntime
