import Mathlib.Data.List.Induction
import XiRuntime.Http2Grammar
import XiRuntime.Runs

namespace XiRuntime

namespace Http2

def Call.isError : Call → Bool
  | .sendConnectionError _ => true
  | _ => false

def Reported (calls : List Call) : Prop := ∃ c ∈ calls, c.isError = true

/-- The calls behind the first connection error. -/
def afterError (calls : List Call) : List Call := (calls.dropWhile (fun c => !c.isError)).drop 1

/-- The (id, value) pairs that the bytes spell. -/
def settingEntries : List UInt8 → List (Nat × Nat)
  | i₁ :: i₀ :: v₃ :: v₂ :: v₁ :: v₀ :: rest =>
    (bigEndian [i₁, i₀], bigEndian [v₃, v₂, v₁, v₀]) :: settingEntries rest
  | _ => []

/-- One of the settings of a frame of `length` bytes is out of its range; the
unknown ones do not count towards the length. -/
def IllegalSetting (length : Nat) (inp : List UInt8) : Prop :=
  ∃ e ∈ ((settingEntries inp).filter (fun e => e.1 < settingsMax)).take (length / 6),
    (settingError e.1 e.2).isSome

/-- The handler of SETTINGS finds a fault. -/
def Decoder.SettingsRefused (d : Decoder) (inp : List UInt8) : Prop :=
  d.state = .readSettingsFrame ∧ d.length ≠ 0 ∧
    (d.hasFlag .ack = true ∨ d.length % 6 ≠ 0 ∨ d.streamId ≠ 0 ∨ IllegalSetting d.length inp)

/-- A decoder in use: the buffer of the current call of `decode`, whether that
call is still looping, all delegate calls so far, and how many bytes were taken
by passes that began behind a connection error. -/
structure Session where
  dec : Decoder
  inp : List UInt8
  looping : Bool
  calls : List Call
  taken : Nat

inductive Session.Action
  | call (inp : List UInt8)
  | iterate
deriving DecidableEq, Repr

namespace Session

def start : Session := ⟨.init, [], false, [], 0⟩

instance (calls : List Call) : Decidable (Reported calls) := inferInstanceAs (Decidable (∃ c ∈ calls, _))

/-- A call comes in between two calls, a pass of the loop during one. -/
def step (s : Session) : Action → Session
  | .call inp => if s.looping then s else { s with inp := inp, looping := true }
  | .iterate =>
    if s.looping then
      let p := s.dec.pass s.inp
      { dec := p.dec
        inp := p.rest
        looping := p.loop
        calls := s.calls ++ p.calls
        taken := if Reported s.calls then s.taken + (s.inp.length - p.rest.length) else s.taken }
    else s

def run (acts : List Action) : Session := acts.foldl step start

/-- A connection error made so far is final. -/
def ErrorFinal (s : Session) : Prop :=
  Reported s.calls → s.dec.state = .connectionError ∧ afterError s.calls = [] ∧ s.taken = 0

/-- The next step is a pass over a SETTINGS frame with a fault. -/
def Refuses (s : Session) (a : Action) : Prop :=
  a = .iterate ∧ s.looping = true ∧ s.dec.SettingsRefused s.inp

end Session

theorem afterError_silent {calls more : List Call} (h : ∀ c ∈ calls, c.isError = false) :
    afterError (calls ++ more) = afterError more := by
  unfold afterError
  rw [List.dropWhile_append_of_pos]
  intro c hc
  simp [h c hc]

theorem afterError_last {calls : List Call} {e : Error} (h : ∀ c ∈ calls, c.isError = false) :
    afterError (calls ++ [.sendConnectionError e]) = [] := by
  rw [afterError_silent h]
  rfl

theorem reported_last (calls : List Call) (e : Error) :
    Reported (calls ++ [.sendConnectionError e]) := ⟨.sendConnectionError e, by simp, rfl⟩

theorem not_reported_iff {calls : List Call} :
    ¬ Reported calls ↔ ∀ c ∈ calls, c.isError = false := by
  simp [Reported]

theorem settingsLoop_calls (length : Nat) (inp : List UInt8) :
    ∀ c ∈ (settingsLoop length inp).calls, c.isError = false := by
  fun_induction settingsLoop length inp with
  | case1 => simp
  | case2 length i₁ i₀ v₃ v₂ v₁ v₀ rest _ _ _ ih => exact ih
  | case3 => simp
  | case4 length i₁ i₀ v₃ v₂ v₁ v₀ rest _ id value _ _ more ih =>
    intro c hc
    rcases List.mem_cons.mp hc with rfl | hc
    · rfl
    · exact ih c hc
  | case5 => simp

theorem settingsLoop_error_iff {length : Nat} {inp : List UInt8} (h6 : length % 6 = 0) :
    (settingsLoop length inp).error.isSome ↔ IllegalSetting length inp := by
  unfold IllegalSetting
  fun_induction settingsLoop length inp with
  | case1 => simp
  | case2 length i₁ i₀ v₃ v₂ v₁ v₀ rest _ id hid ih =>
    have hnot : ¬ bigEndian [i₁, i₀] < settingsMax := Nat.not_lt.mpr hid
    rw [ih h6, settingEntries, List.filter_cons_of_neg (by simpa using hnot)]
  | case3 length i₁ i₀ v₃ v₂ v₁ v₀ rest h0 id value hid e he =>
    have hlt : bigEndian [i₁, i₀] < settingsMax := Nat.lt_of_not_le hid
    have hpos : length / 6 = length / 6 - 1 + 1 := by omega
    rw [settingEntries, List.filter_cons_of_pos (by simpa using hlt), hpos, List.take_succ_cons]
    refine iff_of_true rfl ⟨_, List.mem_cons_self, ?_⟩
    simp only [id, value] at he
    simp [he]
  | case4 length i₁ i₀ v₃ v₂ v₁ v₀ rest h0 id value hid he more ih =>
    have hlt : bigEndian [i₁, i₀] < settingsMax := Nat.lt_of_not_le hid
    have hpos : length / 6 = (length - 6) / 6 + 1 := by omega
    simp only [id, value] at he
    rw [settingEntries, List.filter_cons_of_pos (by simpa using hlt), hpos, List.take_succ_cons]
    simp only [List.exists_mem_cons_iff, he]
    simpa using ih (by omega)
  | case5 length inp hshort =>
    have hnil : settingEntries inp = [] := by
      unfold settingEntries
      split
      next i₁ i₀ v₃ v₂ v₁ v₀ rest => exact absurd rfl (hshort i₁ i₀ v₃ v₂ v₁ v₀ rest)
      next => rfl
    simp [hnil]

namespace Decoder

theorem readConnectionPreface_calls (d : Decoder) (inp : List UInt8) :
    (d.readConnectionPreface inp).calls = [] ∨
      (∃ e, (d.readConnectionPreface inp).calls = [.sendConnectionError e] ∧
        (d.readConnectionPreface inp).dec.state = .connectionError) := by
  fun_induction readConnectionPreface d inp with
  | case1 => exact Or.inl rfl
  | case2 d b rest d' hb => exact Or.inr ⟨.protocolError, rfl, rfl⟩
  | case3 => exact Or.inl rfl
  | case4 d b rest d' hb hl ih => exact ih

theorem readFrameHeader_calls (d : Decoder) (inp : List UInt8) :
    (d.readFrameHeader inp).calls = [] ∨
      (∃ e, (d.readFrameHeader inp).calls = [.sendConnectionError e] ∧
        (d.readFrameHeader inp).dec.state = .connectionError) := by
  by_cases hl : inp.length < frameHeaderSize
  · simp [readFrameHeader, hl]
  · rw [readFrameHeader_eq hl]
    split
    next => exact Or.inr ⟨_, rfl, rfl⟩
    next => exact Or.inl rfl

/-- An error raised by the SETTINGS handler is undone by the switch: the next
pass reads a frame header. -/
theorem pass_refused {d : Decoder} {inp : List UInt8} (h : d.SettingsRefused inp) :
    (∃ pre e, (d.pass inp).calls = pre ++ [.sendConnectionError e]) ∧
      (d.pass inp).dec.state = .readFrameHeader := by
  obtain ⟨hs, h0, hbad⟩ := h
  refine ⟨?_, by simp [pass, hs]⟩
  simp only [pass, hs, readSettingsFrame, h0, if_false]
  by_cases ha : d.hasFlag .ack = true
  · exact ⟨[], .frameSizeError, by simp [ha, transitionToError]⟩
  by_cases h6 : d.length % 6 = 0
  · by_cases hid : d.streamId = 0
    · have hill : IllegalSetting d.length inp := by simpa [ha, h6, hid] using hbad
      obtain ⟨e, he⟩ := Option.isSome_iff_exists.mp ((settingsLoop_error_iff h6).mpr hill)
      exact ⟨(settingsLoop d.length inp).calls, e, by simp [ha, h6, hid, he, transitionToError]⟩
    · exact ⟨[], .protocolError, by simp [ha, h6, hid, transitionToError]⟩
  · exact ⟨[], .protocolError, by simp [ha, h6, transitionToError]⟩

theorem readSettingsFrame_accepted {d : Decoder} {inp : List UInt8}
    (hs : d.state = .readSettingsFrame) (h : ¬ d.SettingsRefused inp) :
    ∀ c ∈ (d.readSettingsFrame inp).calls, c.isError = false := by
  simp only [SettingsRefused, hs, true_and, not_and, not_or] at h
  unfold readSettingsFrame
  by_cases h0 : d.length = 0
  · by_cases ha : d.hasFlag .ack = true <;> simp [h0, ha, Call.isError]
  · obtain ⟨ha, h6, hid, hill⟩ := h h0
    rw [not_not] at h6 hid
    have he : (settingsLoop d.length inp).error = none := by
      rw [← Option.not_isSome_iff_eq_none, settingsLoop_error_iff h6]
      exact hill
    have hcalls := settingsLoop_calls d.length inp
    simp only [h0, if_false, ha, h6, ne_eq, not_true_eq_false, hid, he]
    intro c hc
    rcases List.mem_append.mp hc with hc | hc
    · exact hcalls c hc
    · split at hc
      next => cases List.mem_singleton.mp hc; rfl
      next => simp at hc

/-- Every other error leaves the decoder in `CONNECTION_ERROR`. -/
theorem pass_accepted {d : Decoder} {inp : List UInt8} (h : ¬ d.SettingsRefused inp) :
    (∀ c ∈ (d.pass inp).calls, c.isError = false) ∨
      (∃ e, (d.pass inp).calls = [.sendConnectionError e] ∧
        (d.pass inp).dec.state = .connectionError) := by
  have hnil : (d.pass inp).calls = [] → ∀ c ∈ (d.pass inp).calls, c.isError = false := by
    intro hc
    simp [hc]
  cases hs : d.state with
  | readConnectionPreface =>
    have heq : d.pass inp = d.readConnectionPreface inp := by simp only [pass, hs]
    rw [heq] at hnil ⊢
    exact (readConnectionPreface_calls d inp).imp_left hnil
  | readFrameHeader =>
    have heq : d.pass inp = d.readFrameHeader inp := by simp only [pass, hs]
    rw [heq] at hnil ⊢
    exact (readFrameHeader_calls d inp).imp_left hnil
  | readSettingsFrame =>
    left
    simp only [pass, hs]
    exact readSettingsFrame_accepted hs h
  | readFramePadding => cases inp <;> exact Or.inl (hnil (by simp [pass, hs, readFramePadding]))
  | readDataFrame => exact Or.inl (hnil (by simp [pass, hs, readDataFrame]))
  | connectionError => exact Or.inl (hnil (by simp [pass, hs]))
  | other b => exact Or.inl (hnil (by simp [pass, hs]))
  | _ => exact Or.inl (hnil (by simp [pass, hs, skipFrame]))

end Decoder

namespace Session

theorem errorFinal_start : ErrorFinal start := by
  rintro ⟨c, hc, -⟩
  simp [start] at hc

/-- Nothing is counted before there is an error. -/
def Clean (s : Session) : Prop := ¬ Reported s.calls → s.taken = 0

theorem step_clean {s : Session} (a : Action) (hs : Clean s) : Clean (s.step a) := by
  cases a with
  | call inp =>
    simp only [step]
    split
    next => exact hs
    next => exact hs
  | iterate =>
    simp only [step]
    split
    next =>
      intro hr
      have hr' : ¬ Reported s.calls := by
        rw [not_reported_iff] at hr ⊢
        exact fun c hc => hr c (List.mem_append_left _ hc)
      simp only [hr', if_false]
      exact hs hr'
    next => exact hs

theorem step_errorFinal {s : Session} {a : Action} (hs : ErrorFinal s) (hclean : Clean s)
    (ha : ¬ s.Refuses a) : ErrorFinal (s.step a) := by
  cases a with
  | call inp =>
    simp only [step]
    split
    next => exact hs
    next => exact hs
  | iterate =>
    simp only [step]
    split
    next hl =>
      have hok : ¬ s.dec.SettingsRefused s.inp := fun h => ha ⟨rfl, hl, h⟩
      by_cases hr : Reported s.calls
      · -- the decoder is in its error state: the pass does nothing
        obtain ⟨hstate, hafter, htaken⟩ := hs hr
        have hpass : s.dec.pass s.inp = ⟨s.dec, s.inp, [], false⟩ := by simp [Decoder.pass, hstate]
        intro _
        rw [hpass]
        exact ⟨hstate, by simpa using hafter, by simp [htaken]⟩
      · have hsil := not_reported_iff.mp hr
        rcases Decoder.pass_accepted hok with hc | ⟨e, hc, hstate⟩
        · intro hrep
          refine absurd hrep (not_reported_iff.mpr ?_)
          intro c hmem
          rcases List.mem_append.mp hmem with h | h
          · exact hsil c h
          · exact hc c h
        · intro _
          refine ⟨hstate, ?_, ?_⟩
          · simp only [hc]
            exact afterError_last hsil
          · simp only [hr, if_false]
            exact hclean hr
    next => exact hs

theorem step_refuses {s : Session} {a : Action} (h : s.Refuses a) : ¬ ErrorFinal (s.step a) := by
  obtain ⟨rfl, hl, hbad⟩ := h
  obtain ⟨⟨pre, e, hcalls⟩, hstate⟩ := Decoder.pass_refused hbad
  have hstep : (s.step .iterate).calls = (s.calls ++ pre) ++ [.sendConnectionError e] ∧
      (s.step .iterate).dec.state = .readFrameHeader := by
    simp only [step, hl, if_true, hcalls, List.append_assoc]
    exact ⟨trivial, hstate⟩
  intro hfinal
  have hrep : Reported (s.step .iterate).calls := by
    rw [hstep.1]
    exact reported_last _ e
  have herr := (hfinal hrep).1
  rw [hstep.2] at herr
  simp at herr

theorem run_clean (acts : List Action) : Clean (run acts) := by
  induction acts using List.reverseRecOn with
  | nil => exact fun _ => rfl
  | append_singleton acts a ih =>
    rw [run, List.foldl_append]
    exact step_clean a ih

/-- In a run of `decode` calls every connection error is final exactly as long
as no pass refuses a SETTINGS frame. -/
theorem connection_error_final_iff (acts : List Action) :
    (∀ n, ErrorFinal (run (acts.take n))) ↔
      ∀ n a, acts[n]? = some a → ¬ (run (acts.take n)).Refuses a := by
  apply Runs.invariant_iff errorFinal_start
  intro n a _ hfinal
  constructor
  · intro hnext hbad
    exact step_refuses hbad hnext
  · intro hok
    exact step_errorFinal hfinal (run_clean _) hok

/-- A SETTINGS frame with ENABLE_PUSH = 2, then an acknowledgement: the error is
reported, and the next call takes the bytes behind it and calls the delegate. -/
theorem connection_error_not_final_after_settings :
    ¬ ∀ acts, ErrorFinal (run acts) := by
  intro h
  have hrun := h ([.call Decoder.initiationString, .iterate, .call [0, 0, 6, 4, 0, 0, 0, 0, 0, 0, 2, 0, 0, 0, 2], .iterate, .iterate,
    .call [0, 0, 0, 4, 1, 0, 0, 0, 0], .iterate, .iterate])
  have hrep := hrun (by decide)
  exact absurd hrep.2.1 (by decide)

end Session

end Http2

end XiRuntime
