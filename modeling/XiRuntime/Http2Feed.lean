import Mathlib.Logic.Function.Iterate
import XiRuntime.Http2Grammar

namespace XiRuntime

namespace Http2

/-- A connection that appends each chunk to one buffer and then calls `decode`
until a call consumes nothing. `before` is the size of the buffer at the start of
the current call; `waiting` is set when no call is due. -/
structure Feed where
  dec : Decoder
  buf : List UInt8
  before : Nat
  chunks : List (List UInt8)
  calls : List Call
  waiting : Bool
deriving DecidableEq, Repr

namespace Feed

def start (d : Decoder) (chunks : List (List UInt8)) : Feed := ⟨d, [], 0, chunks, [], true⟩

/-- The arrival of a chunk, or one pass of the loop in `decode`. -/
def next (s : Feed) : Feed :=
  if s.waiting then
    match s.chunks with
    | [] => s
    | c :: chunks =>
      { s with buf := s.buf ++ c, before := (s.buf ++ c).length, chunks := chunks, waiting := false }
  else
    let p := s.dec.pass s.buf
    let s' := { s with dec := p.dec, buf := p.rest, calls := s.calls ++ p.calls }
    if p.loop then s'
    else { s' with before := p.rest.length, waiting := p.rest.length == s.before }

/-- From some step on, these are the calls made. -/
def Settles (s : Feed) (calls : List Call) : Prop := ∃ n, ∀ m ≥ n, (next^[m] s).calls = calls

def Emits (d : Decoder) (chunks : List (List UInt8)) (calls : List Call) : Prop :=
  (start d chunks).Settles calls

/-- The cuts make no difference to the delegate. -/
def SameCallbacks (d : Decoder) (chunks : List (List UInt8)) : Prop :=
  ∃ calls, Emits d chunks calls ∧ Emits d [chunks.flatten] calls

theorem settles_unique {s : Feed} {a b : List Call} (ha : s.Settles a) (hb : s.Settles b) : a = b := by
  obtain ⟨n, hn⟩ := ha
  obtain ⟨m, hm⟩ := hb
  rw [← hn (max n m) (Nat.le_max_left n m), hm (max n m) (Nat.le_max_right n m)]

theorem settles_of_next {s : Feed} {calls : List Call} (h : s.next.Settles calls) :
    s.Settles calls := by
  obtain ⟨n, hn⟩ := h
  refine ⟨n + 1, ?_⟩
  intro m hm
  obtain ⟨k, rfl⟩ : ∃ k, m = k + 1 := ⟨m - 1, by omega⟩
  rw [Function.iterate_succ_apply]
  exact hn k (by omega)

/-- What never changes the calls settles at once. -/
theorem settles_of_invariant {P : Feed → Prop} {s : Feed} (h0 : P s)
    (hstep : ∀ s, P s → P s.next ∧ s.next.calls = s.calls) : s.Settles s.calls := by
  refine ⟨0, ?_⟩
  intro m _
  have hm : P (next^[m] s) ∧ (next^[m] s).calls = s.calls := by
    induction m with
    | zero => exact ⟨h0, rfl⟩
    | succ m ih =>
      obtain ⟨hp, hc⟩ := ih (Nat.zero_le m)
      rw [Function.iterate_succ_apply']
      obtain ⟨hp', hc'⟩ := hstep _ hp
      exact ⟨hp', hc'.trans hc⟩
  exact hm.2

theorem settles_failed {s : Feed} (h : s.dec.state = .connectionError) : s.Settles s.calls := by
  refine settles_of_invariant (P := fun s => s.dec.state = .connectionError) h ?_
  intro s h
  have hpass : s.dec.pass s.buf = ⟨s.dec, s.buf, [], false⟩ := by simp [Decoder.pass, h]
  unfold next
  split
  next => split <;> exact ⟨h, rfl⟩
  next => simp [hpass, h]

theorem settles_stuck {s : Feed} (h : s.next = s) : s.Settles s.calls := by
  refine settles_of_invariant (P := fun s => s.next = s) h ?_
  intro s h
  exact ⟨by rw [h, h], by rw [h]⟩

theorem next_loop {s : Feed} (hw : s.waiting = false) (hl : (s.dec.pass s.buf).loop = true) :
    s.next = { s with
      dec := (s.dec.pass s.buf).dec
      buf := (s.dec.pass s.buf).rest
      calls := s.calls ++ (s.dec.pass s.buf).calls } := by
  simp [next, hw, hl]

theorem next_stop {s : Feed} (hw : s.waiting = false) (hl : (s.dec.pass s.buf).loop = false) :
    s.next = { s with
      dec := (s.dec.pass s.buf).dec
      buf := (s.dec.pass s.buf).rest
      calls := s.calls ++ (s.dec.pass s.buf).calls
      before := (s.dec.pass s.buf).rest.length
      waiting := (s.dec.pass s.buf).rest.length == s.before } := by
  simp [next, hw, hl]

theorem settles_silent {d d' : Decoder} {inp inp' : List UInt8} (h : Decoder.Silent d inp d' inp')
    {s : Feed} (hw : s.waiting = false) (hd : s.dec = d) (hb : s.buf = inp) {calls : List Call}
    (hs : ({ s with dec := d', buf := inp' } : Feed).Settles calls) : s.Settles calls := by
  induction h generalizing s with
  | refl =>
    subst hd hb
    exact hs
  | pass hloop hcalls _ ih =>
    subst hd hb
    apply settles_of_next
    rw [next_loop hw hloop]
    exact ih hw rfl rfl (by simpa [hcalls] using hs)

end Feed

/-- What the bytes read so far have come to: a partial header, a connection
error, or a call of `decode` that does not return. -/
inductive Standing
  | waiting (buf : List UInt8)
  | failed
  | hung
deriving DecidableEq, Repr

/-- `decode` is called on the bytes until it consumes nothing more. -/
inductive Drain : List UInt8 → Standing → List Call → Prop
  | waiting {inp : List UInt8} : parse inp = .short → Drain inp (.waiting inp) []
  | failed {inp : List UInt8} {e : Error} : parse inp = .rejected e →
      Drain inp .failed [.sendConnectionError e]
  | hung {inp : List UInt8} : parse inp = .stalled → Drain inp .hung []
  | frame {inp : List UInt8} {b : Body} {st : Standing} {calls : List Call} : parse inp = .frame b →
      Drain b.rest st calls → Drain inp st (b.calls ++ calls)

/-- The calls made for the chunks still to come. -/
inductive Feeds : Standing → List (List UInt8) → List Call → Prop
  | done {buf : List UInt8} : Feeds (.waiting buf) [] []
  | chunk {buf c : List UInt8} {chunks : List (List UInt8)} {st : Standing} {now later : List Call} :
      Drain (buf ++ c) st now → Feeds st chunks later →
      Feeds (.waiting buf) (c :: chunks) (now ++ later)
  | failed {chunks : List (List UInt8)} : Feeds .failed chunks []
  | hung {chunks : List (List UInt8)} : Feeds .hung chunks []

theorem drain_total (inp : List UInt8) : ∃ st calls, Drain inp st calls := by
  induction hn : inp.length using Nat.strongRecOn generalizing inp with
  | _ n ih =>
    cases hp : parse inp with
    | short => exact ⟨_, _, .waiting hp⟩
    | rejected e => exact ⟨_, _, .failed hp⟩
    | stalled => exact ⟨_, _, .hung hp⟩
    | frame b =>
      have hlen := parse_frame_rest_length hp
      simp only [frameHeaderSize] at hlen
      obtain ⟨st, calls, hd⟩ := ih b.rest.length (by omega) b.rest rfl
      exact ⟨st, _, .frame hp hd⟩

theorem feeds_total (chunks : List (List UInt8)) (st : Standing) : ∃ calls, Feeds st chunks calls := by
  induction chunks generalizing st with
  | nil =>
    cases st with
    | waiting buf => exact ⟨_, .done⟩
    | failed => exact ⟨_, .failed⟩
    | hung => exact ⟨_, .hung⟩
  | cons c chunks ih =>
    cases st with
    | waiting buf =>
      obtain ⟨st, now, hd⟩ := drain_total (buf ++ c)
      obtain ⟨later, hf⟩ := ih st
      exact ⟨_, .chunk hd hf⟩
    | failed => exact ⟨_, .failed⟩
    | hung => exact ⟨_, .hung⟩

namespace Feed

/-- A running connection settles as the abstract one does: the bytes at hand are
drained, then the later chunks are fed. -/
theorem settles_drain {inp : List UInt8} {st : Standing} {now : List Call} (h : Drain inp st now)
    {s : Feed} (hw : s.waiting = false) (hs : s.dec.state = .readFrameHeader) (hb : s.buf = inp)
    (hbefore : s.buf.length ≤ s.before) {later : List Call}
    (hlater : ∀ s' : Feed, s'.waiting = true → s'.dec.state = .readFrameHeader →
      st = .waiting s'.buf → s'.chunks = s.chunks → s'.calls = s.calls ++ now →
      s'.Settles (s.calls ++ (now ++ later)))
    (hend : (st = .failed ∨ st = .hung) → later = []) : s.Settles (s.calls ++ (now ++ later)) := by
  induction h generalizing s with
  | @waiting inp hp =>
    subst hb
    have hpass := Decoder.pass_header_short hs hp
    have hret : ∀ n, ({ s with before := n, waiting := true } : Feed).Settles
        (s.calls ++ ([] ++ later)) := by
      intro n
      exact hlater _ rfl hs rfl rfl (by simp)
    apply settles_of_next
    rw [next_stop hw (by rw [hpass]), hpass]
    by_cases heq : s.buf.length = s.before
    · simpa [heq] using hret s.before
    · -- bytes were consumed earlier in this call, so there is one more call
      apply settles_of_next
      rw [next_stop (by simpa using heq) (by simp only; rw [hpass])]
      simp only [hpass]
      simpa using hret s.buf.length
  | @failed inp e hp =>
    subst hb
    obtain ⟨hloop, hcalls, hstate, hrest⟩ := Decoder.pass_header_rejected hs hp
    apply settles_of_next
    rw [next_stop hw hloop, hend (Or.inl rfl), hcalls]
    exact settles_failed hstate
  | @hung inp hp =>
    subst hb
    obtain ⟨d', hsil, hs'⟩ := Decoder.silent_stalled hs hp
    refine settles_silent hsil hw rfl rfl ?_
    have hpass : d'.pass [] = ⟨d', [], [], true⟩ := by
      simp [Decoder.pass, hs', Decoder.readFramePadding]
    rw [hend (Or.inr rfl), List.append_nil, List.append_nil]
    have hnext := next_loop (s := { s with dec := d', buf := [] }) hw (by rw [hpass])
    simp only [hpass, List.append_nil] at hnext
    exact settles_stuck hnext
  | @frame inp b st calls hp hd ih =>
    subst hb
    obtain ⟨d', inp', hsil, hrest, hcalls, hloop, hstate⟩ := Decoder.silent_frame hs hp
    have hlen := parse_frame_rest_length hp
    simp only [frameHeaderSize] at hlen
    refine settles_silent hsil hw rfl rfl ?_
    apply settles_of_next
    rw [List.append_assoc, ← List.append_assoc]
    by_cases hl : b.loop = true
    · rw [next_loop (s := { s with dec := d', buf := inp' }) hw (hloop.trans hl)]
      simp only [hrest, hcalls]
      refine ih hw hstate rfl (by simp only; omega) ?_ hend
      intro s' hw' hs' hst hch hca
      have hgoal := hlater s' hw' hs' hst hch (by simpa using hca)
      simpa using hgoal
    · rw [next_stop (s := { s with dec := d', buf := inp' }) hw (hloop.trans (by simpa using hl))]
      simp only [hrest, hcalls]
      refine ih (by simp only [beq_eq_false_iff_ne]; omega) hstate rfl (by simp) ?_ hend
      intro s' hw' hs' hst hch hca
      have hgoal := hlater s' hw' hs' hst hch (by simpa using hca)
      simpa using hgoal

theorem settles_feeds {chunks : List (List UInt8)} {calls : List Call} {s : Feed}
    (hf : Feeds (.waiting s.buf) chunks calls) (hw : s.waiting = true)
    (hs : s.dec.state = .readFrameHeader) (hc : s.chunks = chunks) :
    s.Settles (s.calls ++ calls) := by
  induction chunks generalizing s calls with
  | nil =>
    cases hf
    rw [List.append_nil]
    apply settles_stuck
    simp [next, hw, hc]
  | cons c chunks ih =>
    cases hf with
    | @chunk _ _ _ st now later hd hf =>
      let s₁ : Feed := { s with
        buf := s.buf ++ c, before := (s.buf ++ c).length, chunks := chunks, waiting := false }
      have hnext : s.next = s₁ := by simp [next, hw, hc, s₁]
      apply settles_of_next
      rw [hnext]
      refine settles_drain (s := s₁) hd rfl hs rfl (Nat.le_refl _) ?_ ?_
      · intro s' hw' hs' hst hch hca
        subst hst
        rw [← List.append_assoc, ← hca]
        exact ih hf hw' hs' hch
      · rintro (rfl | rfl)
        · cases hf; rfl
        · cases hf; rfl

theorem emits_iff_feeds {d : Decoder} (hd : d.state = .readFrameHeader) {chunks : List (List UInt8)}
    {calls : List Call} : Emits d chunks calls ↔ Feeds (.waiting []) chunks calls := by
  have hto : ∀ {calls}, Feeds (.waiting []) chunks calls → Emits d chunks calls := by
    intro calls hf
    exact settles_feeds (s := start d chunks) hf rfl hd rfl
  constructor
  · intro he
    obtain ⟨calls', hf⟩ := feeds_total chunks (.waiting [])
    rw [settles_unique he (hto hf)]
    exact hf
  · exact hto

end Feed

end Http2

end XiRuntime
