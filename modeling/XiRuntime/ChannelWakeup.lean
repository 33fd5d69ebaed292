import Mathlib.Data.List.Nodup
import Mathlib.Data.Set.Card
import XiRuntime.Channel

namespace XiRuntime

namespace MessageBus

variable {P T : Type}

/-- Unblocked by `maybe_fill` and not yet back under the lock. -/
def Woken (w : MessageBus P T) (p : P) : Prop := ∃ c v, w.status p = .sending c v

/-- Neither blocked nor on its way out of `get`: the task can take the lock. -/
def Active (w : MessageBus P T) (p : P) : Prop := w.status p = .running ∨ w.Woken p

/-- The queues hold exactly the blocked tasks, a receiver only waits at an empty
buffer, and a sender only waits while all room there is, but for `slack`, is spoken
for by senders that were woken up. -/
structure Sound (slack size : Nat) (w : MessageBus P T) : Prop where
  valid : w.buffer.Valid size
  senders_nodup : w.blockedSenders.Nodup
  mem_senders : ∀ p, p ∈ w.blockedSenders ↔ ∃ c v, w.status p = .blockedSend c v
  receivers_nodup : (w.blockedReceivers.map Receiver.process).Nodup
  mem_receivers : ∀ r, r ∈ w.blockedReceivers ↔ w.status r.process = .blockedRecv r.storage
  empty : w.blockedReceivers ≠ [] → w.buffer.count size = 0
  room : ∃ woken : List P, woken.Nodup ∧ (∀ p, p ∈ woken ↔ w.Woken p) ∧
    (w.blockedSenders ≠ [] →
      w.buffer.free size + w.blockedReceivers.length ≤ woken.length + slack)

theorem sound_start (size : Nat) (queue : Nat → T) :
    Sound 0 size (start queue : MessageBus P T) where
  valid := ChannelBuffer.valid_start queue
  senders_nodup := List.nodup_nil
  mem_senders := by simp [start]
  receivers_nodup := List.nodup_nil
  mem_receivers := by simp [start]
  empty := by simp [start]
  room := ⟨[], List.nodup_nil, by simp [start, Woken], by simp [start]⟩

theorem nodup_snoc {α : Type} {l : List α} {a : α} (h : l.Nodup) (ha : a ∉ l) : (l ++ [a]).Nodup := by
  rw [← List.concat_eq_append]
  exact List.Nodup.concat ha h

theorem Active.not_blockedSend {w : MessageBus P T} {p : P} (h : w.Active p) :
    ¬ ∃ c v, w.status p = .blockedSend c v := by
  rintro ⟨c, v, hb⟩
  rcases h with h | ⟨c', v', h⟩ <;> simp [h] at hb

theorem Active.not_blockedRecv {w : MessageBus P T} {p : P} (h : w.Active p) (c : Nat) :
    w.status p ≠ .blockedRecv c := by
  rcases h with h | ⟨c', v', h⟩ <;> simp [h]

theorem Sound.renumber {size : Nat} {w : MessageBus P T} (h : Sound 0 size w) (n : Nat)
    (hist : ChannelHistory T) : Sound 0 size { w with nextCall := n, history := hist } :=
  ⟨h.valid, h.senders_nodup, h.mem_senders, h.receivers_nodup, h.mem_receivers, h.empty, h.room⟩

variable [DecidableEq P]

/-- An update between two statuses without a property changes nobody's. -/
theorem update_iff {st : P → CallStatus T} {p : P} {s : CallStatus T} {Q : CallStatus T → Prop}
    (h0 : ¬ Q (st p)) (h1 : ¬ Q s) (q : P) : Q (Function.update st p s q) ↔ Q (st q) := by
  by_cases hq : q = p
  · subst hq
    simp [h0, h1]
  · simp [hq]

section Sections

variable {size : Nat} {w : MessageBus P T} {p : P} {c : Nat} {v : T}

/-- A receiver is never filled from the buffer: with one waiting the buffer is empty. -/
theorem putSection_cases (h : Sound 0 size w) (hp : w.Active p) :
    (∃ r rest, w.blockedReceivers = r :: rest ∧ r.process ≠ p ∧
      w.putSection size p c v = { w with
        blockedReceivers := rest
        status := Function.update (Function.update w.status r.process (.resumed r.storage)) p .running
        history := (w.history.deliver ⟨c, r.storage, v⟩).putReturns c }) ∨
    (w.blockedReceivers = [] ∧ ∃ b, w.buffer.push size v = some b ∧
      w.putSection size p c v = { w with
        buffer := b
        status := Function.update w.status p .running
        history := w.history.putReturns c }) ∨
    (w.blockedReceivers = [] ∧ w.buffer.push size v = none ∧
      w.putSection size p c v = { w with
        blockedSenders := w.blockedSenders ++ [p]
        status := Function.update w.status p (.blockedSend c v) }) := by
  cases hr : w.blockedReceivers with
  | cons r rest =>
    left
    have hpop : w.buffer.pop size = none :=
      (ChannelBuffer.pop_none_iff h.valid).mpr (h.empty (by simp [hr]))
    have hst : w.status r.process = .blockedRecv r.storage := (h.mem_receivers r).mp (by simp [hr])
    refine ⟨r, rest, rfl, ?_, ?_⟩
    · rintro rfl
      exact hp.not_blockedRecv _ hst
    · simp [putSection, maybeDeliver, hr, hpop, unblock, hst, setStatus, putReturns]
  | nil =>
    right
    cases hb : w.buffer.push size v with
    | some b => exact Or.inl ⟨rfl, b, rfl, by simp [putSection, maybeDeliver, hr, hb, putReturns, setStatus]⟩
    | none => exact Or.inr ⟨rfl, rfl, by simp [putSection, maybeDeliver, hr, hb, setStatus]⟩

theorem Sound.senders_update {slack : Nat} (h : Sound slack size w) {s : CallStatus T}
    (h0 : ¬ ∃ c v, w.status p = .blockedSend c v) (h1 : ¬ ∃ c v, s = .blockedSend c v) (q : P) :
    q ∈ w.blockedSenders ↔ ∃ c v, Function.update w.status p s q = .blockedSend c v :=
  (h.mem_senders q).trans (update_iff (Q := fun s => ∃ c v, s = .blockedSend c v) h0 h1 q).symm

theorem Sound.receivers_update {slack : Nat} (h : Sound slack size w) {s : CallStatus T}
    (h0 : ∀ c, w.status p ≠ .blockedRecv c) (h1 : ∀ c, s ≠ .blockedRecv c) (r : Receiver P) :
    r ∈ w.blockedReceivers ↔ Function.update w.status p s r.process = .blockedRecv r.storage :=
  (h.mem_receivers r).trans
    (update_iff (Q := fun s => s = .blockedRecv r.storage) (h0 _) (h1 _) r.process).symm

theorem woken_update {st : P → CallStatus T} {woken : List P}
    (hw : ∀ q, q ∈ woken ↔ ∃ c v, st q = .sending c v) {s : CallStatus T}
    (h0 : ¬ ∃ c v, st p = .sending c v) (h1 : ¬ ∃ c v, s = .sending c v) (q : P) :
    q ∈ woken ↔ ∃ c v, Function.update st p s q = .sending c v :=
  (hw q).trans (update_iff (Q := fun s => ∃ c v, s = .sending c v) h0 h1 q).symm

/-- The woken senders once `p` has taken the lock. -/
theorem woken_erase {st : P → CallStatus T} {woken : List P} (hn : woken.Nodup)
    (hw : ∀ q, q ∈ woken ↔ ∃ c v, st q = .sending c v) {s : CallStatus T}
    (hs : ¬ ∃ c v, s = .sending c v) (q : P) :
    q ∈ woken.erase p ↔ ∃ c v, Function.update st p s q = .sending c v := by
  rw [hn.mem_erase_iff]
  by_cases hq : q = p
  · subst hq
    simpa using hs
  · simp [hq, hw]

theorem length_erase_ge (woken : List P) (p : P) : woken.length ≤ (woken.erase p).length + 1 := by
  rw [List.length_erase]
  split <;> omega

/-- The value goes to the receiver `r`: there is one receiver less. -/
theorem deliver_sound (h : Sound 0 size w) (hp : w.Active p) {r : Receiver P} {rest : List (Receiver P)}
    (hr : w.blockedReceivers = r :: rest) (hrp : r.process ≠ p) (hist : ChannelHistory T) :
    Sound 0 size { w with
      blockedReceivers := rest
      status := Function.update (Function.update w.status r.process (.resumed r.storage)) p .running
      history := hist } := by
  obtain ⟨woken, hn, hw, hroom⟩ := h.room
  have hst : w.status r.process = .blockedRecv r.storage := (h.mem_receivers r).mp (by simp [hr])
  have hproc := h.receivers_nodup
  rw [hr, List.map_cons, List.nodup_cons] at hproc
  have hw' := woken_update (p := r.process) (s := .resumed r.storage) hw (by simp [hst]) (by simp)
  refine ⟨h.valid, h.senders_nodup, ?_, hproc.2, ?_, fun _ => h.empty (by simp [hr]),
    woken.erase p, hn.erase p, woken_erase hn hw' (by simp), ?_⟩
  · intro q
    let resumed := Function.update w.status r.process (.resumed r.storage)
    have step : q ∈ w.blockedSenders ↔ ∃ c v, resumed q = .blockedSend c v :=
      h.senders_update (by simp [hst]) (by simp) q
    have active : ¬ ∃ c v, resumed p = .blockedSend c v := by
      simpa [resumed, Ne.symm hrp] using hp.not_blockedSend
    have last := update_iff (s := .running) (Q := fun s => ∃ c v, s = .blockedSend c v) active (by simp) q
    exact step.trans last.symm
  · intro r'
    have hold := h.mem_receivers r'
    rw [hr, List.mem_cons] at hold
    by_cases hp' : r'.process = p
    · have hno := hp.not_blockedRecv r'.storage
      rw [← hp'] at hno
      simp only [hp', Function.update_self, reduceCtorEq, iff_false]
      intro hmem
      exact hno (hold.mp (Or.inr hmem))
    · by_cases hr' : r'.process = r.process
      · simp only [hr', Function.update_of_ne hrp, Function.update_self, reduceCtorEq, iff_false]
        intro hmem
        exact hproc.1 (hr' ▸ List.mem_map_of_mem hmem)
      · have hne : r' ≠ r := fun he => hr' (by rw [he])
        simp only [ne_eq, hp', not_false_eq_true, Function.update_of_ne, hr']
        rw [← hold]
        simp [hne]
  · intro hs
    have hle := hroom hs
    have hlen := length_erase_ge woken p
    rw [hr, List.length_cons] at hle
    simp only
    omega

theorem putSection_sound (h : Sound 0 size w) (hp : w.Active p) :
    Sound 0 size (w.putSection size p c v) := by
  obtain ⟨woken, hn, hw, hroom⟩ := h.room
  have hlen := length_erase_ge woken p
  rcases putSection_cases (c := c) (v := v) h hp with
    ⟨r, rest, hr, hrp, heq⟩ | ⟨hr, b, hb, heq⟩ | ⟨hr, hb, heq⟩
  · rw [heq]
    exact deliver_sound h hp hr hrp _
  · -- stored: one free slot less
    obtain ⟨hvalid, -, hfree⟩ := ChannelBuffer.push_some h.valid hb
    rw [heq]
    refine ⟨hvalid, h.senders_nodup, h.senders_update hp.not_blockedSend (by simp), h.receivers_nodup,
      h.receivers_update hp.not_blockedRecv (by simp), fun hne => absurd hr hne,
      woken.erase p, hn.erase p, woken_erase hn hw (by simp), ?_⟩
    intro hs
    have hle := hroom hs
    simp only
    omega
  · -- blocked: there was no room
    have hfree := ChannelBuffer.push_none h.valid hb
    have hnot : p ∉ w.blockedSenders := fun hmem => hp.not_blockedSend ((h.mem_senders p).mp hmem)
    rw [heq]
    refine ⟨h.valid, nodup_snoc h.senders_nodup hnot, ?_, h.receivers_nodup,
      h.receivers_update hp.not_blockedRecv (by simp), fun hne => absurd hr hne, woken.erase p,
      hn.erase p, woken_erase hn hw (by simp), ?_⟩
    · intro q
      simp only [List.mem_append, List.mem_singleton, h.mem_senders q]
      by_cases hq : q = p
      · subst hq
        simp
      · simp [hq]
    · intro _
      simp only [hfree, hr, List.length_nil]
      omega

/-- Waking a sender makes up for the room that has come free. -/
theorem maybeFill_sound (h : Sound 1 size w) : Sound 0 size w.maybeFill := by
  obtain ⟨woken, hn, hw, hroom⟩ := h.room
  unfold maybeFill
  cases hs : w.blockedSenders with
  | nil =>
    simp only
    exact ⟨h.valid, h.senders_nodup, h.mem_senders, h.receivers_nodup, h.mem_receivers, h.empty,
      woken, hn, hw, fun hne => absurd hs hne⟩
  | cons s rest =>
    obtain ⟨c, v, hst⟩ := (h.mem_senders s).mp (by simp [hs])
    have hnd := h.senders_nodup
    rw [hs, List.nodup_cons] at hnd
    have hnot : s ∉ woken := by
      intro hmem
      obtain ⟨c', v', hst'⟩ := (hw s).mp hmem
      simp [hst] at hst'
    simp only [unblock, hst, setStatus]
    refine ⟨h.valid, hnd.2, ?_, h.receivers_nodup, h.receivers_update (by simp [hst]) (by simp),
      h.empty, s :: woken, List.nodup_cons.mpr ⟨hnot, hn⟩, ?_, ?_⟩
    · intro q
      have hold := h.mem_senders q
      rw [hs, List.mem_cons] at hold
      by_cases hq : q = s
      · subst hq
        simpa using hnd.1
      · simpa [hq] using hold
    · intro q
      rw [List.mem_cons, hw q, Woken, Woken]
      by_cases hq : q = s
      · subst hq
        simp
      · simp [hq]
    · intro _
      have hle := hroom (by simp [hs])
      simp only [List.length_cons]
      omega

theorem getSection_sound (h : Sound 0 size w) (hp : w.status p = .running) :
    Sound 0 size (w.getSection size p c) := by
  have hact : w.Active p := Or.inl hp
  obtain ⟨woken, hn, hw, hroom⟩ := h.room
  unfold getSection
  cases hpop : w.buffer.pop size with
  | some xb =>
    obtain ⟨x, b⟩ := xb
    obtain ⟨hvalid, hcount, hfree⟩ := ChannelBuffer.pop_some h.valid hpop
    apply maybeFill_sound
    simp only [getReturns, setStatus]
    refine ⟨hvalid, h.senders_nodup, h.senders_update hact.not_blockedSend (by simp),
      h.receivers_nodup, h.receivers_update hact.not_blockedRecv (by simp), ?_, woken, hn,
      woken_update hw (by simp [hp]) (by simp), ?_⟩
    · intro hne
      have h0 := h.empty hne
      omega
    · intro hs
      have hle := hroom hs
      simp only
      omega
  | none =>
    have h0 := (ChannelBuffer.pop_none_iff h.valid).mp hpop
    have hnot : p ∉ w.blockedReceivers.map Receiver.process := by
      intro hmem
      obtain ⟨r, hr, rfl⟩ := List.mem_map.mp hmem
      exact hact.not_blockedRecv _ ((h.mem_receivers r).mp hr)
    apply maybeFill_sound
    simp only [setStatus]
    refine ⟨h.valid, h.senders_nodup, h.senders_update hact.not_blockedSend (by simp), ?_, ?_,
      fun _ => h0, woken, hn, woken_update hw (by simp [hp]) (by simp), ?_⟩
    · rw [List.map_append, List.map_singleton]
      exact nodup_snoc h.receivers_nodup hnot
    · intro r
      rw [List.mem_append, h.mem_receivers r, List.mem_singleton]
      by_cases hr : r.process = p
      · have hno := hact.not_blockedRecv r.storage
        obtain ⟨storage, process⟩ := r
        simp only at hr hno ⊢
        subst hr
        simp [hno, eq_comm]
      · have hne : r ≠ ⟨c, p⟩ := fun he => hr (by rw [he])
        simp [hr, hne]
    · intro hs
      have hle := hroom hs
      simp only [List.length_append, List.length_singleton]
      omega

theorem getReturns_sound (h : Sound 0 size w) (hp : w.status p = .resumed c) :
    Sound 0 size (w.getReturns p c) := by
  obtain ⟨woken, hn, hw, hroom⟩ := h.room
  exact ⟨h.valid, h.senders_nodup, h.senders_update (by simp [hp]) (by simp), h.receivers_nodup,
    h.receivers_update (by simp [hp]) (by simp), h.empty, woken, hn,
    woken_update hw (by simp [hp]) (by simp), hroom⟩

end Sections

/-- What a step is: a call of `put` or `get`, another pass of the loop in `put`, or
the return of `get`. -/
theorem step_cases {size : Nat} {w w' : MessageBus P T} {a : ChannelAction P T}
    (h : w.step size a = some w') :
    (∃ p v, w.status p = .running ∧
      w' = { w with nextCall := w.nextCall + 1, history := w.history.callPut w.nextCall v }.putSection
        size p w.nextCall v) ∨
    (∃ p, w.status p = .running ∧
      w' = { w with nextCall := w.nextCall + 1 }.getSection size p w.nextCall) ∨
    (∃ p c v, w.status p = .sending c v ∧ w' = w.putSection size p c v) ∨
    (∃ p c, w.status p = .resumed c ∧ w' = w.getReturns p c) := by
  cases a with
  | put p v =>
    simp only [step] at h
    split at h
    next hp => exact Or.inl ⟨p, v, hp, (Option.some.inj h).symm⟩
    next => simp at h
  | get p =>
    simp only [step] at h
    split at h
    next hp => exact Or.inr (Or.inl ⟨p, hp, (Option.some.inj h).symm⟩)
    next => simp at h
  | resume p =>
    simp only [step] at h
    split at h
    next c v hp => exact Or.inr (Or.inr (Or.inl ⟨p, c, v, hp, (Option.some.inj h).symm⟩))
    next c hp => exact Or.inr (Or.inr (Or.inr ⟨p, c, hp, (Option.some.inj h).symm⟩))
    next => simp at h

theorem step_sound {size : Nat} {w w' : MessageBus P T} {a : ChannelAction P T}
    (h : Sound 0 size w) (hs : w.step size a = some w') : Sound 0 size w' := by
  rcases step_cases hs with ⟨p, v, hp, rfl⟩ | ⟨p, hp, rfl⟩ | ⟨p, c, v, hp, rfl⟩ | ⟨p, c, hp, rfl⟩
  · exact putSection_sound (h.renumber _ _) (Or.inl hp)
  · exact getSection_sound (h.renumber _ w.history) hp
  · exact putSection_sound h (Or.inr ⟨c, v, hp⟩)
  · exact getReturns_sound h hp

theorem reachable_sound {size : Nat} {w : MessageBus P T} (h : Reachable size w) :
    Sound 0 size w := by
  induction h with
  | start queue => exact sound_start size queue
  | step a _ hs ih => exact step_sound ih hs

theorem ncard_eq_length {l : List P} (hn : l.Nodup) {S : Set P} (hS : ∀ p, p ∈ l ↔ p ∈ S) :
    S.ncard = l.length := by
  have heq : S = (l.toFinset : Set P) := by
    ext p
    simp [← hS p]
  rw [heq, Set.ncard_coe_finset, List.toFinset_card_of_nodup hn]

theorem channel_no_lost_wakeup {size : Nat} {w : MessageBus P T} (h : Reachable size w) :
    ((∃ p c, w.status p = .blockedRecv c) →
      w.buffer.count size = 0 ∧ w.buffer.pop size = none) ∧
    ((∃ p c v, w.status p = .blockedSend c v) →
      w.buffer.free size + {p | ∃ c, w.status p = .blockedRecv c}.ncard ≤ {p | w.Woken p}.ncard) := by
  have hs := reachable_sound h
  constructor
  · rintro ⟨p, c, hp⟩
    have hmem : (⟨c, p⟩ : Receiver P) ∈ w.blockedReceivers := (hs.mem_receivers ⟨c, p⟩).mpr hp
    have h0 := hs.empty (List.ne_nil_of_mem hmem)
    exact ⟨h0, (ChannelBuffer.pop_none_iff hs.valid).mpr h0⟩
  · rintro ⟨p, c, v, hp⟩
    obtain ⟨woken, hn, hw, hroom⟩ := hs.room
    have hmem : p ∈ w.blockedSenders := (hs.mem_senders p).mpr ⟨c, v, hp⟩
    have hrecv : {p | ∃ c, w.status p = .blockedRecv c}.ncard = w.blockedReceivers.length := by
      rw [ncard_eq_length hs.receivers_nodup, List.length_map]
      intro q
      rw [List.mem_map]
      constructor
      · rintro ⟨r, hr, rfl⟩
        exact ⟨r.storage, (hs.mem_receivers r).mp hr⟩
      · rintro ⟨c, hc⟩
        exact ⟨⟨c, q⟩, (hs.mem_receivers ⟨c, q⟩).mpr hc, rfl⟩
    have hwoken : {p | w.Woken p}.ncard = woken.length := ncard_eq_length hn hw
    rw [hrecv, hwoken]
    exact hroom (List.ne_nil_of_mem hmem)

/-- Task 0 blocks in `put` and is then woken up by the `get` of task 1, which blocks: one sender
is on its way for the one receiver, while task 2 has blocked. With room for two values the `get`
of task 1 takes what task 0 has put, and that of task 2 blocks at an empty buffer. -/
theorem channel_no_lost_wakeup_after_get :
    (∃ w : MessageBus Nat Nat, Reachable 0 w ∧ w.blockedSenders = [2] ∧ w.status 1 = .blockedRecv 2 ∧
      (w.buffer.count 0 = 0 ∧ w.buffer.pop 0 = none) ∧
      w.buffer.free 0 + {p | ∃ c, w.status p = .blockedRecv c}.ncard ≤ {p | w.Woken p}.ncard) ∧
    ∃ w : MessageBus Nat Nat, Reachable 2 w ∧ w.status 2 = .blockedRecv 2 ∧
      w.buffer.count 2 = 0 ∧ w.buffer.pop 2 = none := by
  constructor
  · have h0 : Reachable 0 (start (fun _ => 0) : MessageBus Nat Nat) := .start _
    have h1 := Reachable.step (.put 0 7) h0 rfl
    have h2 := Reachable.step (.put 2 8) h1 rfl
    have h3 := Reachable.step (.get 1) h2 rfl
    have kept := channel_no_lost_wakeup h3
    exact ⟨_, h3, rfl, rfl, kept.1 ⟨1, 2, rfl⟩, kept.2 ⟨2, 1, 8, rfl⟩⟩
  · have h0 : Reachable 2 (start (fun _ => 0) : MessageBus Nat Nat) := .start _
    have h1 := Reachable.step (.put 0 7) h0 rfl
    have h2 := Reachable.step (.get 1) h1 rfl
    have h3 := Reachable.step (.get 2) h2 rfl
    exact ⟨_, h3, rfl, (channel_no_lost_wakeup h3).1 ⟨2, 2, rfl⟩⟩

end MessageBus

end XiRuntime
