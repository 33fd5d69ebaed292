import XiRuntime.ChannelWakeup

namespace XiRuntime

namespace MessageBus

variable {P T : Type}

/-- The task is inside the call `c` of `put` and still has its value. -/
def Holds (w : MessageBus P T) (p : P) (c : Nat) (v : T) : Prop :=
  w.status p = .blockedSend c v ∨ w.status p = .sending c v

/-- The books of an unbuffered channel: a `put` has returned exactly if it has
written a storage, every other one is still with its task, and the storages are
written in the order in which the calls of `get` blocked. -/
structure Exact (w : MessageBus P T) : Prop where
  filled : w.history.filled = []
  puts_done : w.history.putsDone = w.history.delivered.map Delivery.put
  puts_lt : ∀ e ∈ w.history.puts, e.1 < w.nextCall
  puts_nodup : (w.history.puts.map Prod.fst).Nodup
  order_lt : ∀ c ∈ w.history.blockOrder, c < w.nextCall
  order_nodup : w.history.blockOrder.Nodup
  fifo : w.history.delivered.map Delivery.get ++ w.blockedReceivers.map Receiver.storage =
    w.history.blockOrder
  delivered_mem : ∀ d ∈ w.history.delivered, (d.put, d.value) ∈ w.history.puts
  delivered_nodup : (w.history.delivered.map Delivery.put).Nodup
  holds_mem : ∀ p c v, w.Holds p c v →
    (c, v) ∈ w.history.puts ∧ c ∉ w.history.delivered.map Delivery.put
  holds_unique : ∀ p q c v v', w.Holds p c v → w.Holds q c v' → p = q
  held : ∀ e ∈ w.history.puts,
    e.1 ∈ w.history.delivered.map Delivery.put ∨ ∃ p, w.Holds p e.1 e.2
  resumed : ∀ p c, w.status p = .resumed c → c ∈ w.history.delivered.map Delivery.get
  gets_done : ∀ c ∈ w.history.getsDone, c ∈ w.history.delivered.map Delivery.get

theorem exact_start (queue : Nat → T) : Exact (start queue : MessageBus P T) := by
  constructor <;> simp [start, ChannelHistory.empty, Holds]

/-- Steps without a delivery: the same values are held, and nobody is resumed. -/
theorem Exact.quiet {w w' : MessageBus P T} (h : Exact w)
    (hhist : w'.history.puts = w.history.puts ∧ w'.history.delivered = w.history.delivered ∧
      w'.history.filled = w.history.filled ∧ w'.history.putsDone = w.history.putsDone)
    (hcall : w.nextCall ≤ w'.nextCall)
    (horder : ∀ c ∈ w'.history.blockOrder, c < w'.nextCall) (hnodup : w'.history.blockOrder.Nodup)
    (hfifo : w.history.delivered.map Delivery.get ++ w'.blockedReceivers.map Receiver.storage =
      w'.history.blockOrder)
    (hholds : ∀ q c v, w'.Holds q c v ↔ w.Holds q c v)
    (hres : ∀ q c, w'.status q = .resumed c → w.status q = .resumed c)
    (hgets : ∀ c ∈ w'.history.getsDone, c ∈ w.history.delivered.map Delivery.get) : Exact w' := by
  obtain ⟨hputs, hdel, hfil, hdone⟩ := hhist
  refine ⟨hfil.trans h.filled, ?_, ?_, ?_, horder, hnodup, ?_, ?_, ?_, ?_, ?_, ?_, ?_, ?_⟩
  · rw [hdone, hdel, h.puts_done]
  · rw [hputs]
    exact fun e he => Nat.lt_of_lt_of_le (h.puts_lt e he) hcall
  · rw [hputs]
    exact h.puts_nodup
  · rw [hdel]
    exact hfifo
  · rw [hdel, hputs]
    exact h.delivered_mem
  · rw [hdel]
    exact h.delivered_nodup
  · intro q c v hh
    rw [hputs, hdel]
    exact h.holds_mem q c v ((hholds q c v).mp hh)
  · intro q q' c v v' h1 h2
    exact h.holds_unique q q' c v v' ((hholds q c v).mp h1) ((hholds q' c v').mp h2)
  · intro e he
    rw [hputs] at he
    rw [hdel]
    refine (h.held e he).imp_right ?_
    rintro ⟨q, hq⟩
    exact ⟨q, (hholds q _ _).mpr hq⟩
  · intro q c hq
    rw [hdel]
    exact h.resumed q c (hres q c hq)
  · rw [hdel]
    exact hgets

variable [DecidableEq P]

section Sections

variable {w : MessageBus P T} {p : P} {c : Nat} {v : T}

/-- A new call of `put` is a call that holds its value. -/
theorem exact_callPut (h : Exact w) (hp : w.status p = .running) :
    Exact ({ w with
      nextCall := w.nextCall + 1
      history := w.history.callPut w.nextCall v }.setStatus p (.sending w.nextCall v)) := by
  have hfresh : ∀ e ∈ w.history.puts, e.1 ≠ w.nextCall := fun e he => Nat.ne_of_lt (h.puts_lt e he)
  have hnew : w.nextCall ∉ w.history.delivered.map Delivery.put := by
    intro hmem
    obtain ⟨d, hd, heq⟩ := List.mem_map.mp hmem
    exact hfresh _ (h.delivered_mem d hd) heq
  have hholds : ∀ q c' v', Holds ({ w with
      nextCall := w.nextCall + 1
      history := w.history.callPut w.nextCall v }.setStatus p (.sending w.nextCall v)) q c' v' ↔
        (q = p ∧ c' = w.nextCall ∧ v' = v) ∨ (q ≠ p ∧ w.Holds q c' v') := by
    intro q c' v'
    by_cases hq : q = p
    · subst hq
      simp [Holds, setStatus, eq_comm]
    · simp [Holds, setStatus, hq]
  refine ⟨h.filled, h.puts_done, ?_, ?_, ?_, h.order_nodup, h.fifo, ?_, h.delivered_nodup, ?_, ?_, ?_,
    ?_, h.gets_done⟩
  · intro e he
    rcases List.mem_append.mp he with he | he
    · exact Nat.lt_succ_of_lt (h.puts_lt e he)
    · rw [List.mem_singleton.mp he]
      exact Nat.lt_succ_self _
  · have hnot : w.nextCall ∉ w.history.puts.map Prod.fst := by
      intro hmem
      obtain ⟨e, he, heq⟩ := List.mem_map.mp hmem
      exact hfresh e he heq
    simp only [setStatus, ChannelHistory.callPut, List.map_append, List.map_singleton]
    exact nodup_snoc h.puts_nodup hnot
  · intro c hc
    exact Nat.lt_succ_of_lt (h.order_lt c hc)
  · intro d hd
    exact List.mem_append_left _ (h.delivered_mem d hd)
  · intro q c' v' hh
    rcases (hholds q c' v').mp hh with ⟨-, rfl, rfl⟩ | ⟨-, hh⟩
    · exact ⟨List.mem_append_right _ (List.mem_singleton.mpr rfl), hnew⟩
    · obtain ⟨hmem, hnd⟩ := h.holds_mem q c' v' hh
      exact ⟨List.mem_append_left _ hmem, hnd⟩
  · intro q q' c' v₁ v₂ h1 h2
    rcases (hholds q c' v₁).mp h1 with ⟨rfl, rfl, -⟩ | ⟨-, h1⟩
    · rcases (hholds q' _ v₂).mp h2 with ⟨rfl, -⟩ | ⟨-, h2⟩
      · rfl
      · exact absurd rfl (hfresh _ (h.holds_mem _ _ _ h2).1)
    · rcases (hholds q' c' v₂).mp h2 with ⟨-, rfl, -⟩ | ⟨-, h2⟩
      · exact absurd rfl (hfresh _ (h.holds_mem _ _ _ h1).1)
      · exact h.holds_unique q q' c' v₁ v₂ h1 h2
  · intro e he
    rcases List.mem_append.mp he with he | he
    · rcases h.held e he with hd | ⟨q, hq⟩
      · exact Or.inl hd
      · refine Or.inr ⟨q, (hholds q _ _).mpr (Or.inr ⟨?_, hq⟩)⟩
        rintro rfl
        rcases hq with hq | hq <;> simp [hp] at hq
    · rw [List.mem_singleton.mp he]
      exact Or.inr ⟨p, (hholds p _ _).mpr (Or.inl ⟨rfl, rfl, rfl⟩)⟩
  · intro q c' hq
    by_cases hqp : q = p
    · subst hqp
      simp [setStatus] at hq
    · exact h.resumed q c' (by simpa [setStatus, hqp] using hq)

/-- The value goes to the receiver that has waited longest. -/
theorem exact_deliver (h : Exact w) (hp : w.Holds p c v) {r : Receiver P} {rest : List (Receiver P)}
    (hr : w.blockedReceivers = r :: rest) (hst : w.status r.process = .blockedRecv r.storage) :
    Exact { w with
      blockedReceivers := rest
      status := Function.update (Function.update w.status r.process (.resumed r.storage)) p .running
      history := (w.history.deliver ⟨c, r.storage, v⟩).putReturns c } := by
  obtain ⟨hmem, hnew⟩ := h.holds_mem p c v hp
  have hholds : ∀ q c' v', Holds { w with
      blockedReceivers := rest
      status := Function.update (Function.update w.status r.process (.resumed r.storage)) p .running
      history := (w.history.deliver ⟨c, r.storage, v⟩).putReturns c } q c' v' ↔
        q ≠ p ∧ w.Holds q c' v' := by
    intro q c' v'
    by_cases hq : q = p
    · subst hq
      simp [Holds]
    · by_cases hqr : q = r.process
      · subst hqr
        simp [Holds, hq, hst]
      · simp [Holds, hq, hqr]
  refine ⟨h.filled, ?_, h.puts_lt, h.puts_nodup, h.order_lt, h.order_nodup, ?_, ?_, ?_, ?_, ?_, ?_, ?_,
    ?_⟩
  · simp only [ChannelHistory.putReturns, ChannelHistory.deliver, List.map_append, List.map_singleton,
      h.puts_done]
  · have hfifo := h.fifo
    rw [hr] at hfifo
    simpa [ChannelHistory.putReturns, ChannelHistory.deliver] using hfifo
  · intro d hd
    rcases List.mem_append.mp hd with hd | hd
    · exact h.delivered_mem d hd
    · rw [List.mem_singleton.mp hd]
      exact hmem
  · simp only [ChannelHistory.putReturns, ChannelHistory.deliver, List.map_append, List.map_singleton]
    exact nodup_snoc h.delivered_nodup hnew
  · intro q c' v' hh
    obtain ⟨hq, hold⟩ := (hholds q c' v').mp hh
    obtain ⟨hm, hn⟩ := h.holds_mem q c' v' hold
    refine ⟨hm, ?_⟩
    simp only [ChannelHistory.putReturns, ChannelHistory.deliver, List.map_append, List.map_singleton,
      List.mem_append, List.mem_singleton, not_or]
    refine ⟨hn, ?_⟩
    rintro rfl
    exact hq (h.holds_unique q p _ _ _ hold hp)
  · intro q q' c' v₁ v₂ h1 h2
    exact h.holds_unique q q' c' v₁ v₂ ((hholds q c' v₁).mp h1).2 ((hholds q' c' v₂).mp h2).2
  · intro e he
    simp only [ChannelHistory.putReturns, ChannelHistory.deliver, List.map_append, List.map_singleton,
      List.mem_append, List.mem_singleton]
    rcases h.held e he with hd | ⟨q, hq⟩
    · exact Or.inl (Or.inl hd)
    · by_cases hqp : q = p
      · subst hqp
        left
        right
        rcases hp with hp | hp <;> rcases hq with hq | hq <;> simp [hp] at hq <;> exact hq.1.symm
      · exact Or.inr ⟨q, (hholds q _ _).mpr ⟨hqp, hq⟩⟩
  · intro q c' hq
    simp only [ChannelHistory.putReturns, ChannelHistory.deliver, List.map_append, List.map_singleton,
      List.mem_append, List.mem_singleton]
    by_cases hqp : q = p
    · subst hqp
      simp at hq
    · by_cases hqr : q = r.process
      · subst hqr
        simp only [Function.update_of_ne hqp, Function.update_self, CallStatus.resumed.injEq] at hq
        exact Or.inr hq.symm
      · exact Or.inl (h.resumed q c' (by simpa [hqp, hqr] using hq))
  · intro c' hc'
    simp only [ChannelHistory.putReturns, ChannelHistory.deliver, List.map_append, List.mem_append]
    exact Or.inl (h.gets_done c' hc')

theorem maybeFill_exact (h : Exact w)
    (hb : ∀ s ∈ w.blockedSenders, ∃ c v, w.status s = .blockedSend c v) : Exact w.maybeFill := by
  unfold maybeFill
  cases hs : w.blockedSenders with
  | nil => exact h
  | cons s rest =>
    obtain ⟨c, v, hst⟩ := hb s (by simp [hs])
    simp only [unblock, hst, setStatus]
    refine h.quiet ⟨rfl, rfl, rfl, rfl⟩ (Nat.le_refl _) h.order_lt h.order_nodup h.fifo ?_ ?_ h.gets_done
    · intro q c' v'
      by_cases hq : q = s
      · subst hq
        simp [Holds, hst]
      · simp [Holds, hq]
    · intro q c' hq
      by_cases hqs : q = s
      · subst hqs
        simp at hq
      · simpa [hqs] using hq

theorem putSection_exact (hs : Sound 0 0 w) (h : Exact w) (hp : w.status p = .sending c v) :
    Exact (w.putSection 0 p c v) := by
  rcases putSection_cases (c := c) (v := v) hs (Or.inr ⟨c, v, hp⟩) with
    ⟨r, rest, hr, -, heq⟩ | ⟨-, b, hb, -⟩ | ⟨-, -, heq⟩
  · rw [heq]
    exact exact_deliver h (Or.inr hp) hr ((hs.mem_receivers r).mp (by simp [hr]))
  · simp [ChannelBuffer.push] at hb
  · rw [heq]
    refine h.quiet ⟨rfl, rfl, rfl, rfl⟩ (Nat.le_refl _) h.order_lt h.order_nodup h.fifo ?_ ?_ h.gets_done
    · intro q c' v'
      by_cases hq : q = p
      · subst hq
        simp [Holds, hp]
      · simp [Holds, hq]
    · intro q c' hq
      by_cases hqp : q = p
      · subst hqp
        simp at hq
      · simpa [hqp] using hq

theorem setSending_sound {size : Nat} (h : Sound 0 size w) (hp : w.status p = .running) :
    Sound 0 size (w.setStatus p (.sending c v)) := by
  obtain ⟨woken, hn, hw, hroom⟩ := h.room
  have hnot : p ∉ woken := by
    intro hmem
    obtain ⟨c', v', hst⟩ := (hw p).mp hmem
    simp [hp] at hst
  refine ⟨h.valid, h.senders_nodup, ?_, h.receivers_nodup, ?_, h.empty, p :: woken,
    List.nodup_cons.mpr ⟨hnot, hn⟩, ?_, ?_⟩
  · intro q
    rw [setStatus, h.mem_senders q]
    exact (update_iff (Q := fun s => ∃ c v, s = .blockedSend c v) (by simp [hp]) (by simp) q).symm
  · intro r
    rw [setStatus, h.mem_receivers r]
    exact (update_iff (Q := fun s => s = .blockedRecv r.storage) (by simp [hp]) (by simp)
      r.process).symm
  · intro q
    rw [List.mem_cons, hw q, Woken, Woken, setStatus]
    by_cases hq : q = p
    · subst hq
      simp
    · simp [hq]
  · intro hs
    exact Nat.le_trans (hroom hs) (by simp)

/-- The status that a task has when it enters `put` does not matter. -/
theorem putSection_setStatus (hs : Sound 0 0 w) (hp : w.status p = .running) :
    (w.setStatus p (.sending c v)).putSection 0 p c v = w.putSection 0 p c v := by
  unfold putSection maybeDeliver
  cases hr : w.blockedReceivers with
  | nil => simp [hr, setStatus, ChannelBuffer.push]
  | cons r rest =>
    have hst := (hs.mem_receivers r).mp (by simp [hr])
    have hne : r.process ≠ p := by
      rintro rfl
      simp [hp] at hst
    simp only [hr, setStatus, ChannelBuffer.pop, if_true, unblock, Function.update_of_ne hne, hst,
      putReturns]
    congr 1
    rw [Function.update_comm hne, Function.update_idem, Function.update_comm hne.symm]

theorem getSection_exact (hs : Sound 0 0 w) (h : Exact w) (hp : w.status p = .running) :
    Exact ({ w with nextCall := w.nextCall + 1 }.getSection 0 p w.nextCall) := by
  have hnot : w.nextCall ∉ w.history.blockOrder := fun hmem => Nat.lt_irrefl _ (h.order_lt _ hmem)
  simp only [getSection, ChannelBuffer.pop, if_true, setStatus]
  apply maybeFill_exact
  · refine h.quiet ⟨rfl, rfl, rfl, rfl⟩ (Nat.le_succ _) ?_ (nodup_snoc h.order_nodup hnot) ?_ ?_ ?_
      h.gets_done
    · intro c' hc'
      rcases List.mem_append.mp hc' with hc' | hc'
      · exact Nat.lt_succ_of_lt (h.order_lt c' hc')
      · rw [List.mem_singleton.mp hc']
        exact Nat.lt_succ_self _
    · simp only [ChannelHistory.block, List.map_append, List.map_singleton, ← List.append_assoc, h.fifo]
    · intro q c' v'
      by_cases hq : q = p
      · subst hq
        simp [Holds, hp]
      · simp [Holds, hq]
    · intro q c' hq
      by_cases hqp : q = p
      · subst hqp
        simp at hq
      · simpa [hqp] using hq
  · intro s hmem
    obtain ⟨c, v, hst⟩ := (hs.mem_senders s).mp hmem
    have hne : s ≠ p := by
      rintro rfl
      simp [hp] at hst
    exact ⟨c, v, by simpa [hne] using hst⟩

theorem getReturns_exact (h : Exact w) (hp : w.status p = .resumed c) : Exact (w.getReturns p c) := by
  refine h.quiet ⟨rfl, rfl, rfl, rfl⟩ (Nat.le_refl _) h.order_lt h.order_nodup h.fifo ?_ ?_ ?_
  · intro q c' v'
    by_cases hq : q = p
    · subst hq
      simp [Holds, getReturns, setStatus, hp]
    · simp [Holds, getReturns, setStatus, hq]
  · intro q c' hq
    by_cases hqp : q = p
    · subst hqp
      simp [getReturns, setStatus] at hq
    · simpa [getReturns, setStatus, hqp] using hq
  · intro c' hc'
    rcases List.mem_append.mp hc' with hc' | hc'
    · exact h.gets_done c' hc'
    · rw [List.mem_singleton.mp hc']
      exact h.resumed p c hp

end Sections

theorem step_exact {w w' : MessageBus P T} {a : ChannelAction P T} (hs : Sound 0 0 w) (h : Exact w)
    (hstep : w.step 0 a = some w') : Exact w' := by
  rcases step_cases hstep with ⟨p, v, hp, rfl⟩ | ⟨p, hp, rfl⟩ | ⟨p, c, v, hp, rfl⟩ | ⟨p, c, hp, rfl⟩
  · have hs' := hs.renumber (w.nextCall + 1) (w.history.callPut w.nextCall v)
    rw [← putSection_setStatus hs' hp]
    exact putSection_exact (setSending_sound hs' hp) (exact_callPut h hp) (by simp [setStatus])
  · exact getSection_exact hs h hp
  · exact putSection_exact hs h hp
  · exact getReturns_exact h hp

theorem reachable_exact {w : MessageBus P T} (h : Reachable 0 w) : Exact w := by
  induction h with
  | start queue => exact exact_start queue
  | step a hr hs ih => exact step_exact (reachable_sound hr) ih hs

/-- Every `put` that has returned has written its value into exactly one storage, the
storage of every `get` that has returned was written exactly once and by such a
`put`, a value that was not delivered is still with its sender, and receivers are
served in the order in which they blocked. -/
structure ExactlyOnce (w : MessageBus P T) : Prop where
  put_returned : ∀ c ∈ w.history.putsDone, (w.history.delivered.map Delivery.put).count c = 1
  get_returned : ∀ c ∈ w.history.getsDone, (w.history.delivered.map Delivery.get).count c = 1
  delivered_value : ∀ d ∈ w.history.delivered,
    d.put ∈ w.history.putsDone ∧ ∀ v, (d.put, v) ∈ w.history.puts ↔ v = d.value
  no_put_twice : (w.history.delivered.map Delivery.put).Nodup
  no_get_twice : (w.history.delivered.map Delivery.get).Nodup
  no_other_write : w.history.filled = []
  none_dropped : ∀ c v, (c, v) ∈ w.history.puts → c ∉ w.history.putsDone → ∃ p, w.Holds p c v
  in_order : w.history.delivered.map Delivery.get ++ w.blockedReceivers.map Receiver.storage =
    w.history.blockOrder

theorem unbuffered_channel_exactly_once {w : MessageBus P T} (h : Reachable 0 w) : ExactlyOnce w := by
  have hx := reachable_exact h
  have hgets : (w.history.delivered.map Delivery.get).Nodup := by
    have hnd := hx.order_nodup
    rw [← hx.fifo] at hnd
    exact (List.nodup_append.mp hnd).1
  refine ⟨?_, ?_, ?_, hx.delivered_nodup, hgets, hx.filled, ?_, hx.fifo⟩
  · intro c hc
    rw [hx.puts_done] at hc
    exact List.count_eq_one_of_mem hx.delivered_nodup hc
  · intro c hc
    exact List.count_eq_one_of_mem hgets (hx.gets_done c hc)
  · intro d hd
    have hmem := hx.delivered_mem d hd
    refine ⟨?_, ?_⟩
    · rw [hx.puts_done]
      exact List.mem_map_of_mem hd
    · intro v
      constructor
      · intro hv
        have heq := List.inj_on_of_nodup_map hx.puts_nodup hv hmem rfl
        exact (Prod.mk.inj heq).2
      · rintro rfl
        exact hmem
  · intro c v hmem hnot
    rw [hx.puts_done] at hnot
    exact (hx.held (c, v) hmem).resolve_left hnot

/-- Tasks 1 and 2 block in `get`, task 0 delivers to task 1, which returns. -/
theorem unbuffered_channel_exactly_once_run :
    ∃ w : MessageBus Nat Nat, Reachable 0 w ∧ w.history.delivered = [⟨2, 0, 7⟩] ∧
      w.history.getsDone = [0] ∧ ExactlyOnce w := by
  have h0 : Reachable 0 (start (fun _ => 0) : MessageBus Nat Nat) := .start _
  have h1 := Reachable.step (.get 1) h0 rfl
  have h2 := Reachable.step (.get 2) h1 rfl
  have h3 := Reachable.step (.put 0 7) h2 rfl
  have h4 := Reachable.step (.resume 1) h3 rfl
  exact ⟨_, h4, rfl, rfl, unbuffered_channel_exactly_once h4⟩

end MessageBus

end XiRuntime
