import Mathlib.Data.Nat.Find
import XiRuntime.Scheduler

namespace XiRuntime

/-- How `poll` ends: it returns what is left of the mask, `at` throws out of a `noexcept`
function, or a shift by all 64 bits has no defined result. -/
inductive PollEnd
  | returns (signals : BitVec 64)
  | terminates
  | undefined
deriving DecidableEq, Repr

/-- `shard::signals`; of the handlers only the numbers they are registered for. -/
structure Signals where
  handlers : Nat → Bool
  pending : BitVec 64

namespace Signals

/-- The loop of `poll`: the numbers whose handlers are called, in order. -/
def pollLoop (handlers : Nat → Bool) (signals : BitVec 64) : List Nat × PollEnd :=
  if _h : signals = 0 then ([], .returns signals)
  else if handlers (countTrailingZeroes signals) then
    if countTrailingZeroes signals + 1 ≥ 64 then ([countTrailingZeroes signals], .undefined)
    else
      (pollLoop handlers (signals >>> (countTrailingZeroes signals + 1))).map
        (countTrailingZeroes signals :: ·) id
  else ([], .terminates)
termination_by signals.toNat
decreasing_by
  have hpos : signals.toNat ≠ 0 := fun hzero => _h (BitVec.toNat_inj.mp hzero)
  rw [BitVec.toNat_ushiftRight, Nat.shiftRight_eq_div_pow]
  exact Nat.div_lt_self (Nat.pos_of_ne_zero hpos) (Nat.one_lt_two_pow (by omega))

/-- `poll`, where the signals of `before` are raised between the `load` and the `fetch_and`
and those of `during` afterwards. -/
def poll (s : Signals) (before during : BitVec 64) : Signals × List Nat × PollEnd :=
  let signals := s.pending
  if signals = 0 then ({ s with pending := s.pending ||| before ||| during }, [], .returns signals)
  else
    ({ s with pending := (s.pending ||| before) &&& ~~~ signals ||| during },
      pollLoop s.handlers signals)

/-- Every pending signal has its handler called once, no other handler is called, and the
signals raised meanwhile are pending afterwards. -/
def RunsPending (s : Signals) (before during : BitVec 64) : Prop :=
  (∃ rest, (s.poll before during).2.2 = .returns rest) ∧
    (∀ i, (s.poll before during).2.1.count i = if s.pending.getLsbD i then 1 else 0) ∧
    (s.poll before during).1.pending = before &&& ~~~ s.pending ||| during

variable {handlers : Nat → Bool} {m : BitVec 64}

theorem pollLoop_zero (handlers : Nat → Bool) : pollLoop handlers 0 = ([], .returns 0) := by
  unfold pollLoop
  simp

/-- One round of the loop, with a handler for the number it comes to. -/
theorem pollLoop_round (handlers : Nat → Bool) (h : m ≠ 0) (hhandler : handlers (countTrailingZeroes m) = true) :
    pollLoop handlers m =
      if countTrailingZeroes m + 1 ≥ 64 then ([countTrailingZeroes m], .undefined)
      else
        (pollLoop handlers (m >>> (countTrailingZeroes m + 1))).map (countTrailingZeroes m :: ·) id := by
  rw [pollLoop]
  simp only [h, dite_false, hhandler, if_true]

/-- A number that is called is below every bound on the signals in the mask: the later ones
are counted from the one before. -/
theorem pollLoop_lt {n : Nat} (h : ∀ k, n ≤ k → m.getLsbD k = false) :
    ∀ i ∈ (pollLoop handlers m).1, i < n := by
  fun_induction pollLoop handlers m generalizing n with
  | case1 => simp
  | case2 m hne hhandler hlast =>
    intro i hi
    rw [List.mem_singleton] at hi
    by_contra hle
    have hclear := h i (by omega)
    rw [hi, countTrailingZeroes_set hne] at hclear
    cases hclear
  | case3 m hne hhandler hlast ih =>
    intro i hi
    rcases List.mem_cons.mp hi with rfl | hi
    · by_contra hle
      have hclear := h _ (Nat.le_of_not_lt hle)
      rw [countTrailingZeroes_set hne] at hclear
      cases hclear
    · refine ih ?_ i hi
      intro j hj
      rw [BitVec.getLsbD_ushiftRight]
      exact h _ (by omega)
  | case4 => simp

theorem getLsbD_one_shift {i : Nat} (h : i < 64) (k : Nat) :
    (1#64 <<< i).getLsbD k = decide (k = i) := by
  by_cases hk : k < 64
  · simp only [BitVec.getLsbD_shiftLeft, BitVec.getLsbD_one, hk, decide_true, Bool.true_and]
    by_cases heq : k = i
    · simp [heq]
    · simp only [heq, decide_false, Bool.and_eq_false_iff, Bool.not_eq_false', decide_eq_true_eq,
        decide_eq_false_iff_not]
      omega
  · rw [BitVec.getLsbD_of_ge _ _ (by omega), decide_eq_false (by omega)]

/-- The bits behind the lowest one are what the next round sees. -/
theorem eq_shift_of_rest (h : m ≠ 0) (hlast : m >>> (countTrailingZeroes m + 1) = 0) :
    m = 1#64 <<< countTrailingZeroes m := by
  apply BitVec.eq_of_getLsbD_eq
  intro i hi
  rw [getLsbD_one_shift (countTrailingZeroes_lt h)]
  rcases Nat.lt_trichotomy i (countTrailingZeroes m) with hlt | heq | hgt
  · rw [countTrailingZeroes_below h i hlt]
    simp only [Nat.ne_of_lt hlt, decide_false]
  · rw [heq, countTrailingZeroes_set h, decide_eq_true rfl]
  · have hrest := congrArg (fun r => r.getLsbD (i - (countTrailingZeroes m + 1))) hlast
    simp only [BitVec.getLsbD_ushiftRight] at hrest
    rw [show countTrailingZeroes m + 1 + (i - (countTrailingZeroes m + 1)) = i by omega] at hrest
    rw [hrest, decide_eq_false (Nat.ne_of_gt hgt)]
    exact BitVec.getLsbD_zero

theorem exists_highest (h : m ≠ 0) :
    ∃ top, m.getLsbD top = true ∧ ∀ k, top < k → m.getLsbD k = false := by
  have hbound : ∀ k, m.getLsbD k = true → k ≤ 63 := by
    intro k hk
    have := BitVec.lt_of_getLsbD hk
    omega
  have hlow := countTrailingZeroes_set h
  refine ⟨Nat.findGreatest (fun k => m.getLsbD k = true) 63, ?_, ?_⟩
  · exact Nat.findGreatest_spec (P := fun k => m.getLsbD k = true) (hbound _ hlow) hlow
  · intro k hk
    by_contra hnot
    have hk' : m.getLsbD k = true := by simpa using hnot
    exact Nat.findGreatest_is_greatest hk (hbound k hk') hk'

theorem mem_pollLoop {i : Nat} (h : i ∈ (pollLoop handlers m).1) :
    i = countTrailingZeroes m ∨ i ∈ (pollLoop handlers (m >>> (countTrailingZeroes m + 1))).1 := by
  rw [pollLoop] at h
  split at h
  next => simp at h
  next =>
    split at h
    next =>
      split at h
      next => exact Or.inl (List.mem_singleton.mp h)
      next => exact List.mem_cons.mp h
    next => simp at h

/-- With two signals the highest one is not called: it is taken for a lower number. -/
theorem pollLoop_misses (handlers : Nat → Bool) (h : m ≠ 0) (hmore : m >>> (countTrailingZeroes m + 1) ≠ 0) :
    ∃ i, m.getLsbD i = true ∧ i ∉ (pollLoop handlers m).1 := by
  obtain ⟨top, hset, habove⟩ := exists_highest h
  refine ⟨top, hset, ?_⟩
  -- the second lowest bit keeps the lowest from being the top
  have hsecond := countTrailingZeroes_set hmore
  rw [BitVec.getLsbD_ushiftRight] at hsecond
  have hlt : countTrailingZeroes m < top := by
    by_contra hle
    have hclear := habove (countTrailingZeroes m + 1 +
      countTrailingZeroes (m >>> (countTrailingZeroes m + 1))) (by omega)
    rw [hclear] at hsecond
    cases hsecond
  have hrest : ∀ i ∈ (pollLoop handlers (m >>> (countTrailingZeroes m + 1))).1, i < top := by
    apply pollLoop_lt
    intro k hk
    rw [BitVec.getLsbD_ushiftRight]
    exact habove _ (by omega)
  intro hmem
  rcases mem_pollLoop hmem with heq | hmem
  · omega
  · exact Nat.lt_irrefl _ (hrest top hmem)

theorem pollLoop_single {i : Nat} (h : i < 63) (hhandler : handlers i = true) :
    pollLoop handlers (1#64 <<< i) = ([i], .returns 0) := by
  have hbit := getLsbD_one_shift (show i < 64 by omega)
  have hne : (1#64 <<< i) ≠ 0 := by
    intro hzero
    have hset := hbit i
    simp [hzero] at hset
  have hctz : countTrailingZeroes (1#64 <<< i) = i := by
    refine (countTrailingZeroes_eq hne).mpr ⟨by omega, by rw [hbit, decide_eq_true rfl], ?_⟩
    intro j hj
    rw [hbit, decide_eq_false (Nat.ne_of_lt hj)]
  have hrest : (1#64 <<< i) >>> (i + 1) = 0 := by
    apply BitVec.eq_of_getLsbD_eq
    intro k hk
    rw [BitVec.getLsbD_ushiftRight, hbit, decide_eq_false (by omega)]
    exact BitVec.getLsbD_zero.symm
  rw [pollLoop_round _ hne (by rw [hctz]; exact hhandler), hctz, hrest, pollLoop_zero, if_neg (by omega)]
  rfl

theorem poll_pending (s : Signals) (before during : BitVec 64) :
    (s.poll before during).1.pending = before &&& ~~~ s.pending ||| during := by
  apply BitVec.eq_of_getLsbD_eq
  intro i hi
  unfold poll
  simp only
  split
  next hzero =>
    have hclear : s.pending.getLsbD i = false := by
      rw [hzero]
      exact BitVec.getLsbD_zero
    simp only [BitVec.getLsbD_or, BitVec.getLsbD_and, BitVec.getLsbD_not, hi, hclear, decide_true,
      Bool.not_false, Bool.and_true, Bool.false_or]
  next =>
    simp only [BitVec.getLsbD_or, BitVec.getLsbD_and, BitVec.getLsbD_not, hi, decide_true,
      Bool.true_and]
    cases s.pending.getLsbD i <;> simp

/-- The handlers of all pending signals are called, each once, and no others, just when there
is no more than one and that is not number 63. -/
theorem poll_runs_pending_iff {s : Signals}
    (registered : ∀ i, s.pending.getLsbD i = true → s.handlers i = true)
    (before during : BitVec 64) :
    s.RunsPending before during ↔ s.pending = 0 ∨ ∃ i < 63, s.pending = 1#64 <<< i := by
  by_cases hzero : s.pending = 0
  · have hpoll : (s.poll before during).2 = ([], .returns 0) := by
      unfold poll
      simp only [hzero, if_true]
    refine iff_of_true ⟨⟨0, by rw [hpoll]⟩, fun i => ?_, poll_pending s before during⟩ (Or.inl hzero)
    rw [hpoll, hzero]
    simp
  have hpoll : (s.poll before during).2 = pollLoop s.handlers s.pending := by
    unfold poll
    simp only [hzero, if_false]
  constructor
  · rintro ⟨⟨rest, hreturns⟩, hcount, -⟩
    rw [hpoll] at hreturns
    right
    have hhandler := registered _ (countTrailingZeroes_set hzero)
    have hlow : countTrailingZeroes s.pending < 63 := by
      by_contra hlast
      rw [pollLoop_round _ hzero hhandler, if_pos (by omega)] at hreturns
      cases hreturns
    refine ⟨_, hlow, eq_shift_of_rest hzero ?_⟩
    by_contra hmore
    obtain ⟨i, hset, hmissed⟩ := pollLoop_misses s.handlers hzero hmore
    have hnone := hcount i
    rw [hpoll, hset, List.count_eq_zero.mpr hmissed] at hnone
    simp at hnone
  · rintro (hnone | ⟨i, hi, heq⟩)
    · exact absurd hnone hzero
    · have hbit := getLsbD_one_shift (show i < 64 by omega)
      have hloop := pollLoop_single hi (registered i (by rw [heq, hbit, decide_eq_true rfl]))
      rw [← heq, ← hpoll] at hloop
      refine ⟨⟨0, by rw [hloop]⟩, fun k => ?_, poll_pending s before during⟩
      rw [hloop, heq, hbit, List.count_singleton]
      by_cases hk : k = i
      · simp [hk]
      · simp [hk, Ne.symm hk]

/-- `SIGINT` alone. -/
theorem poll_runs_pending_interrupt :
    (⟨fun _ => true, 1#64 <<< 2⟩ : Signals).RunsPending (1#64 <<< 15) 0 :=
  (poll_runs_pending_iff (s := ⟨fun _ => true, 1#64 <<< 2⟩) (fun _ _ => rfl) (1#64 <<< 15) 0).mpr
    (Or.inr ⟨2, by omega, rfl⟩)

/-- With `SIGINT` and `SIGTERM` the handler of number 12 is called for the second. -/
theorem poll_misnumbers_second :
    ¬ ∀ (s : Signals) (before during : BitVec 64),
      (∀ i, s.pending.getLsbD i = true → s.handlers i = true) → s.RunsPending before during := by
  intro h
  have hruns := h ⟨fun _ => true, 1#64 <<< 2 ||| 1#64 <<< 15⟩ 0 0 (fun _ _ => rfl)
  have hcount := hruns.2.1 15
  have hcalls : ((⟨fun _ => true, 1#64 <<< 2 ||| 1#64 <<< 15⟩ : Signals).poll 0 0).2.1 = [2, 12] := by
    have hrest : (1#64 <<< 2 ||| 1#64 <<< 15) >>> 3 = 1#64 <<< 12 := by decide
    have hctz : countTrailingZeroes (1#64 <<< 2 ||| 1#64 <<< 15) = 2 := by decide
    have hne : (1#64 <<< 2 ||| 1#64 <<< 15) ≠ 0 := by decide
    have hround := pollLoop_round (fun _ => true) hne rfl
    rw [hctz, hrest, pollLoop_single (by omega) rfl] at hround
    simp only [poll, hround]
    rfl
  rw [hcalls] at hcount
  revert hcount
  decide

end Signals

end XiRuntime
