import Mathlib.Order.Monotone.Basic
import XiRuntime.SmallPool

namespace XiRuntime

namespace SmallPool

variable {size idx : Nat}

theorem idxToSize_eq (idx : Nat) : idxToSize idx = (4 + idx % 4) * 2 ^ (idx / 4) / 4 := by
  have low : idx &&& 3 = idx % 4 := Nat.and_two_pow_sub_one_eq_mod idx 2
  have frac : 4 ||| idx % 4 = 4 + idx % 4 :=
    (Nat.two_pow_add_eq_or_of_lt (i := 2) (Nat.mod_lt idx (by decide)) 1).symm
  show ((4 ||| (idx &&& 3)) <<< (idx >>> 2)) >>> 2 = _
  rw [low, frac, Nat.shiftLeft_eq, Nat.shiftRight_eq_div_pow, Nat.shiftRight_eq_div_pow]

theorem idxToSize_mono : Monotone idxToSize := by
  refine monotone_nat_of_le_succ fun idx => ?_
  rw [idxToSize_eq, idxToSize_eq]
  refine Nat.div_le_div_right ?_
  by_cases last : idx % 4 = 3
  · have next : (idx + 1) % 4 = 0 := by omega
    have power : (idx + 1) / 4 = idx / 4 + 1 := by omega
    rw [last, next, power, pow_succ]
    omega
  · have next : (idx + 1) % 4 = idx % 4 + 1 := by omega
    have power : (idx + 1) / 4 = idx / 4 := by omega
    rw [next, power]
    exact Nat.mul_le_mul_right _ (by omega)

/-- The classes from one power of two to the next are a quarter of it apart. -/
theorem idxToSize_quarter {e q : Nat} (least : 3 ≤ q) (most : q ≤ 7) :
    idxToSize (4 * (e + 2) + (q - 3)) = (q + 1) * 2 ^ e := by
  rw [idxToSize_eq]
  by_cases last : q = 7
  · subst last
    rw [show (4 * (e + 2) + (7 - 3)) % 4 = 0 by omega, show (4 * (e + 2) + (7 - 3)) / 4 = e + 3 by omega,
      pow_add]
    omega
  · rw [show (4 * (e + 2) + (q - 3)) % 4 = q - 3 by omega,
      show (4 * (e + 2) + (q - 3)) / 4 = e + 2 by omega, pow_add, ← Nat.mul_assoc, show 4 + (q - 3) = q + 1 by omega]
    exact Nat.mul_div_cancel _ (by decide)

theorem usizeoIdx_eq (h : 4 ≤ size) :
    ∃ e q, 2 ^ (e + 2) ≤ size ∧ q * 2 ^ e < size ∧ size ≤ (q + 1) * 2 ^ e ∧
      3 ≤ q ∧ q ≤ 7 ∧ usizeoIdx size = 4 * (e + 2) + (q - 3) := by
  have low := Nat.log2_self_le (n := size) (by omega)
  have high := Nat.lt_log2_self (n := size)
  have two : 2 ≤ Nat.log2 size := (Nat.le_log2 (by omega)).mpr h
  obtain ⟨e, log⟩ : ∃ e, Nat.log2 size = e + 2 := ⟨Nat.log2 size - 2, by omega⟩
  rw [log] at low high
  rw [pow_add, pow_add] at high
  have pos := Nat.two_pow_pos e
  have split := Nat.div_add_mod' (size - 1) (2 ^ e)
  have rest := Nat.mod_lt (size - 1) pos
  have least : 3 ≤ (size - 1) / 2 ^ e := by
    rw [Nat.le_div_iff_mul_le pos]
    rw [pow_add] at low
    omega
  have most : (size - 1) / 2 ^ e < 8 := by
    rw [Nat.div_lt_iff_lt_mul pos]
    omega
  refine ⟨e, (size - 1) / 2 ^ e, low, by omega, ?_, least, by omega, ?_⟩
  · rw [Nat.add_mul]
    omega
  · show (Nat.log2 size <<< 2) - 3 + (size - 1) >>> (Nat.log2 size - 2) = _
    rw [log, Nat.shiftLeft_eq, Nat.shiftRight_eq_div_pow, Nat.add_sub_cancel]
    omega

/-- A class has room for a size just from its own class on. -/
theorem usizeoIdx_le_iff (h : 4 ≤ size) : usizeoIdx size ≤ idx ↔ size ≤ idxToSize idx := by
  obtain ⟨e, q, low, above, below, least, most, index⟩ := usizeoIdx_eq h
  rw [index]
  constructor
  · intro le
    calc size ≤ (q + 1) * 2 ^ e := below
      _ = idxToSize (4 * (e + 2) + (q - 3)) := (idxToSize_quarter least most).symm
      _ ≤ idxToSize idx := idxToSize_mono le
  · intro fits
    by_contra less
    have before : idx ≤ 4 * (e + 2) + (q - 3) - 1 := by omega
    have le := Nat.le_trans fits (idxToSize_mono before)
    by_cases power : q = 3
    · subst power
      cases e with
      | zero =>
        rw [show idxToSize (4 * (0 + 2) + (3 - 3) - 1) = 3 by decide] at le
        omega
      | succ e =>
        rw [show 4 * (e + 1 + 2) + (3 - 3) - 1 = 4 * (e + 2) + (6 - 3) by omega,
          idxToSize_quarter (by decide) (by decide)] at le
        rw [show e + 1 + 2 = e + 3 by omega, pow_add] at low
        have pos := Nat.two_pow_pos e
        omega
    · rw [show 4 * (e + 2) + (q - 3) - 1 = 4 * (e + 2) + (q - 1 - 3) by omega,
        idxToSize_quarter (by omega) (by omega), Nat.sub_add_cancel (by omega)] at le
      omega

/-- A power of two has a class of its own. -/
theorem idxToSize_two_pow (k : Nat) : idxToSize (usizeoIdx (2 ^ (k + 2))) = 2 ^ (k + 2) := by
  have four : 4 ≤ 2 ^ (k + 2) := by
    have pos := Nat.two_pow_pos k
    rw [pow_add]
    omega
  have own : idxToSize (4 * (k + 2)) = 2 ^ (k + 2) := by
    have quarter := idxToSize_quarter (e := k) (q := 3) (by decide) (by decide)
    rw [pow_add, Nat.mul_comm (2 ^ k)]
    exact quarter
  refine Nat.le_antisymm ?_ ((usizeoIdx_le_iff four).mp (Nat.le_refl _))
  calc idxToSize (usizeoIdx (2 ^ (k + 2)))
      ≤ idxToSize (4 * (k + 2)) := idxToSize_mono ((usizeoIdx_le_iff four).mpr (Nat.le_of_eq own.symm))
    _ = 2 ^ (k + 2) := own

/-- The pools have a class for every small size. -/
theorem usizeoIdx_lt (h : 4 ≤ size) (small : size ≤ maxSmallAllocation) :
    usizeoIdx size < nrSmallPools :=
  Nat.lt_of_le_of_lt ((usizeoIdx_le_iff h).mpr small) (by decide)

theorem log2ceil_spec (h : 2 ≤ size) : size ≤ 2 ^ log2ceil size ∧
    ∀ k, size ≤ 2 ^ k → log2ceil size ≤ k := by
  unfold log2ceil
  constructor
  · have high := Nat.lt_log2_self (n := size - 1)
    omega
  · intro k le
    have lt : Nat.log2 (size - 1) < k := (Nat.log2_lt (by omega)).mpr (by omega)
    omega

end SmallPool

end XiRuntime
