import XiRuntime.FragmentString

namespace XiRuntime

/-- A negative result is the order of lists, by the first bytes that differ. -/
theorem lexOrder_neg {as bs : List UInt8} : lexOrder as bs < 0 ↔ as < bs := by
  induction as generalizing bs with
  | nil => cases bs <;> simp [lexOrder]
  | cons a as ih =>
    cases bs with
    | nil => simp [lexOrder]
    | cons b bs =>
      rw [List.cons_lt_cons_iff, lexOrder]
      by_cases same : a = b
      · subst same
        simp [ih]
      · simp [same, UInt8.lt_iff_toNat_lt]

theorem lexOrder_swap (as bs : List UInt8) : lexOrder bs as = -lexOrder as bs := by
  induction as generalizing bs with
  | nil => cases bs <;> simp [lexOrder]
  | cons a as ih =>
    cases bs with
    | nil => simp [lexOrder]
    | cons b bs =>
      by_cases same : a = b
      · simp [lexOrder, same, ih]
      · simp [lexOrder, same, Ne.symm same]

theorem lexOrder_pos {as bs : List UInt8} : 0 < lexOrder as bs ↔ bs < as := by
  rw [← lexOrder_neg, lexOrder_swap]
  omega

theorem memcmp_swap {as bs : List UInt8} (h : as.length = bs.length) :
    memcmp bs as = -memcmp as bs := by
  rw [memcmp_eq_lexOrder h, memcmp_eq_lexOrder h.symm, lexOrder_swap]

namespace FragmentString

/-- `operator<`. -/
def less (m : Mem) (l r : FragmentString) : Bool := l.compare m r < 0

/-- `operator>`. -/
def greater (m : Mem) (l r : FragmentString) : Bool := l.compare m r < 0

/-- `operator==`. -/
def equal (m : Mem) (l r : FragmentString) : Bool := l.compare m r = 0

/-- The operators are one strict order on the three strings. -/
structure Ordered (m : Mem) (a b c : FragmentString) : Prop where
  trichotomy : a.less m b ∧ ¬ a.equal m b ∧ ¬ b.less m a ∨ ¬ a.less m b ∧ a.equal m b ∧ ¬ b.less m a ∨
    ¬ a.less m b ∧ ¬ a.equal m b ∧ b.less m a
  flipped : a.greater m b ↔ b.less m a
  transitive : a.less m b → b.less m c → a.less m c

variable {a b : FragmentString}

/-- `compare(string_ref)` is the lexicographic comparison of the bytes. -/
theorem compare_string_lexicographic (m : Mem) (ha : a.size < 2 ^ 31) {s : List UInt8}
    (hs : s.length < 2 ^ 31) :
    (a.compareString m s < 0 ↔ content m a.fragments < s) ∧
      (a.compareString m s = 0 ↔ content m a.fragments = s) ∧
      (0 < a.compareString m s ↔ s < content m a.fragments) := by
  have sign := compareString_sign m ha hs
  refine ⟨?_, ?_, ?_⟩
  · rw [← Int.sign_eq_neg_one_iff_neg, sign, Int.sign_eq_neg_one_iff_neg, lexOrder_neg]
  · rw [← Int.sign_eq_zero_iff_zero, sign, Int.sign_eq_zero_iff_zero, lexOrder_eq_zero]
  · rw [← Int.sign_eq_one_iff_pos, sign, Int.sign_eq_one_iff_pos, lexOrder_pos]

/-- A|B|A and AB, with an empty fragment between the cuts: the prefix is the smaller one. -/
theorem compare_string_lexicographic_prefix :
    ¬ content sample [single 0 1, single 9 0, single 1 2] < [65, 66] ∧
      0 < compareString sample ⟨[single 0 1, single 9 0, single 1 2], 3, rfl⟩ [65, 66] ∧
      [65, 66] < content sample [single 0 1, single 9 0, single 1 2] := by
  have compared := compare_string_lexicographic sample
    (a := ⟨[single 0 1, single 9 0, single 1 2], 3, rfl⟩) (by decide) (s := [65, 66]) (by decide)
  exact ⟨fun less => absurd (compared.1.mpr less) (by decide), by decide,
    compared.2.2.mp (by decide)⟩

theorem compare_swap (m : Mem) (ha : a.size < 2 ^ 31) (hb : b.size < 2 ^ 31) :
    b.compare m a = -a.compare m b := by
  rw [compare_eq m ha hb, compare_eq m hb ha, walked_comm b.fragments,
    memcmp_swap (walked_length m a.fragments b.fragments)]
  simp only [ne_eq, neg_eq_zero, ite_not]
  split
  next => omega
  next => rfl

/-- Equal for the operators: what the walk compares is equal, and so are the sizes. -/
theorem compare_eq_zero (m : Mem) (ha : a.size < 2 ^ 31) (hb : b.size < 2 ^ 31) :
    a.compare m b = 0 ↔
      a.size = b.size ∧ (content m a.fragments).take (walked a.fragments b.fragments) =
        (content m b.fragments).take (walked a.fragments b.fragments) := by
  rw [compare_eq m ha hb, ← memcmp_eq_zero (walked_length m a.fragments b.fragments)]
  split
  next differs => simp [differs]
  next same =>
    rw [not_not] at same
    simp only [same, and_true]
    omega

/-- The three operators fit together only on strings that they take to be equal. -/
theorem operators_ordered_iff (m : Mem) (ha : a.size < 2 ^ 31) (hb : b.size < 2 ^ 31)
    (c : FragmentString) :
    Ordered m a b c ↔
      a.size = b.size ∧ (content m a.fragments).take (walked a.fragments b.fragments) =
        (content m b.fragments).take (walked a.fragments b.fragments) := by
  rw [← compare_eq_zero m ha hb]
  have swap := compare_swap m ha hb
  constructor
  · intro ordered
    have flipped := ordered.flipped
    simp only [greater, less, decide_eq_true_iff, swap] at flipped
    omega
  · intro zero
    rw [zero, neg_zero] at swap
    constructor
    · simp [less, equal, zero, swap]
    · simp [greater, less, zero, swap]
    · simp [less, zero]

/-- Where the cuts do not matter `<` is the order of the bytes. -/
theorem less_iff (m : Mem) (ha : a.size < 2 ^ 31) (hb : b.size < 2 ^ 31) (h : ComparesAsString m a b) :
    a.less m b = true ↔ content m a.fragments < content m b.fragments := by
  have sign := (comparesAsString_of_sign ha hb).mp h
  rw [less, decide_eq_true_iff, ← lexOrder_neg, ← Int.sign_eq_neg_one_iff_neg, sign,
    Int.sign_eq_neg_one_iff_neg]

/-- So there it is transitive; only the cuts can break this. -/
theorem less_trans (m : Mem) {c : FragmentString} (ha : a.size < 2 ^ 31) (hb : b.size < 2 ^ 31)
    (hc : c.size < 2 ^ 31) (hab : ComparesAsString m a b) (hbc : ComparesAsString m b c)
    (hac : ComparesAsString m a c) (first : a.less m b = true) (second : b.less m c = true) :
    a.less m c = true := by
  rw [less_iff m ha hb hab] at first
  rw [less_iff m hb hc hbc] at second
  rw [less_iff m ha hc hac]
  exact List.lt_trans first second

/-- A|B and AB are equal for the operators. -/
theorem operators_ordered_same_size :
    ∃ a b c : FragmentString, a.fragments ≠ b.fragments ∧ Ordered sample a b c :=
  ⟨⟨[single 0 1, single 1 1], 2, rfl⟩, ⟨[single 0 2], 2, rfl⟩, ⟨[single 4 3], 3, rfl⟩, by decide,
    (operators_ordered_iff sample (by decide) (by decide) _).mpr (by decide)⟩

/-- A|B is less than AAA, greater than it as well, and not less than AB, which AAA is less than. -/
theorem operators_not_ordered :
    ∃ a b c : FragmentString, a.size < 2 ^ 31 ∧ b.size < 2 ^ 31 ∧ c.size < 2 ^ 31 ∧
      ¬ Ordered sample a b c ∧ (a.greater sample b ∧ ¬ b.less sample a) ∧
      a.less sample b ∧ b.less sample c ∧ ¬ a.less sample c := by
  refine ⟨⟨[single 0 1, single 1 1], 2, rfl⟩, ⟨[single 4 3], 3, rfl⟩, ⟨[single 0 2], 2, rfl⟩, by decide,
    by decide, by decide, ?_, by decide, by decide, by decide, by decide⟩
  intro ordered
  exact absurd (ordered.transitive (by decide) (by decide)) (by decide)

end FragmentString

end XiRuntime
