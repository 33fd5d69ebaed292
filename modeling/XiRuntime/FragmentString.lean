import Mathlib.Algebra.Order.Group.Int
import XiRuntime.Fragment

namespace XiRuntime

/-- `memcmp` on two ranges of one length: the difference of the first bytes that
differ. -/
def memcmp : List UInt8 → List UInt8 → Int
  | a :: as, b :: bs => if a = b then memcmp as bs else (a.toNat : Int) - b.toNat
  | _, _ => 0

/-- Strings in the order of a dictionary: negative, zero or positive. -/
def lexOrder : List UInt8 → List UInt8 → Int
  | [], [] => 0
  | [], _ :: _ => -1
  | _ :: _, [] => 1
  | a :: as, b :: bs => if a = b then lexOrder as bs else (a.toNat : Int) - b.toNat

/-- The low 32 bits of a number, as an `i32`. -/
def toI32 (n : Nat) : Int := if n % 2 ^ 32 < 2 ^ 31 then (n % 2 ^ 32 : Nat) else (n % 2 ^ 32 : Nat) - 2 ^ 32

/-- The difference of two `usize`s, returned as an `i32`. -/
def usizeDiff (a b : Nat) : Int := toI32 ((a + 2 ^ 64 - b) % 2 ^ 64)

/-- `fragment_string`; `_size` is kept beside the fragments. -/
structure FragmentString where
  fragments : List Fragment
  size : Nat
  size_eq : size = (fragments.map Fragment.size).sum

namespace FragmentString

def content (m : Mem) (fs : List Fragment) : List UInt8 := fs.flatMap (Fragment.data m)

/-- The loop of `compare(string_ref)`. -/
def compareStringLoop (m : Mem) (size : Nat) (s : List UInt8) : List Fragment → Nat → Int
  | [], _ => usizeDiff size s.length
  | f :: fs, offset =>
    if f.size = 0 then compareStringLoop m size s fs offset
    else
      let cap := min f.size (s.length - offset)
      let ret := memcmp (m.load f.head cap) ((s.drop offset).take cap)
      if ret ≠ 0 then ret
      else if offset + cap = s.length then usizeDiff size (offset + cap)
      else compareStringLoop m size s fs (offset + cap)

def compareString (m : Mem) (a : FragmentString) (s : List UInt8) : Int :=
  if s.length = 0 then usizeDiff a.size 0 else compareStringLoop m a.size s a.fragments 0

/-- The loop of `compare(ref<fragment_string>)`, which ends in `diff`. -/
def compareLoop (m : Mem) (diff : Int) : List Fragment → List Fragment → Int
  | f :: fs, g :: gs =>
    let cap := min f.size g.size
    let ret := memcmp (m.load f.head cap) (m.load g.head cap)
    if ret ≠ 0 then ret
    else if f.size ≠ g.size then diff
    else compareLoop m diff fs gs
  | _, _ => diff

def compare (m : Mem) (a b : FragmentString) : Int :=
  if b.size = 0 then usizeDiff a.size 0
  else compareLoop m (usizeDiff a.size b.size) a.fragments b.fragments

/-- `copy_to_string`, with `sz` bytes still to take. -/
def copyLoop (m : Mem) : List Fragment → Nat → List UInt8
  | [], _ => []
  | f :: fs, sz =>
    if sz = 0 then []
    else
      let cap := min f.size sz
      m.load f.head cap ++ copyLoop m fs (sz - cap)

def copyToString (m : Mem) (a : FragmentString) (sz : Nat) : List UInt8 := copyLoop m a.fragments sz

/-- The default argument, `usize(-1)`. -/
def npos : Nat := 2 ^ 64 - 1

/-- How many bytes the walk over both lists compares at most: those of the leading
fragments of one size, and the common part of the first two that differ. -/
def walked : List Fragment → List Fragment → Nat
  | f :: fs, g :: gs => if f.size = g.size then f.size + walked fs gs else min f.size g.size
  | _, _ => 0

/-- Comparing with `b` and with its bytes in one string gives the same sign, and
`==` holds of equal bytes only. -/
def ComparesAsString (m : Mem) (a b : FragmentString) : Prop :=
  (a.compare m b).sign = (a.compareString m (b.copyToString m npos)).sign ∧
    (a.compare m b = 0 ↔ content m a.fragments = content m b.fragments)

end FragmentString

theorem byteDiff_ne_zero {a b : UInt8} (h : a ≠ b) : (a.toNat : Int) - b.toNat ≠ 0 := by
  have hnat : a.toNat ≠ b.toNat := fun he => h (UInt8.toNat_inj.mp he)
  omega

/-- Strings that begin with parts of one length are told apart by these, or by
what follows. -/
theorem lexOrder_append {as bs : List UInt8} (h : as.length = bs.length) (as' bs' : List UInt8) :
    lexOrder (as ++ as') (bs ++ bs') =
      if memcmp as bs ≠ 0 then memcmp as bs else lexOrder as' bs' := by
  induction as generalizing bs with
  | nil =>
    have hb : bs = [] := List.length_eq_zero_iff.mp h.symm
    simp [hb, memcmp]
  | cons a as ih =>
    cases bs with
    | nil => simp at h
    | cons b bs =>
      have hlen : as.length = bs.length := by simpa using h
      by_cases hab : a = b
      · simp only [List.cons_append, lexOrder, memcmp, hab, if_true]
        exact ih hlen
      · simp [lexOrder, memcmp, hab, byteDiff_ne_zero hab]

theorem lexOrder_eq_zero {as bs : List UInt8} : lexOrder as bs = 0 ↔ as = bs := by
  induction as generalizing bs with
  | nil => cases bs <;> simp [lexOrder]
  | cons a as ih =>
    cases bs with
    | nil => simp [lexOrder]
    | cons b bs =>
      by_cases hab : a = b
      · simp [lexOrder, hab, ih]
      · simp [lexOrder, hab, byteDiff_ne_zero hab]

/-- On ranges of one length the two orders are one. -/
theorem memcmp_eq_lexOrder {as bs : List UInt8} (h : as.length = bs.length) :
    memcmp as bs = lexOrder as bs := by
  have happend := lexOrder_append h [] []
  rw [List.append_nil, List.append_nil] at happend
  rw [happend]
  split
  next => rfl
  next hzero => exact not_not.mp hzero

theorem memcmp_eq_zero {as bs : List UInt8} (h : as.length = bs.length) :
    memcmp as bs = 0 ↔ as = bs := by
  rw [memcmp_eq_lexOrder h, lexOrder_eq_zero]

theorem memcmp_append {as bs as' bs' : List UInt8} (h : as.length = bs.length)
    (h' : as'.length = bs'.length) :
    memcmp (as ++ as') (bs ++ bs') = if memcmp as bs ≠ 0 then memcmp as bs else memcmp as' bs' := by
  have hlen : (as ++ as').length = (bs ++ bs').length := by simp [h, h']
  rw [memcmp_eq_lexOrder hlen, lexOrder_append h, memcmp_eq_lexOrder h']

theorem lexOrder_nil_right (as : List UInt8) : (lexOrder as []).sign = (as.length : Int).sign := by
  cases as with
  | nil => rfl
  | cons a as =>
    have hpos : (0 : Int) < ((a :: as).length : Int) := by simp
    rw [Int.sign_eq_one_of_pos hpos]
    rfl

theorem usizeDiff_eq {a b : Nat} (ha : a < 2 ^ 31) (hb : b < 2 ^ 31) :
    usizeDiff a b = (a : Int) - b := by
  unfold usizeDiff toI32
  split
  next => omega
  next => omega

namespace FragmentString

@[simp] theorem content_cons (m : Mem) (f : Fragment) (fs : List Fragment) :
    content m (f :: fs) = f.data m ++ content m fs := rfl

theorem content_length (m : Mem) (fs : List Fragment) :
    (content m fs).length = (fs.map Fragment.size).sum := by
  induction fs with
  | nil => rfl
  | cons f fs ih => simp [ih]

theorem content_length_eq (m : Mem) (a : FragmentString) :
    (content m a.fragments).length = a.size := by
  rw [content_length, a.size_eq]

theorem copyLoop_eq (m : Mem) (fs : List Fragment) (sz : Nat) :
    copyLoop m fs sz = (content m fs).take sz := by
  induction fs generalizing sz with
  | nil => simp [copyLoop, content]
  | cons f fs ih =>
    simp only [copyLoop]
    split
    next h => simp [h]
    next =>
      rw [ih, content_cons, List.take_append, Fragment.length_data, Fragment.data]
      rw [ByteStore.take_load, Nat.min_comm f.size sz]
      congr 2
      omega

theorem copyToString_npos {a : FragmentString} (ha : a.size < 2 ^ 31) (m : Mem) :
    a.copyToString m npos = content m a.fragments := by
  rw [copyToString, copyLoop_eq]
  apply List.take_of_length_le
  rw [content_length_eq, npos]
  omega

/-- The part of a fragment that is compared, and the rest of the string. -/
theorem data_split (m : Mem) (f : Fragment) (cap : Nat) (hc : cap ≤ f.size) (rest : List UInt8) :
    f.data m ++ rest = m.load f.head cap ++ ((f.data m).drop cap ++ rest) := by
  have htake : (f.data m).take cap = m.load f.head cap := by
    rw [Fragment.data, ByteStore.take_load, Nat.min_eq_left hc]
  rw [← htake, ← List.append_assoc, List.take_append_drop]

/-- The loop goes on with the bytes of `s` behind `offset` against those of the
fragments that are left. -/
theorem compareStringLoop_sign (m : Mem) {size : Nat} {s : List UInt8} (hs : s.length < 2 ^ 31)
    (hsize : size < 2 ^ 31) (fs : List Fragment) {offset : Nat} (ho : offset < s.length)
    (hsum : size = offset + (content m fs).length) :
    (compareStringLoop m size s fs offset).sign = (lexOrder (content m fs) (s.drop offset)).sign := by
  induction fs generalizing offset with
  | nil =>
    obtain ⟨b, bs, hb⟩ := List.exists_cons_of_ne_nil (List.drop_eq_nil_iff.not.mpr (Nat.not_le.mpr ho))
    have hneg : (size : Int) - s.length < 0 := by
      simp only [content, List.flatMap_nil, List.length_nil, Nat.add_zero] at hsum
      omega
    rw [compareStringLoop, usizeDiff_eq hsize hs, Int.sign_eq_neg_one_of_neg hneg, hb]
    rfl
  | cons f fs ih =>
    rw [content_cons] at hsum ⊢
    simp only [compareStringLoop]
    split
    next hf =>
      have hnil : f.data m = [] := Fragment.data_of_size_zero hf
      rw [hnil, List.nil_append] at hsum ⊢
      exact ih ho hsum
    next hf =>
      have hcap : min f.size (s.length - offset) ≤ f.size := Nat.min_le_left _ _
      have hlen : (m.load f.head (min f.size (s.length - offset))).length =
          ((s.drop offset).take (min f.size (s.length - offset))).length := by
        rw [ByteStore.length_load, List.length_take, List.length_drop]
        omega
      have hlex := lexOrder_append hlen ((f.data m).drop (min f.size (s.length - offset)) ++ content m fs)
        ((s.drop offset).drop (min f.size (s.length - offset)))
      rw [← data_split m f _ hcap, List.take_append_drop] at hlex
      rw [hlex]
      split
      next hret => rfl
      next hret =>
        rw [List.drop_drop]
        rw [List.length_append, Fragment.length_data] at hsum
        split
        next hend =>
          -- `s` is used up: the longer one is the greater
          rw [hend, List.drop_length, lexOrder_nil_right, usizeDiff_eq hsize hs]
          rw [List.length_append, List.length_drop, Fragment.length_data]
          congr 1
          omega
        next hend =>
          have hwhole : min f.size (s.length - offset) = f.size := by omega
          rw [hwhole, List.drop_of_length_le (by simp), List.nil_append]
          exact ih (by omega) (by omega)

theorem compareString_sign {a : FragmentString} (m : Mem) (ha : a.size < 2 ^ 31) {s : List UInt8}
    (hs : s.length < 2 ^ 31) :
    (a.compareString m s).sign = (lexOrder (content m a.fragments) s).sign := by
  unfold compareString
  split
  next h =>
    have hnil : s = [] := List.length_eq_zero_iff.mp h
    rw [hnil, lexOrder_nil_right, content_length_eq, usizeDiff_eq ha (by decide)]
    simp
  next h =>
    have hsum : a.size = 0 + (content m a.fragments).length := by rw [content_length_eq]; omega
    rw [compareStringLoop_sign m hs ha a.fragments (Nat.pos_of_ne_zero h) hsum, List.drop_zero]

theorem walked_le_left (m : Mem) (fs gs : List Fragment) : walked fs gs ≤ (content m fs).length := by
  fun_induction walked fs gs with
  | case1 f fs g gs hsize ih => rw [content_cons, List.length_append, Fragment.length_data]; omega
  | case2 f fs g gs hsize => rw [content_cons, List.length_append, Fragment.length_data]; omega
  | case3 => omega

theorem walked_comm (fs gs : List Fragment) : walked fs gs = walked gs fs := by
  fun_induction walked fs gs with
  | case1 f fs g gs hsize ih => simp [walked, hsize, ih]
  | case2 f fs g gs hsize => simp [walked, Ne.symm hsize, Nat.min_comm]
  | case3 fs gs h =>
    cases gs with
    | nil => simp [walked]
    | cons g gs =>
      cases fs with
      | nil => simp [walked]
      | cons f fs => exact absurd rfl (h f fs g gs rfl)

theorem walked_length (m : Mem) (fs gs : List Fragment) :
    ((content m fs).take (walked fs gs)).length = ((content m gs).take (walked fs gs)).length := by
  have hf := walked_le_left m fs gs
  have hg := walked_le_left m gs fs
  rw [walked_comm] at hg
  rw [List.length_take, List.length_take, Nat.min_eq_left hf, Nat.min_eq_left hg]

/-- The walk compares the first bytes of both strings and knows nothing of the others. -/
theorem compareLoop_eq (m : Mem) (diff : Int) (fs gs : List Fragment) :
    compareLoop m diff fs gs =
      if memcmp ((content m fs).take (walked fs gs)) ((content m gs).take (walked fs gs)) ≠ 0 then
        memcmp ((content m fs).take (walked fs gs)) ((content m gs).take (walked fs gs))
      else diff := by
  fun_induction walked fs gs with
  | case1 f fs g gs hsize ih =>
    have hf : (content m (f :: fs)).take (f.size + walked fs gs) =
        f.data m ++ (content m fs).take (walked fs gs) := by
      rw [content_cons, ← Fragment.length_data m f, List.take_length_add_append]
    have hg : (content m (g :: gs)).take (f.size + walked fs gs) =
        g.data m ++ (content m gs).take (walked fs gs) := by
      rw [content_cons, hsize, ← Fragment.length_data m g, List.take_length_add_append]
    rw [hf, hg, memcmp_append (by simp [hsize]) (walked_length m fs gs)]
    simp only [compareLoop, hsize, Nat.min_self, ne_eq, not_true_eq_false, if_false]
    rw [ih]
    simp only [Fragment.data, hsize]
    split <;> simp_all
  | case2 f fs g gs hsize =>
    have hf : (content m (f :: fs)).take (min f.size g.size) = m.load f.head (min f.size g.size) := by
      rw [content_cons, data_split m f _ (Nat.min_le_left f.size g.size), List.take_left' (by simp)]
    have hg : (content m (g :: gs)).take (min f.size g.size) = m.load g.head (min f.size g.size) := by
      rw [content_cons, data_split m g _ (Nat.min_le_right f.size g.size), List.take_left' (by simp)]
    rw [hf, hg]
    simp [compareLoop, hsize]
  | case3 fs gs h =>
    have hend : compareLoop m diff fs gs = diff := by
      unfold compareLoop
      split
      next f fs g gs => exact absurd rfl (h f fs g gs rfl)
      next => rfl
    rw [hend]
    simp [memcmp]

/-- What the walk finds, or else the difference of the sizes. -/
theorem compare_eq (m : Mem) {a b : FragmentString} (ha : a.size < 2 ^ 31) (hb : b.size < 2 ^ 31) :
    a.compare m b =
      if memcmp ((content m a.fragments).take (walked a.fragments b.fragments))
          ((content m b.fragments).take (walked a.fragments b.fragments)) ≠ 0 then
        memcmp ((content m a.fragments).take (walked a.fragments b.fragments))
          ((content m b.fragments).take (walked a.fragments b.fragments))
      else (a.size : Int) - b.size := by
  rw [compare]
  split
  next empty =>
    have nil : content m b.fragments = [] := by
      apply List.length_eq_zero_iff.mp
      rw [content_length_eq, empty]
    rw [nil, List.take_nil, usizeDiff_eq ha (by decide), empty]
    simp [memcmp]
  next => rw [compareLoop_eq, usizeDiff_eq ha hb]

/-- When the signs agree, so do the two notions of being equal. -/
theorem comparesAsString_of_sign {m : Mem} {a b : FragmentString} (ha : a.size < 2 ^ 31)
    (hb : b.size < 2 ^ 31) :
    ComparesAsString m a b ↔
      (a.compare m b).sign = (lexOrder (content m a.fragments) (content m b.fragments)).sign := by
  have hstring : (a.compareString m (b.copyToString m npos)).sign =
      (lexOrder (content m a.fragments) (content m b.fragments)).sign := by
    rw [copyToString_npos hb]
    exact compareString_sign m ha (by rw [content_length_eq]; exact hb)
  unfold ComparesAsString
  rw [hstring]
  constructor
  · exact fun h => h.1
  · intro h
    refine ⟨h, ?_⟩
    rw [← Int.sign_eq_zero_iff_zero, h, Int.sign_eq_zero_iff_zero, lexOrder_eq_zero]

/-- Fragment strings are compared like their bytes exactly when the bytes differ
within the part that the walk gets to see, or are ordered as their lengths are. -/
theorem compare_ignores_fragmentation_iff (m : Mem) {a b : FragmentString} (ha : a.size < 2 ^ 31)
    (hb : b.size < 2 ^ 31) :
    ComparesAsString m a b ↔
      (content m a.fragments).take (walked a.fragments b.fragments) ≠
          (content m b.fragments).take (walked a.fragments b.fragments) ∨
        (lexOrder (content m a.fragments) (content m b.fragments)).sign =
          ((a.size : Int) - b.size).sign := by
  rw [comparesAsString_of_sign ha hb, compare_eq m ha hb]
  have hlen := walked_length m a.fragments b.fragments
  by_cases hsame : (content m a.fragments).take (walked a.fragments b.fragments) =
      (content m b.fragments).take (walked a.fragments b.fragments)
  · have hret := (memcmp_eq_zero hlen).mpr hsame
    rw [hret]
    simp only [ne_eq, not_true_eq_false, if_false, hsame, false_or]
    exact eq_comm
  · have hret : memcmp ((content m a.fragments).take (walked a.fragments b.fragments))
        ((content m b.fragments).take (walked a.fragments b.fragments)) ≠ 0 :=
      fun h => hsame ((memcmp_eq_zero hlen).mp h)
    have hlex := lexOrder_append hlen ((content m a.fragments).drop (walked a.fragments b.fragments))
      ((content m b.fragments).drop (walked a.fragments b.fragments))
    rw [List.take_append_drop, List.take_append_drop, if_pos hret] at hlex
    rw [if_pos hret, hlex]
    exact iff_of_true rfl (Or.inl hsame)

/-- Memory that holds ABAC. -/
def sample : Mem := fun x => if x = 1 then 66 else if x = 3 then 67 else 65

def single (head size : Nat) : Fragment := ⟨⟨head, size⟩, head, size⟩

/-- A|B and AC are of one size, and the first fragments are not. -/
theorem compare_confuses_other_cut :
    ¬ ∀ (m : Mem) (a b : FragmentString), a.size < 2 ^ 31 → b.size < 2 ^ 31 → ComparesAsString m a b := by
  intro h
  have hcmp := h sample ⟨[single 0 1, single 1 1], 2, rfl⟩ ⟨[single 2 2], 2, rfl⟩ (by decide) (by decide)
  exact absurd (hcmp.2.mp (by decide)) (by decide)

/-- A|B against AB in one piece. -/
theorem compare_equal_other_cut :
    ComparesAsString sample ⟨[single 0 1, single 1 1], 2, rfl⟩ ⟨[single 0 2], 2, rfl⟩ :=
  (compare_ignores_fragmentation_iff sample (a := ⟨[single 0 1, single 1 1], 2, rfl⟩)
    (b := ⟨[single 0 2], 2, rfl⟩) (by decide) (by decide)).mpr (by decide)

end FragmentString

end XiRuntime
