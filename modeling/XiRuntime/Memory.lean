import Mathlib.Algebra.BigOperators.Group.List.Basic
import Mathlib.Algebra.Order.Ring.Nat

namespace ByteStore

/-- A flat memory: every address holds one cell. -/
def Memory (α : Type) := Nat → α

variable {α : Type}

def Memory.load (m : Memory α) : Nat → Nat → List α
  | _, 0 => []
  | a, n + 1 => m a :: m.load (a + 1) n

def Memory.store (m : Memory α) (a : Nat) (xs : List α) : Memory α :=
  fun x => if a ≤ x then (xs[x - a]?).getD (m x) else m x

/-- The half-open ranges `[a, a + n)` and `[b, b + k)` share no address. -/
def Apart (a n b k : Nat) : Prop := n = 0 ∨ k = 0 ∨ a + n ≤ b ∨ b + k ≤ a

instance (a n b k : Nat) : Decidable (Apart a n b k) :=
  inferInstanceAs (Decidable (_ ∨ _))

theorem Apart.symm {a n b k : Nat} (h : Apart a n b k) : Apart b k a n := by
  unfold Apart at *
  omega

@[simp] theorem load_zero (m : Memory α) (a : Nat) : m.load a 0 = [] := rfl

@[simp] theorem length_load (m : Memory α) (a n : Nat) : (m.load a n).length = n := by
  induction n generalizing a with
  | zero => rfl
  | succ n ih => simp [Memory.load, ih]

theorem load_add (m : Memory α) (a n k : Nat) :
    m.load a (n + k) = m.load a n ++ m.load (a + n) k := by
  induction n generalizing a with
  | zero => simp
  | succ n ih =>
    rw [show n + 1 + k = (n + k) + 1 by omega]
    simp only [Memory.load, List.cons_append, ih]
    rw [show a + 1 + n = a + (n + 1) by omega]

theorem take_load (m : Memory α) (a n k : Nat) : (m.load a n).take k = m.load a (min k n) := by
  rcases Nat.le_total k n with h | h
  · obtain ⟨d, rfl⟩ := Nat.exists_eq_add_of_le h
    rw [load_add, List.take_left' (length_load m a k), Nat.min_eq_left h]
  · rw [List.take_of_length_le (by simpa using h), Nat.min_eq_right h]

theorem drop_load (m : Memory α) (a n k : Nat) :
    (m.load a n).drop k = m.load (a + min k n) (n - k) := by
  rcases Nat.le_total k n with h | h
  · obtain ⟨d, rfl⟩ := Nat.exists_eq_add_of_le h
    rw [load_add, List.drop_left' (length_load m a k), Nat.min_eq_left h]
    congr 1
    omega
  · rw [List.drop_of_length_le (by simpa using h), show n - k = 0 by omega, load_zero]

theorem load_congr {m m' : Memory α} {a n : Nat}
    (h : ∀ x, a ≤ x → x < a + n → m' x = m x) : m'.load a n = m.load a n := by
  induction n generalizing a with
  | zero => rfl
  | succ n ih =>
    simp only [Memory.load]
    rw [h a (by omega) (by omega), ih (fun x hx hy => h x (by omega) (by omega))]

theorem store_outside (m : Memory α) {a x : Nat} {xs : List α}
    (h : x < a ∨ a + xs.length ≤ x) : m.store a xs x = m x := by
  unfold Memory.store
  split
  next hx => simp [List.getElem?_eq_none (show xs.length ≤ x - a by omega)]
  next => rfl

theorem load_store_apart (m : Memory α) {a b n : Nat} {xs : List α}
    (h : Apart a xs.length b n) : (m.store a xs).load b n = m.load b n := by
  apply load_congr
  intro x hx hy
  apply store_outside
  unfold Apart at h
  omega

theorem store_cons (m : Memory α) (a : Nat) (v : α) (xs : List α) :
    m.store a (v :: xs) a = v := by
  simp [Memory.store]

theorem load_store_same (m : Memory α) (a : Nat) (xs : List α) :
    (m.store a xs).load a xs.length = xs := by
  induction xs generalizing a m with
  | nil => rfl
  | cons v xs ih =>
    have tail : (m.store a (v :: xs)).load (a + 1) xs.length =
        (m.store (a + 1) xs).load (a + 1) xs.length := by
      apply load_congr
      intro x hx _
      simp only [Memory.store, show a ≤ x by omega, hx, if_true]
      rw [show x - a = (x - (a + 1)) + 1 by omega, List.getElem?_cons_succ]
    simp only [List.length_cons, Memory.load, store_cons, tail, ih]

theorem load_store_take (m : Memory α) (a : Nat) {xs : List α} {k : Nat} (h : k ≤ xs.length) :
    (m.store a xs).load a k = xs.take k := by
  rw [← Nat.min_eq_left h, ← take_load, load_store_same, Nat.min_eq_left h]

/-- From `k` cells before what was stored: those cells, and the front of it. -/
theorem load_store_before (m : Memory α) {a b k n : Nat} {xs : List α} (start : b + k = a)
    (h : n - k ≤ xs.length) :
    (m.store a xs).load b n = m.load b (min k n) ++ xs.take (n - k) := by
  have parts : min k n + (n - k) = n := by omega
  have front : Apart a xs.length b (min k n) := by
    unfold Apart
    omega
  conv => lhs; rw [← parts]
  rw [load_add, load_store_apart m front]
  rcases Nat.le_total n k with short | long
  · rw [Nat.sub_eq_zero_of_le short, load_zero, List.take_zero]
  · rw [Nat.min_eq_left long, start, load_store_take m a h]

/-- Two memories differ in `[a, a + n)` at most. -/
def SameOutside (m m' : Memory α) (a n : Nat) : Prop := ∀ x, x < a ∨ a + n ≤ x → m' x = m x

theorem SameOutside.refl (m : Memory α) (a n : Nat) : SameOutside m m a n := fun _ _ => rfl

theorem SameOutside.store (m : Memory α) (a : Nat) (xs : List α) :
    SameOutside m (m.store a xs) a xs.length := fun _ h => store_outside m h

theorem SameOutside.mono {m m' : Memory α} {a n b k : Nat} (h : SameOutside m m' a n)
    (low : b ≤ a) (high : a + n ≤ b + k) : SameOutside m m' b k :=
  fun x hx => h x (by omega)

/-- The second change goes on where the first one ends. -/
theorem SameOutside.append {m m' m'' : Memory α} {a n k : Nat} (h : SameOutside m m' a n)
    (h' : SameOutside m' m'' (a + n) k) : SameOutside m m'' a (n + k) :=
  fun x hx => (h' x (by omega)).trans (h x (by omega))

theorem SameOutside.load {m m' : Memory α} {a n b k : Nat} (h : SameOutside m m' a n)
    (apart : Apart a n b k) : m'.load b k = m.load b k := by
  apply load_congr
  intro x hx hy
  apply h
  unfold Apart at apart
  omega

end ByteStore
