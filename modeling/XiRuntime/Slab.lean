import Mathlib.Data.List.Nodup
import Mathlib.Data.List.Perm.Subperm
import Mathlib.Logic.Function.Basic

/-! Objects that are cut out of spans, each of which belongs to a pool. -/

namespace Slab

variable {π σ ω : Type} [DecidableEq ω]

/-- Each object is in one place: out, in the free list of its pool, or in the freelist of its
span. -/
structure Placed (isObject : π → σ → ω → Prop) (out : List ω) (free : π → List ω)
    (freelist : σ → List ω) : Prop where
  unique : ∀ {p p' x x' a}, isObject p x a → isObject p' x' a → p = p' ∧ x = x'
  owner : ∀ {p p' x a b}, isObject p x a → isObject p' x b → p = p'
  once : ∀ {p x a}, isObject p x a → out.count a + (free p).count a + (freelist x).count a = 1
  out : ∀ a ∈ out, ∃ p x, isObject p x a
  free : ∀ p, ∀ a ∈ free p, ∃ x, isObject p x a
  freelist : ∀ {p x b}, isObject p x b → ∀ a ∈ freelist x, isObject p x a

namespace Placed

variable {isObject isObject' : π → σ → ω → Prop} {out out' : List ω} {free : π → List ω}
  {freelist freelists : σ → List ω} {p : π} {x : σ} {a : ω}

theorem congr (h : Placed isObject out free freelist)
    (same : ∀ p x a, isObject' p x a ↔ isObject p x a)
    (lists : ∀ p x a, isObject p x a → freelists x = freelist x) :
    Placed isObject' out free freelists := by
  have equal : isObject' = isObject := by
    funext p x a
    exact propext (same p x a)
  rw [equal]
  refine ⟨h.unique, h.owner, ?_, h.out, h.free, ?_⟩
  · intro p x a obj
    rw [lists p x a obj]
    exact h.once obj
  · intro p x b obj a mem
    rw [lists p x b obj] at mem
    exact h.freelist obj a mem

theorem perm (h : Placed isObject out free freelist) (same : out.Perm out') :
    Placed isObject out' free freelist := by
  refine ⟨h.unique, h.owner, ?_, ?_, h.free, h.freelist⟩
  · intro p x a obj
    rw [← same.count_eq]
    exact h.once obj
  · intro a mem
    exact h.out a (same.mem_iff.mpr mem)

/-- What is in one place is not in another one. -/
theorem elsewhere (h : Placed isObject out free freelist) (obj : isObject p x a)
    (here : a ∈ freelist x) : a ∉ out ∧ a ∉ free p := by
  have once := h.once obj
  have some' := List.count_pos_iff.mpr here
  refine ⟨?_, ?_⟩
  · exact List.count_eq_zero.mp (by omega)
  · exact List.count_eq_zero.mp (by omega)

/-- No object is out twice. -/
theorem nodup_out (h : Placed isObject out free freelist) : out.Nodup := by
  refine List.nodup_iff_count_le_one.mpr fun a => ?_
  by_cases mem : a ∈ out
  · obtain ⟨p, x, obj⟩ := h.out a mem
    have once := h.once obj
    omega
  · rw [List.count_eq_zero.mpr mem]
    exact Nat.zero_le 1

/-- A freelist with as many objects as the span has all of them. -/
theorem full (h : Placed isObject out free freelist) (objects : List ω)
    (all : ∀ a, isObject p x a ↔ a ∈ objects) (count : (freelist x).length = objects.length) :
    ∀ a, isObject p x a → a ∈ freelist x := by
  intro a obj
  have distinct : (freelist x).Nodup := by
    refine List.nodup_iff_count_le_one.mpr fun b => ?_
    by_cases mine : isObject p x b
    · have once := h.once mine
      omega
    · have absent : b ∉ freelist x := fun mem => mine (h.freelist obj b mem)
      rw [List.count_eq_zero.mpr absent]
      exact Nat.zero_le 1
  have sub : freelist x ⊆ objects := fun b mem => (all b).mp (h.freelist obj b mem)
  have perm := (List.subperm_of_subset distinct sub).perm_of_length_le (Nat.le_of_eq count.symm)
  exact perm.mem_iff.mpr ((all a).mp obj)

/-- A span that has all of its objects in its freelist is given up. -/
theorem remove (h : Placed isObject out free freelist) (full : ∀ p a, isObject p x a → a ∈ freelist x) :
    Placed (fun p y a => isObject p y a ∧ y ≠ x) out free freelist := by
  refine ⟨fun obj obj' => h.unique obj.1 obj'.1, fun obj obj' => h.owner obj.1 obj'.1,
    fun obj => h.once obj.1, ?_, ?_, fun obj a mem => ⟨h.freelist obj.1 a mem, obj.2⟩⟩
  · intro a mem
    obtain ⟨p, y, obj⟩ := h.out a mem
    refine ⟨p, y, obj, ?_⟩
    rintro rfl
    exact (h.elsewhere obj (full p a obj)).1 mem
  · intro p a mem
    obtain ⟨y, obj⟩ := h.free p a mem
    refine ⟨y, obj, ?_⟩
    rintro rfl
    exact (h.elsewhere obj (full p a obj)).2 mem

variable [DecidableEq π] [DecidableEq σ]

/-- Objects of a span change their places. -/
theorem relocate (h : Placed isObject out free freelist) (p : π) (x : σ)
    (out' free' freelist' : List ω)
    (same : ∀ b, isObject p x b → out'.count b + free'.count b + freelist'.count b =
      out.count b + (free p).count b + (freelist x).count b)
    (others : ∀ b, ¬ isObject p x b → out'.count b = out.count b ∧
      free'.count b = (free p).count b ∧ freelist'.count b = (freelist x).count b) :
    Placed isObject out' (Function.update free p free') (Function.update freelist x freelist') := by
  refine ⟨h.unique, h.owner, ?_, ?_, ?_, ?_⟩
  · intro p' y a obj
    by_cases mine : isObject p x a
    · obtain ⟨rfl, rfl⟩ := h.unique mine obj
      rw [Function.update_self, Function.update_self, same a mine]
      exact h.once obj
    · obtain ⟨sameOut, sameFree, sameList⟩ := others a mine
      have frees : (Function.update free p free' p').count a = (free p').count a := by
        by_cases here : p' = p
        · rw [here, Function.update_self, sameFree]
        · rw [Function.update_of_ne here]
      have lists : (Function.update freelist x freelist' y).count a = (freelist y).count a := by
        by_cases here : y = x
        · rw [here, Function.update_self, sameList]
        · rw [Function.update_of_ne here]
      rw [sameOut, frees, lists]
      exact h.once obj
  · intro a mem
    by_cases mine : isObject p x a
    · exact ⟨p, x, mine⟩
    · rw [← List.count_pos_iff, (others a mine).1, List.count_pos_iff] at mem
      exact h.out a mem
  · intro p' a mem
    by_cases here : p' = p
    · subst here
      rw [Function.update_self] at mem
      by_cases mine : isObject p' x a
      · exact ⟨x, mine⟩
      · rw [← List.count_pos_iff, (others a mine).2.1, List.count_pos_iff] at mem
        exact h.free p' a mem
    · rw [Function.update_of_ne here] at mem
      exact h.free p' a mem
  · intro p' y b obj a mem
    by_cases here : y = x
    · subst here
      rw [Function.update_self] at mem
      by_cases mine : isObject p y a
      · rw [h.owner obj mine]
        exact mine
      · rw [← List.count_pos_iff, (others a mine).2.2, List.count_pos_iff] at mem
        exact h.freelist obj a mem
    · rw [Function.update_of_ne here] at mem
      exact h.freelist obj a mem

/-- An object leaves its pool's free list. -/
theorem pop (h : Placed isObject out free freelist) {rest : List ω} (first : free p = a :: rest) :
    Placed isObject (a :: out) (Function.update free p rest) freelist := by
  obtain ⟨x, mine⟩ := h.free p a (first ▸ List.mem_cons_self)
  have moved := h.relocate p x (a :: out) rest (freelist x) ?_ ?_
  · rw [Function.update_eq_self] at moved
    exact moved
  · intro b _
    rw [first, List.count_cons, List.count_cons]
    omega
  · intro b other
    have ne : a ≠ b := by
      rintro rfl
      exact other mine
    rw [first, List.count_cons_of_ne ne, List.count_cons_of_ne ne]
    exact ⟨rfl, rfl, rfl⟩

/-- An object that was out comes into its pool's free list. -/
theorem push (h : Placed isObject (a :: out) free freelist) (mine : isObject p x a) :
    Placed isObject out (Function.update free p (a :: free p)) freelist := by
  have moved := h.relocate p x out (a :: free p) (freelist x) ?_ ?_
  · rw [Function.update_eq_self] at moved
    exact moved
  · intro b _
    rw [List.count_cons, List.count_cons]
    omega
  · intro b other
    have ne : a ≠ b := by
      rintro rfl
      exact other mine
    rw [List.count_cons_of_ne ne, List.count_cons_of_ne ne]
    exact ⟨rfl, rfl, rfl⟩

/-- An object that was out comes into its span's freelist. -/
theorem store (h : Placed isObject (a :: out) free freelist) (mine : isObject p x a) :
    Placed isObject out free (Function.update freelist x (a :: freelist x)) := by
  have moved := h.relocate p x out (free p) (a :: freelist x) ?_ ?_
  · rw [Function.update_eq_self] at moved
    exact moved
  · intro b _
    rw [List.count_cons, List.count_cons]
    omega
  · intro b other
    have ne : a ≠ b := by
      rintro rfl
      exact other mine
    rw [List.count_cons_of_ne ne, List.count_cons_of_ne ne]
    exact ⟨rfl, rfl, rfl⟩

/-- The freelist of a span goes to the pool. -/
theorem take (h : Placed isObject out free freelist) (mine : isObject p x a) :
    Placed isObject out (Function.update free p ((freelist x).reverse ++ free p))
      (Function.update freelist x []) := by
  refine h.relocate p x out _ [] ?_ ?_
  · intro b _
    rw [List.count_append, List.count_reverse, List.count_nil]
    omega
  · intro b other
    have absent : b ∉ freelist x := fun mem => other (h.freelist mine b mem)
    rw [List.count_append, List.count_reverse, List.count_eq_zero.mpr absent, Nat.zero_add]
    exact ⟨rfl, rfl, rfl⟩

/-- A new span, whose objects all go to the pool. -/
theorem add (h : Placed isObject out free freelist) {objects : List ω} (nodup : objects.Nodup)
    (none' : ∀ p a, ¬ isObject p x a) (fresh : ∀ a ∈ objects, ∀ p y, ¬ isObject p y a) :
    Placed (fun p' y a => isObject p' y a ∨ (p' = p ∧ y = x ∧ a ∈ objects)) out
      (Function.update free p (objects.reverse ++ free p)) (Function.update freelist x []) := by
  have old : ∀ {p' y a}, isObject p' y a → y ≠ x ∧ a ∉ objects := by
    intro p' y a obj
    refine ⟨?_, fun mem => fresh a mem p' y obj⟩
    rintro rfl
    exact none' p' a obj
  refine ⟨?_, ?_, ?_, ?_, ?_, ?_⟩
  · rintro p₁ p₂ y₁ y₂ a (obj | ⟨rfl, rfl, mem⟩) (obj' | ⟨rfl, rfl, mem'⟩)
    · exact h.unique obj obj'
    · exact absurd mem' (old obj).2
    · exact absurd mem (old obj').2
    · exact ⟨rfl, rfl⟩
  · rintro p₁ p₂ y a b (obj | ⟨rfl, rfl, mem⟩) (obj' | ⟨rfl, here, mem'⟩)
    · exact h.owner obj obj'
    · exact absurd here (old obj).1
    · exact absurd rfl (old obj').1
    · rfl
  · rintro p' y a (obj | ⟨rfl, rfl, mem⟩)
    · obtain ⟨other, absent⟩ := old obj
      rw [Function.update_of_ne other]
      by_cases here : p' = p
      · subst here
        rw [Function.update_self, List.count_append, List.count_reverse,
          List.count_eq_zero.mpr absent, Nat.zero_add]
        exact h.once obj
      · rw [Function.update_of_ne here]
        exact h.once obj
    · have notOut : a ∉ out := by
        intro there
        obtain ⟨p, y, obj⟩ := h.out a there
        exact (old obj).2 mem
      have notFree : a ∉ free p' := by
        intro there
        obtain ⟨y, obj⟩ := h.free p' a there
        exact (old obj).2 mem
      rw [Function.update_self, Function.update_self, List.count_append, List.count_reverse,
        List.count_eq_zero.mpr notOut, List.count_eq_zero.mpr notFree, List.count_nil,
        List.count_eq_one_of_mem nodup mem]
  · intro a mem
    obtain ⟨p', y, obj⟩ := h.out a mem
    exact ⟨p', y, Or.inl obj⟩
  · intro p' a mem
    by_cases here : p' = p
    · subst here
      rw [Function.update_self, List.mem_append, List.mem_reverse] at mem
      rcases mem with mem | mem
      · exact ⟨x, Or.inr ⟨rfl, rfl, mem⟩⟩
      · obtain ⟨y, obj⟩ := h.free p' a mem
        exact ⟨y, Or.inl obj⟩
    · rw [Function.update_of_ne here] at mem
      obtain ⟨y, obj⟩ := h.free p' a mem
      exact ⟨y, Or.inl obj⟩
  · rintro p' y b (obj | ⟨rfl, rfl, -⟩) a mem
    · rw [Function.update_of_ne (old obj).1] at mem
      exact Or.inl (h.freelist obj a mem)
    · rw [Function.update_self] at mem
      cases mem

end Placed

end Slab
