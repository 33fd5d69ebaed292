import XiRuntime.Fragment
import XiRuntime.Runs

namespace XiRuntime

open ByteStore

/-- `arena_fragment_allocator`; `mallocs` counts the arenas made so far. -/
structure ArenaAllocator where
  arena : ByteBlob
  arenaSize : Nat
  lowWatermark : Nat
  mallocs : Nat
deriving DecidableEq, Repr

namespace ArenaAllocator

def create (arenaSize lowWatermark : Nat) : ArenaAllocator where
  arena := .null
  arenaSize := arenaSize
  lowWatermark := if lowWatermark = 0 then arenaSize / 100 else lowWatermark
  mallocs := 0

/-- What `malloc` gives for the arenas, in turn: the block with its usable size, or
the null blob when there is no memory. Different blocks do not overlap. -/
structure Malloc where
  block : Nat → Nat → ByteBlob
  disjoint : ∀ n i j, i ≠ j →
    Apart (block n i).bytes (block n i).size (block n j).bytes (block n j).size

section Calls

variable (malloc : Malloc)

def makeArena (a : ArenaAllocator) : ArenaAllocator :=
  { a with arena := malloc.block a.arenaSize a.mallocs, mallocs := a.mallocs + 1 }

/-- The copy that is handed out is taken before the split and keeps the size of the
whole arena. -/
def allocate (a : ArenaAllocator) (sz : Nat) : Fragment × ArenaAllocator :=
  if a.arena.size = 0 then
    let a := a.makeArena malloc
    (.new a.arena, { a with arena := (a.arena.split sz).1 })
  else if a.arena.size ≤ (sz + a.lowWatermark) % 2 ^ 64 then (.new a.arena, a.makeArena malloc)
  else (.new a.arena, { a with arena := (a.arena.split sz).1 })

def after (a : ArenaAllocator) (szs : List Nat) : ArenaAllocator :=
  runFrom (fun a sz => (a.allocate malloc sz).2) a szs

/-- The fragments that the calls return. -/
def fragments : ArenaAllocator → List Nat → List Fragment
  | _, [] => []
  | a, sz :: szs => (a.allocate malloc sz).1 :: fragments (a.allocate malloc sz).2 szs

/-- The arena that the next call hands out. -/
def handedOut (a : ArenaAllocator) : ByteBlob :=
  if a.arena.size = 0 then malloc.block a.arenaSize a.mallocs else a.arena

/-- A call that keeps a part of the arena for later calls. -/
def Splits (a : ArenaAllocator) (sz : Nat) : Prop :=
  (a.arena.size = 0 ∨ (sz + a.lowWatermark) % 2 ^ 64 < a.arena.size) ∧ sz < (a.handedOut malloc).size

instance (a : ArenaAllocator) (sz : Nat) : Decidable (a.Splits malloc sz) :=
  inferInstanceAs (Decidable (_ ∧ _))

/-- None of the calls but the last splits its arena. -/
def KeepsNoRest (a : ArenaAllocator) (szs : List Nat) : Prop :=
  ∀ n, n + 1 < szs.length → ¬ (a.after malloc (szs.take n)).Splits malloc (szs.getD n 0)

end Calls

end ArenaAllocator

/-- No two fragments share memory, and what is written into the room of one leaves
the bytes of the others alone. -/
def DisjointMemory (fs : List Fragment) : Prop :=
  fs.Pairwise Fragment.Separate ∧
    ∀ (i j : Nat) (f g : Fragment), i ≠ j → fs[i]? = some f → fs[j]? = some g → ∀ (m : Mem) (r : List UInt8),
      (f.write m r).1.load g.blob.bytes g.blob.size = m.load g.blob.bytes g.blob.size

theorem ByteBlob.split_size {b : ByteBlob} {sz : Nat} (h : b.size ≤ sz) : (b.split sz).1 = .null := by
  simp [ByteBlob.split, h]

theorem ByteBlob.split_rest {b : ByteBlob} {sz : Nat} (h : sz < b.size) :
    (b.split sz).1 = ⟨b.bytes + sz, b.size - sz⟩ := by
  unfold ByteBlob.split
  rw [if_neg (by omega)]
  split
  next h0 => simp [h0]
  next => rfl

namespace Fragment

theorem new_blob (b : ByteBlob) : (new b).blob = if b.size = 0 then .null else b := by
  unfold new maybeRelease
  split <;> rfl

theorem write_separate {f g : Fragment} (hi : f.Inside) (hs : f.Separate g) (m : Mem)
    (r : List UInt8) :
    (f.write m r).1.load g.blob.bytes g.blob.size = m.load g.blob.bytes g.blob.size := by
  apply load_store_apart
  unfold Inside tail ByteBlob.stop at hi
  unfold Separate Apart at hs
  simp only [List.length_take, tailroom, tail, ByteBlob.stop, Apart]
  omega

theorem separate_new {b c : ByteBlob} (h : Apart b.bytes b.size c.bytes c.size) :
    (new b).Separate (new c) := by
  unfold Separate
  rw [new_blob, new_blob]
  split
  next => exact Or.inl rfl
  next =>
    split
    next => exact Or.inr (Or.inl rfl)
    next => exact h

end Fragment

theorem disjointMemory_iff {fs : List Fragment} (hi : ∀ f ∈ fs, f.Inside) :
    DisjointMemory fs ↔ fs.Pairwise Fragment.Separate := by
  refine ⟨fun h => h.1, fun h => ⟨h, ?_⟩⟩
  intro i j f g hij hf hg m r
  apply Fragment.write_separate (hi f (List.mem_of_getElem? hf))
  have hmem := List.pairwise_iff_getElem.mp h
  obtain ⟨hil, rfl⟩ := List.getElem?_eq_some_iff.mp hf
  obtain ⟨hjl, rfl⟩ := List.getElem?_eq_some_iff.mp hg
  rcases Nat.lt_or_gt_of_ne hij with hlt | hlt
  · exact hmem i j hil hjl hlt
  · exact (hmem j i hjl hil hlt).symm

namespace ArenaAllocator

variable {malloc : Malloc}

theorem allocate_fragment (a : ArenaAllocator) (sz : Nat) :
    (a.allocate malloc sz).1 = .new (a.handedOut malloc) := by
  unfold allocate handedOut
  split
  next => rfl
  next =>
    split
    next => rfl
    next => rfl

theorem fragments_inside (a : ArenaAllocator) (szs : List Nat) :
    ∀ f ∈ a.fragments malloc szs, f.Inside := by
  induction szs generalizing a with
  | nil => simp [fragments]
  | cons sz szs ih =>
    intro f hf
    rcases List.mem_cons.mp hf with rfl | hf
    · rw [allocate_fragment]
      exact Fragment.new_inside _
    · exact ih _ f hf

/-- What a call that splits its arena keeps of it. -/
theorem allocate_splits {a : ArenaAllocator} {sz : Nat} (h : a.Splits malloc sz) :
    (a.allocate malloc sz).2.arena =
      ⟨(a.handedOut malloc).bytes + sz, (a.handedOut malloc).size - sz⟩ := by
  obtain ⟨hbranch, hlt⟩ := h
  unfold handedOut at hlt ⊢
  unfold allocate
  split
  next h0 =>
    rw [if_pos h0] at hlt
    exact ByteBlob.split_rest hlt
  next h0 =>
    rw [if_neg h0] at hlt
    rw [if_neg (by omega)]
    exact ByteBlob.split_rest hlt

/-- The next call hands out what was kept, a second time. -/
theorem not_separate_of_splits {a : ArenaAllocator} {sz : Nat} (h : a.Splits malloc sz) (sz' : Nat) :
    ¬ (a.allocate malloc sz).1.Separate ((a.allocate malloc sz).2.allocate malloc sz').1 := by
  have hrest := allocate_splits h
  obtain ⟨-, hlt⟩ := h
  have hnext : (a.allocate malloc sz).2.handedOut malloc =
      ⟨(a.handedOut malloc).bytes + sz, (a.handedOut malloc).size - sz⟩ := by
    rw [handedOut, hrest, if_neg]
    simp only
    omega
  rw [allocate_fragment, allocate_fragment, hnext]
  unfold Fragment.Separate
  rw [Fragment.new_blob, Fragment.new_blob, if_neg (by omega), if_neg (by simp only; omega)]
  unfold Apart
  simp only
  omega

theorem keepsNoRest_cons {a : ArenaAllocator} {sz sz' : Nat} {szs : List Nat} :
    a.KeepsNoRest malloc (sz :: sz' :: szs) ↔
      ¬ a.Splits malloc sz ∧ (a.allocate malloc sz).2.KeepsNoRest malloc (sz' :: szs) := by
  constructor
  · intro h
    refine ⟨h 0 (by simp), ?_⟩
    intro n hn
    exact h (n + 1) (by simpa using hn)
  · rintro ⟨hfirst, hrest⟩ n hn
    cases n with
    | zero => exact hfirst
    | succ n => exact hrest n (by simpa using hn)

/-- The arena is empty, or a block that no call has seen; blocks below `lo` are used. -/
def Fresh (malloc : Malloc) (a : ArenaAllocator) (lo : Nat) : Prop :=
  (a.arena.size = 0 ∧ lo ≤ a.mallocs) ∨
    (a.arena.size ≠ 0 ∧ ∃ k, lo ≤ k ∧ k < a.mallocs ∧ a.arena = malloc.block a.arenaSize k)

theorem fresh_of_le {a : ArenaAllocator} {lo k : Nat} (hk : lo ≤ k) (hm : k < a.mallocs)
    (ha : a.arena = malloc.block a.arenaSize k) : a.Fresh malloc lo := by
  by_cases h0 : a.arena.size = 0
  · exact Or.inl ⟨h0, by omega⟩
  · exact Or.inr ⟨h0, k, hk, hm, ha⟩

theorem allocate_arenaSize (a : ArenaAllocator) (sz : Nat) :
    (a.allocate malloc sz).2.arenaSize = a.arenaSize := by
  unfold allocate
  split
  next => rfl
  next =>
    split
    next => rfl
    next => rfl

/-- A call hands out a block of its own; if it keeps nothing of it, the next one does
as well. -/
theorem Fresh.allocate {a : ArenaAllocator} {lo : Nat} (h : a.Fresh malloc lo) (sz : Nat) :
    ∃ k, lo ≤ k ∧ a.handedOut malloc = malloc.block a.arenaSize k ∧
      (¬ a.Splits malloc sz → (a.allocate malloc sz).2.Fresh malloc (k + 1)) := by
  rcases h with ⟨h0, hlo⟩ | ⟨h0, k, hlo, hk, ha⟩
  · have hout : a.handedOut malloc = malloc.block a.arenaSize a.mallocs := by rw [handedOut, if_pos h0]
    refine ⟨a.mallocs, hlo, hout, ?_⟩
    intro hs
    have hle : (malloc.block a.arenaSize a.mallocs).size ≤ sz := by
      rw [← hout]
      by_contra hlt
      exact hs ⟨Or.inl h0, Nat.lt_of_not_le hlt⟩
    left
    rw [ArenaAllocator.allocate, if_pos h0]
    simp only [makeArena, ByteBlob.split_size hle]
    exact ⟨rfl, Nat.le_refl _⟩
  · have hout : a.handedOut malloc = malloc.block a.arenaSize k := by rw [handedOut, if_neg h0, ha]
    refine ⟨k, hlo, hout, ?_⟩
    intro hs
    rw [ArenaAllocator.allocate, if_neg h0]
    split
    next hgive =>
      have hk' : k + 1 ≤ a.mallocs := hk
      exact fresh_of_le hk' (Nat.lt_succ_self _) rfl
    next hgive =>
      have hle : a.arena.size ≤ sz := by
        by_contra hlt
        refine hs ⟨Or.inr (Nat.lt_of_not_le hgive), ?_⟩
        rw [handedOut, if_neg h0]
        exact Nat.lt_of_not_le hlt
      left
      simp only [ByteBlob.split_size hle]
      exact ⟨rfl, hk⟩

theorem fragments_fresh {a : ArenaAllocator} {lo : Nat} (h : a.Fresh malloc lo) {szs : List Nat}
    (hn : a.KeepsNoRest malloc szs) :
    ∃ ks : List Nat, a.fragments malloc szs = ks.map (fun k => Fragment.new (malloc.block a.arenaSize k)) ∧
      ks.Pairwise (· < ·) ∧ ∀ k ∈ ks, lo ≤ k := by
  induction szs generalizing a lo with
  | nil => exact ⟨[], rfl, .nil, by simp⟩
  | cons sz szs ih =>
    obtain ⟨k, hlo, hout, hnext⟩ := h.allocate sz
    have hhead : (a.allocate malloc sz).1 = .new (malloc.block a.arenaSize k) := by
      rw [allocate_fragment, hout]
    cases szs with
    | nil => exact ⟨[k], by simp [fragments, hhead], by simp, by simp [hlo]⟩
    | cons sz' szs =>
      obtain ⟨hfirst, hrest⟩ := keepsNoRest_cons.mp hn
      obtain ⟨ks, hks, hsorted, hle⟩ := ih (hnext hfirst) hrest
      refine ⟨k :: ks, ?_, ?_, ?_⟩
      · rw [fragments, hhead, hks, allocate_arenaSize, List.map_cons]
      · exact List.pairwise_cons.mpr ⟨fun k' hk' => hle k' hk', hsorted⟩
      · intro k' hk'
        rcases List.mem_cons.mp hk' with rfl | hk'
        · exact hlo
        · have := hle k' hk'
          omega

theorem separate_of_keepsNoRest {a : ArenaAllocator} {lo : Nat} (h : a.Fresh malloc lo)
    {szs : List Nat} (hn : a.KeepsNoRest malloc szs) :
    (a.fragments malloc szs).Pairwise Fragment.Separate := by
  obtain ⟨ks, hks, hsorted, -⟩ := fragments_fresh h hn
  rw [hks, List.pairwise_map]
  refine hsorted.imp ?_
  intro i j hij
  exact Fragment.separate_new (malloc.disjoint a.arenaSize i j (Nat.ne_of_lt hij))

theorem keepsNoRest_of_separate {a : ArenaAllocator} {szs : List Nat}
    (h : (a.fragments malloc szs).Pairwise Fragment.Separate) : a.KeepsNoRest malloc szs := by
  induction szs generalizing a with
  | nil => exact fun n hn => by simp at hn
  | cons sz szs ih =>
    cases szs with
    | nil => exact fun n hn => by simp at hn
    | cons sz' szs =>
      obtain ⟨hhead, htail⟩ := List.pairwise_cons.mp h
      refine keepsNoRest_cons.mpr ⟨?_, ih htail⟩
      intro hs
      exact not_separate_of_splits hs sz' (hhead _ List.mem_cons_self)

/-- The fragments of an arena allocator have memory of their own exactly when no call
but the last leaves a part of its arena behind. -/
theorem arena_fragments_disjoint_iff (malloc : Malloc) (arenaSize lowWatermark : Nat)
    (szs : List Nat) :
    DisjointMemory ((create arenaSize lowWatermark).fragments malloc szs) ↔
      (create arenaSize lowWatermark).KeepsNoRest malloc szs := by
  rw [disjointMemory_iff (fragments_inside _ szs)]
  have hfresh : (create arenaSize lowWatermark).Fresh malloc 0 := Or.inl ⟨rfl, Nat.le_refl 0⟩
  exact ⟨keepsNoRest_of_separate, separate_of_keepsNoRest hfresh⟩

/-- Blocks of a thousand bytes, one in each page. -/
def pages : Malloc where
  block := fun _ k => ⟨4096 * (k + 1), 1000⟩
  disjoint := by
    intro n i j hij
    unfold Apart
    simp only
    omega

/-- Allocations of whole arenas. -/
example : DisjointMemory ((create 1000 10).fragments pages [1000, 1000, 5]) := by
  rw [disjointMemory_iff (fragments_inside _ _)]
  unfold Fragment.Separate
  decide

/-- Two allocations of a hundred bytes from an arena of a thousand. -/
theorem arena_fragments_overlap :
    ¬ ∀ (malloc : Malloc) (arenaSize lowWatermark : Nat) (szs : List Nat),
      DisjointMemory ((create arenaSize lowWatermark).fragments malloc szs) := by
  intro h
  have hdisjoint := (h pages 1000 10 [100, 100]).1
  revert hdisjoint
  unfold Fragment.Separate
  decide

end ArenaAllocator

end XiRuntime
