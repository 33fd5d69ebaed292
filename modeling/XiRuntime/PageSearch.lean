import XiRuntime.PageHeap

namespace XiRuntime

open LinkRing

namespace CpuPages

variable {s : CpuPages} {spans : List PageSpan}

theorem indexOf_eq {i n : Nat} (pos : 0 < n) : indexOf n = i ↔ 2 ^ i ≤ n ∧ n < 2 ^ (i + 1) := by
  rw [indexOf, Nat.log2_eq_iff (Nat.ne_of_gt pos)]

/-- All spans from the conservative index on have the pages. -/
theorem le_conservative {n : Nat} (pos : 0 < n) : n ≤ 2 ^ indexOfConservative n := by
  unfold indexOfConservative
  split
  next one => simp [one]
  next more =>
    have lt := Nat.lt_log2_self (n := n - 1)
    omega

/-- The two indices are the same for a power of two, and neighbours otherwise. -/
theorem conservative_cases {n : Nat} (pos : 0 < n) :
    (indexOf n = indexOfConservative n ∧ n = 2 ^ indexOf n) ∨
      indexOf n + 1 = indexOfConservative n := by
  by_cases one : n = 1
  · subst one
    exact Or.inl ⟨rfl, rfl⟩
  · have index : indexOfConservative n = Nat.log2 (n - 1) + 1 := if_neg one
    have low := Nat.log2_self_le (n := n - 1) (by omega)
    have high := Nat.lt_log2_self (n := n - 1)
    rw [index]
    by_cases power : n = 2 ^ (Nat.log2 (n - 1) + 1)
    · have same : indexOf n = Nat.log2 (n - 1) + 1 := by
        rw [indexOf_eq pos, pow_succ]
        omega
      exact Or.inl ⟨same, same ▸ power⟩
    · have same : indexOf n = Nat.log2 (n - 1) := by
        rw [indexOf_eq pos]
        omega
      exact Or.inr (same ▸ rfl)

/-- Only requests that no cpu has the pages for are refused with `bad_alloc`. -/
theorem thrown_large {n : Nat} (pos : 0 < n)
    (thrown : n ≥ (2 <<< indexOfConservative n) % 2 ^ 32) : 2 ^ 30 < n := by
  by_contra small
  have bound : indexOfConservative n ≤ 30 := by
    unfold indexOfConservative
    split
    next => omega
    next more =>
      have lt : Nat.log2 (n - 1) < 30 := (Nat.log2_lt (by omega)).mpr (by omega)
      omega
  have le := le_conservative pos
  have width : 2 <<< indexOfConservative n = 2 ^ (indexOfConservative n + 1) := by
    rw [Nat.shiftLeft_eq, pow_succ, Nat.mul_comm]
  have fits : 2 ^ (indexOfConservative n + 1) < 2 ^ 32 :=
    Nat.pow_lt_pow_right (by omega) (by omega)
  rw [width, Nat.mod_eq_of_lt fits, pow_succ] at thrown
  omega

theorem Listed.isEmpty (h : Listed s spans) (i : Nat) :
    (s.freeSpans i).isEmpty = true ↔ ∀ sp ∈ spans, sp.free = true → indexOf sp.size ≠ i := by
  obtain ⟨xs, ring, mem⟩ := h i
  have first := ring.next_head
  rw [PageList.ring_zero] at first
  rw [PageList.isEmpty, beq_iff_eq, show (s.freeSpans i).front = xs.headD 0 from first]
  cases xs with
  | nil =>
    refine ⟨fun _ sp hsp free index => ?_, fun _ => rfl⟩
    exact List.not_mem_nil ((mem sp.start).mpr ⟨sp, hsp, free, index, rfl⟩)
  | cons x xs =>
    have page : x ≠ 0 := by
      rintro rfl
      exact (List.nodup_cons.mp ring.nodup).1 List.mem_cons_self
    refine ⟨fun zero => absurd zero page, fun none' => ?_⟩
    obtain ⟨sp, hsp, free, index, -⟩ := (mem x).mp List.mem_cons_self
    exact absurd index (none' sp hsp free)

theorem walk_ring (l : Nat → Link Nat) (list : PageList) (p : Nat → Bool) (fuel n : Nat) :
    walk (list.ring l) 0 p fuel n = walk l 0 p fuel n := by
  induction fuel generalizing n with
  | zero => rfl
  | succ fuel ih =>
    rw [walk, walk]
    by_cases last : n = 0
    · rw [if_pos last, if_pos last]
    · rw [if_neg last, if_neg last, PageList.ring_of_ne l list last, ih]

/-- No list has more spans than there are pages. -/
theorem ring_length {l : Nat → Link Nat} {xs : List Nat} {n : Nat} (ring : Ring l 0 xs)
    (below : ∀ x ∈ xs, x < n) : xs.length ≤ n := by
  have nodup := (List.nodup_cons.mp ring.nodup).2
  have sub : xs ⊆ List.range n := fun x hx => List.mem_range.mpr (below x hx)
  have len := (List.subperm_of_subset nodup sub).length_le
  rwa [List.length_range] at len

/-- `find` goes through the spans of a list. -/
theorem Listed.find (h : Listed s spans) (marked : Marked s.pages spans) {n i : Nat}
    (below : ∀ sp ∈ spans, sp.start < s.nrPages) :
    match (s.freeSpans i).find s.links (s.nrPages + 1) n s.pages with
    | none => ∀ sp ∈ spans, sp.free = true → indexOf sp.size = i → sp.size < n
    | some x => ∃ sp ∈ spans, sp.free = true ∧ indexOf sp.size = i ∧ sp.start = x ∧ n ≤ sp.size := by
  obtain ⟨xs, ring, mem⟩ := h i
  have starts : ∀ x ∈ xs, x < s.nrPages := by
    intro x hx
    obtain ⟨sp, hsp, -, -, rfl⟩ := (mem x).mp hx
    exact below sp hsp
  have first := ring.walk (fun x => decide (n ≤ (s.pages x).spanSize))
    (Nat.lt_succ_of_le (ring_length ring starts))
  rw [PageList.ring_zero, walk_ring] at first
  replace first : (s.freeSpans i).find s.links (s.nrPages + 1) n s.pages = _ := first
  rw [first]
  cases found : xs.find? (fun x => decide (n ≤ (s.pages x).spanSize)) with
  | none =>
    intro sp hsp free index
    have small := List.find?_eq_none.mp found sp.start
      ((mem sp.start).mpr ⟨sp, hsp, free, index, rfl⟩)
    rw [(marked sp hsp).2.1, decide_eq_true_eq] at small
    exact Nat.lt_of_not_le small
  | some x =>
    obtain ⟨sp, hsp, free, index, rfl⟩ := (mem x).mp (List.mem_of_find?_eq_some found)
    have large := List.find?_some found
    rw [(marked sp hsp).2.1, decide_eq_true_eq] at large
    exact ⟨sp, hsp, free, index, rfl, large⟩

/-- When the lists from the conservative index on are empty, a span of that size is in the one
before them, and only if the size is no power of two. -/
theorem indexOf_of_short {n m : Nat} (pos : 0 < n) (large : n ≤ m)
    (short : indexOf m < indexOfConservative n) :
    indexOf n ≠ indexOfConservative n ∧ indexOf m = indexOf n := by
  have low : indexOf n ≤ indexOf m := by
    have self := Nat.log2_self_le (n := n) (Nat.ne_of_gt pos)
    exact (Nat.le_log2 (by omega)).mpr (Nat.le_trans self large)
  rcases conservative_cases pos with ⟨same, -⟩ | next
  · omega
  · omega

/-- If any span has the pages, then there is one in the list that is searched. -/
theorem Rep.searchedList {lo n : Nat} (h : Rep lo s spans) (small : s.nrPages ≤ 2 ^ 30)
    (pos : 0 < n) {sp : PageSpan} (hsp : sp ∈ spans) (free : sp.free = true) (large : n ≤ sp.size) :
    ∃ i, s.searchedList n = some i ∧
      ∃ x ∈ spans, x.free = true ∧ n ≤ x.size ∧ indexOf x.size = i := by
  obtain ⟨-, size, stop⟩ := h.tiles.bounds sp hsp
  unfold PageSpan.stop at stop
  have index : indexOf sp.size < nrSpanLists := by
    have lt : Nat.log2 sp.size < 31 := (Nat.log2_lt (by omega)).mpr (by omega)
    show Nat.log2 sp.size < 32
    omega
  unfold CpuPages.searchedList
  simp only
  split
  next i first =>
    have filled := List.find?_some first
    obtain ⟨above, -⟩ := List.mem_range'_1.mp (List.mem_of_find?_eq_some first)
    rw [Bool.not_eq_true', Bool.eq_false_iff, ne_eq, h.known.listed.isEmpty] at filled
    push Not at filled
    obtain ⟨x, hx, xfree, xindex⟩ := filled
    refine ⟨i, rfl, x, hx, xfree, ?_, xindex⟩
    have xsize := (h.tiles.bounds x hx).2.1
    calc n ≤ 2 ^ indexOfConservative n := le_conservative pos
      _ ≤ 2 ^ i := Nat.pow_le_pow_right (by omega) above
      _ ≤ x.size := ((indexOf_eq xsize).mp xindex).1
  next none' =>
    have short : indexOf sp.size < indexOfConservative n := by
      by_contra above
      have here : indexOf sp.size ∈ List.range' (indexOfConservative n)
          (nrSpanLists - indexOfConservative n) := List.mem_range'_1.mpr (by omega)
      have hidden := List.find?_eq_none.mp none' _ here
      rw [Bool.not_eq_true', Bool.not_eq_false, h.known.listed.isEmpty] at hidden
      exact hidden sp hsp free rfl
    obtain ⟨ne, same⟩ := indexOf_of_short pos large short
    rw [if_neg ne]
    exact ⟨indexOf n, rfl, sp, hsp, free, large, same⟩

/-- `findAndUnlinkSpan` fails only if no free span has the pages. -/
theorem Rep.findAndUnlinkSpan {lo n : Nat} (h : Rep lo s spans) (small : s.nrPages ≤ 2 ^ 30)
    (pos : 0 < n) :
    match s.findAndUnlinkSpan n with
    | .error .badAlloc => ∀ sp ∈ spans, sp.free = true → sp.size < n
    | .ok none => ∀ sp ∈ spans, sp.free = true → sp.size < n
    | .ok (some (x, s')) => ∃ sp ∈ spans, sp.free = true ∧ n ≤ sp.size ∧ sp.start = x ∧
        s' = s.unlink (indexOf sp.size) sp.start := by
  have below : ∀ sp ∈ spans, sp.start < s.nrPages := by
    intro sp hsp
    obtain ⟨-, size, stop⟩ := h.tiles.bounds sp hsp
    unfold PageSpan.stop at stop
    omega
  unfold CpuPages.findAndUnlinkSpan
  by_cases thrown : n ≥ (2 <<< indexOfConservative n) % 2 ^ 32
  · rw [if_pos thrown]
    intro sp hsp _
    have high := thrown_large pos thrown
    obtain ⟨-, -, stop⟩ := h.tiles.bounds sp hsp
    unfold PageSpan.stop at stop
    omega
  · rw [if_neg thrown]
    cases searched : s.searchedList n with
    | none =>
      intro sp hsp free
      by_contra large
      obtain ⟨i, found, -⟩ := h.searchedList small pos hsp free (Nat.not_lt.mp large)
      rw [searched] at found
      cases found
    | some i =>
      have spec := h.known.listed.find h.known.marked (n := n) (i := i) below
      simp only [Option.bind_eq_bind, Option.bind_some]
      cases found : (s.freeSpans i).find s.links (s.nrPages + 1) n s.pages with
      | none =>
        rw [found] at spec
        intro sp hsp free
        by_contra large
        obtain ⟨j, again, x, hx, xfree, xlarge, xindex⟩ :=
          h.searchedList small pos hsp free (Nat.not_lt.mp large)
        rw [searched] at again
        cases again
        exact Nat.not_lt.mpr xlarge (spec x hx xfree xindex)
      | some x =>
        rw [found] at spec
        obtain ⟨sp, hsp, free, rfl, rfl, large⟩ := spec
        exact ⟨sp, hsp, free, large, rfl, rfl⟩

end CpuPages

end XiRuntime
