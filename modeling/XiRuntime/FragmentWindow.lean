import XiRuntime.Fragment

namespace XiRuntime

open ByteStore

/-- One call of `memmove`. -/
structure Memmove where
  dest : Nat
  src : Nat
  count : Nat
deriving DecidableEq, Repr

namespace Memmove

def run (c : Memmove) (m : Mem) : Mem := m.store c.dest (m.load c.src c.count)

/-- The call reads and writes the blob only. -/
structure StaysIn (c : Memmove) (b : ByteBlob) : Prop where
  src_above : b.bytes ≤ c.src
  src_below : c.src + c.count ≤ b.stop
  dest_above : b.bytes ≤ c.dest
  dest_below : c.dest + c.count ≤ b.stop

end Memmove

namespace Fragment

/-- The copy that `advance` makes; the pointer wraps around as a `usize` does. -/
def advanceMove (f : Fragment) (sz : Nat) : Option Memmove :=
  if f.size > 0 then some ⟨(f.head + sz) % 2 ^ 64, f.head, f.size⟩ else none

/-- `fragment::advance` on any `usize`. The sum in its assertion wraps around; where it does not,
this is `advance`. -/
def advanceUsize (m : Mem) (f : Fragment) (sz : Nat) : Option (Mem × Fragment) :=
  if (sz + f.size) % 2 ^ 64 ≤ f.tailroom then
    some ((f.advanceMove sz).elim m (·.run m), { f with head := (f.head + sz) % 2 ^ 64 })
  else none

/-- The copy that `retreat` makes: to the head, from behind it. -/
def retreatMove (f : Fragment) (sz : Nat) : Option Memmove :=
  if f.size > 0 then some ⟨f.head, f.head + sz, f.size⟩ else none

/-- `fragment::retreat`; `none` is its failed assertion. -/
def retreat (m : Mem) (f : Fragment) (sz : Nat) : Option (Mem × Fragment) :=
  if sz ≤ f.headroom then
    some ((f.retreatMove sz).elim m (·.run m), { f with head := f.head - sz })
  else none

/-- The first `k` data bytes stay, the others go with the tailroom, and the two blobs are the old
one; there is nothing to split off behind the data. -/
structure SplitsExactly (m : Mem) (f : Fragment) (k : Nat) : Prop where
  null : f.size ≤ k → f.split k = (none, f)
  cut : k < f.size → ∃ r f', f.split k = (some r, f') ∧ r.Inside ∧ f'.Inside ∧
    f'.data m = (f.data m).take k ∧ f'.headroom = f.headroom ∧
    r.data m = (f.data m).drop k ∧ r.tailroom = f.tailroom ∧
    f'.blob.bytes = f.blob.bytes ∧ f'.blob.stop = r.blob.bytes ∧ r.blob.stop = f.blob.stop

/-- `g` shows the data of `f`, and what was copied for that lies in the blob. -/
structure SameData (m : Mem) (f : Fragment) (m' : Mem) (g : Fragment) (copy : Option Memmove) :
    Prop where
  data : g.data m' = f.data m
  inBlob : ∀ c ∈ copy, c.StaysIn f.blob

/-- `advance(n)` and `retreat(n)`, where they are admitted, move the window by `n` and nothing
else, and the second one undoes the first. -/
structure MovesWindow (m : Mem) (f : Fragment) (n : Nat) : Prop where
  advanced : ∀ m' g, f.advanceUsize m n = some (m', g) →
    g.headroom = f.headroom + n ∧ g.tailroom + n = f.tailroom ∧ SameData m f m' g (f.advanceMove n)
  retreated : ∀ m' g, f.retreat m n = some (m', g) →
    g.headroom + n = f.headroom ∧ g.tailroom = f.tailroom + n ∧ SameData m f m' g (f.retreatMove n)
  restored : ∀ m' g, f.advanceUsize m n = some (m', g) → ∃ m'' k, g.retreat m' n = some (m'', k) ∧
    k.headroom = f.headroom ∧ k.tailroom = f.tailroom ∧ SameData m f m'' k (g.retreatMove n)

/-- `advance` does not wrap around, and leaves the tailroom that `retreat` reads. -/
def AdvanceFits (f : Fragment) (n : Nat) : Prop :=
  (n + f.size) % 2 ^ 64 ≤ f.tailroom → n + f.size < 2 ^ 64 ∧ 2 * n ≤ f.tailroom

/-- Behind the data there are `n` bytes, and those `n` before the head begin as the data. -/
def RetreatFits (m : Mem) (f : Fragment) (n : Nat) : Prop :=
  n ≤ f.headroom →
    n ≤ f.tailroom ∧ m.load (f.head - n) (min n f.size) = m.load f.head (min n f.size)

/-- `split` is right but at the very front of a blob: there it forgets the size of what it
returns. -/
theorem split_loses_nothing_iff (m : Mem) {f : Fragment} (hi : f.Inside) (k : Nat) :
    f.SplitsExactly m k ↔ k ≠ 0 ∨ f.headroom ≠ 0 ∨ f.size = 0 := by
  constructor
  · intro exact
    by_contra front
    obtain ⟨zero, flush, busy⟩ : k = 0 ∧ f.headroom = 0 ∧ f.size ≠ 0 := by omega
    obtain ⟨r, f', made, -, -, -, -, bytes, -⟩ := exact.cut (by omega)
    have whole : f.split k = (some (new f.blob), released) := by simp [split, zero, flush, busy]
    rw [whole] at made
    cases made
    have lost := congrArg List.length bytes
    simp only [length_data, new_size, List.length_drop] at lost
    omega
  · intro inner
    constructor
    · intro past
      simp only [split, ge_iff_le, past, if_true]
    · intro within
      refine ⟨_, _, split_eq hi within (by omega), ?_⟩
      simp only [Inside, tail, ByteBlob.stop] at hi
      simp only [Inside, tail, ByteBlob.stop, data, take_load, drop_load, headroom, tailroom]
      refine ⟨by omega, by omega, ?_, trivial, ?_, by omega, trivial, by omega, by omega⟩
      · rw [Nat.min_eq_left (Nat.le_of_lt within)]
      · rw [Nat.min_eq_left (Nat.le_of_lt within)]

/-- The test fragment has a byte of headroom; at the front of it nothing is forgotten. -/
theorem split_loses_nothing_front :
    SplitsExactly Mem.addresses ⟨⟨8, 5⟩, 9, 3⟩ 0 :=
  (split_loses_nothing_iff Mem.addresses (f := ⟨⟨8, 5⟩, 9, 3⟩)
    (by simp [Inside, tail, ByteBlob.stop]) 0).mpr (by decide)

/-- Three bytes without headroom: what is split off at 0 has none of them. -/
theorem split_forgets_size :
    ¬ ∀ (m : Mem) (f : Fragment) (k : Nat), f.Inside → f.SplitsExactly m k := by
  intro h
  obtain ⟨r, f', made, -, -, -, -, bytes, -⟩ := (h (fun _ => 0) ⟨⟨8, 3⟩, 8, 3⟩ 0
    (by simp [Inside, tail, ByteBlob.stop])).cut (by decide)
  have empty : Fragment.split ⟨⟨8, 3⟩, 8, 3⟩ 0 = (some ⟨⟨8, 3⟩, 8, 0⟩, released) := by decide
  rw [empty] at made
  cases made
  exact absurd bytes (by decide)

variable {m : Mem} {f : Fragment} {n : Nat}

/-- Where the sum does not wrap around, the assertion and the pointer are those of `advance`. -/
theorem advanceUsize_eq (m : Mem) (hi : f.Inside) (space : f.blob.stop < 2 ^ 64)
    (wide : n + f.size < 2 ^ 64) : f.advanceUsize m n = f.advance m n := by
  obtain ⟨above, below⟩ := hi
  rw [advanceUsize, advance, Nat.mod_eq_of_lt wide]
  split
  next fits =>
    have dest : (f.head + n) % 2 ^ 64 = f.head + n := by
      apply Nat.mod_eq_of_lt
      unfold tail at below
      unfold tailroom tail at fits
      omega
    rw [advanceMove, dest]
    by_cases busy : f.size > 0
    · rw [if_pos busy, if_pos busy]
      rfl
    · rw [if_neg busy, if_neg busy]
      rfl
  next => rfl

/-- The data are copied to where the window goes, and stay where they were before it. -/
theorem advance_spec (m : Mem) (fits : n + f.size ≤ f.tailroom) :
    ∃ m', f.advance m n = some (m', { f with head := f.head + n }) ∧
      m'.load (f.head + n) f.size = f.data m ∧
      m'.load f.head (min n f.size) = m.load f.head (min n f.size) := by
  rw [advance, if_pos fits]
  by_cases busy : f.size > 0
  · refine ⟨_, rfl, ?_, ?_⟩
    · rw [if_pos busy]
      have whole := load_store_same m (f.head + n) (f.data m)
      rwa [length_data] at whole
    · rw [if_pos busy, load_store_apart]
      unfold Apart
      rw [length_data]
      omega
  · have none : f.size = 0 := by omega
    refine ⟨_, rfl, ?_, ?_⟩
    · rw [none, load_zero, data_of_size_zero none]
    · rw [none, Nat.min_zero, load_zero, load_zero]

theorem advanceMove_staysIn (hi : f.Inside) (space : f.blob.stop < 2 ^ 64)
    (fits : n + f.size ≤ f.tailroom) : ∀ c ∈ f.advanceMove n, c.StaysIn f.blob := by
  obtain ⟨above, below⟩ := hi
  unfold tail at below
  unfold tailroom tail at fits
  intro c hc
  have dest : (f.head + n) % 2 ^ 64 = f.head + n := Nat.mod_eq_of_lt (by omega)
  rw [advanceMove, dest] at hc
  split at hc
  next busy =>
    cases hc
    constructor
    · exact above
    · exact below
    · exact Nat.le_trans above (Nat.le_add_right _ _)
    · simp only
      omega
  next => cases hc

theorem retreatMove_staysIn (hi : f.Inside) :
    (∀ c ∈ f.retreatMove n, c.StaysIn f.blob) ↔ f.size = 0 ∨ n ≤ f.tailroom := by
  obtain ⟨above, below⟩ := hi
  unfold tail at below
  unfold tailroom tail
  by_cases busy : f.size > 0
  · rw [retreatMove, if_pos busy]
    constructor
    · intro stays
      have source := (stays _ rfl).src_below
      simp only at source
      omega
    · intro room c hc
      cases hc
      constructor
      · exact Nat.le_trans above (Nat.le_add_right _ _)
      · simp only
        omega
      · exact above
      · exact below
  · rw [retreatMove, if_neg busy]
    refine iff_of_true (fun c hc => by cases hc) (Or.inl (by omega))

/-- The data are their first `n` bytes, and those behind. -/
theorem data_parts (m : Mem) (f : Fragment) (n : Nat) :
    f.data m = m.load f.head (min n f.size) ++ m.load (f.head + n) (f.size - n) := by
  have parts : min n f.size + (f.size - n) = f.size := by omega
  rw [data]
  conv => lhs; rw [← parts, load_add]
  rcases Nat.le_total n f.size with inner | past
  · rw [Nat.min_eq_left inner]
  · rw [Nat.sub_eq_zero_of_le past, load_zero, load_zero]

/-- `retreat` copies the data from behind to the old head, so that only the bytes from `n` on
are right at the new one. -/
theorem retreat_data (m : Mem) (busy : 0 < f.size) (h : n ≤ f.head) :
    data ((f.retreatMove n).elim m (·.run m)) { f with head := f.head - n } =
      m.load (f.head - n) (min n f.size) ++ m.load (f.head + n) (f.size - n) := by
  rw [retreatMove, if_pos busy, Option.elim_some, Memmove.run, data]
  rw [load_store_before m (Nat.sub_add_cancel h) (by simp), take_load, Nat.min_eq_left (Nat.sub_le _ _)]

theorem retreat_data_iff (m : Mem) (h : n ≤ f.head) :
    data ((f.retreatMove n).elim m (·.run m)) { f with head := f.head - n } = f.data m ↔
      f.size = 0 ∨ m.load (f.head - n) (min n f.size) = m.load f.head (min n f.size) := by
  by_cases none : f.size = 0
  · refine iff_of_true ?_ (Or.inl none)
    rw [data_of_size_zero none]
    exact data_of_size_zero none
  · rw [retreat_data m (Nat.pos_of_ne_zero none) h, data_parts m f n, List.append_left_inj]
    simp only [none, false_or]

/-- Behind `advance` the first `n` bytes before the head are those of the data, so `retreat` finds
them right. -/
theorem retreat_restores {m' : Mem} (copied : m'.load (f.head + n) f.size = f.data m)
    (front : m'.load f.head (min n f.size) = m.load f.head (min n f.size)) :
    data ((retreatMove { f with head := f.head + n } n).elim m' (·.run m'))
        { f with head := f.head + n - n } = f.data m := by
  have kept := (retreat_data_iff (f := { f with head := f.head + n }) (n := n) m'
    (Nat.le_add_left n f.head)).mpr (Or.inr ?_)
  · exact kept.trans copied
  · simp only [Nat.add_sub_cancel]
    have begins : m'.load (f.head + n) (min n f.size) = (f.data m).take n := by
      rw [← copied, take_load]
    rw [front, begins, data, take_load]

/-- The window behind an `advance` that does not wrap around. -/
theorem moved_window (hi : f.Inside) (fits : n + f.size ≤ f.tailroom) :
    Inside { f with head := f.head + n } ∧ headroom { f with head := f.head + n } = f.headroom + n ∧
      tailroom { f with head := f.head + n } + n = f.tailroom := by
  unfold Inside tail at hi
  unfold tailroom tail at fits
  unfold Inside headroom tailroom tail
  simp only
  omega

theorem MovesWindow.advanceFits (moves : f.MovesWindow m n) (hi : f.Inside)
    (space : f.blob.stop < 2 ^ 64) (busy : 0 < f.size) : f.AdvanceFits n := by
  intro admitted
  have made : f.advanceUsize m n =
      some ((f.advanceMove n).elim m (·.run m), { f with head := (f.head + n) % 2 ^ 64 }) := by
    rw [advanceUsize, if_pos admitted]
  have room : n ≤ f.tailroom := by
    have less := (moves.advanced _ _ made).2.1
    omega
  have wide : n + f.size < 2 ^ 64 := by
    unfold tailroom tail at room
    have below := hi.2
    unfold tail at below
    omega
  rw [Nat.mod_eq_of_lt wide] at admitted
  obtain ⟨m', advanced, -, -⟩ := advance_spec m admitted
  rw [← advanceUsize_eq m hi space wide] at advanced
  obtain ⟨inside, -, less⟩ := moved_window hi admitted
  obtain ⟨m'', k, -, -, -, same⟩ := moves.restored _ _ advanced
  rcases (retreatMove_staysIn inside).mp same.inBlob with none | back
  · exact absurd none (Nat.ne_of_gt busy)
  · exact ⟨wide, by omega⟩

theorem MovesWindow.retreatFits (moves : f.MovesWindow m n) (hi : f.Inside) (busy : 0 < f.size) :
    f.RetreatFits m n := by
  intro admitted
  have made : f.retreat m n =
      some ((f.retreatMove n).elim m (·.run m), { f with head := f.head - n }) := by
    rw [retreat, if_pos admitted]
  obtain ⟨-, -, same⟩ := moves.retreated _ _ made
  have before : n ≤ f.head := Nat.le_trans admitted (Nat.sub_le _ _)
  constructor
  · exact ((retreatMove_staysIn hi).mp same.inBlob).resolve_left (Nat.ne_of_gt busy)
  · exact ((retreat_data_iff m before).mp same.data).resolve_left (Nat.ne_of_gt busy)

/-- What is admitted by a sum that does not wrap around, or by one of no data. -/
theorem advanceUsize_admitted (hi : f.Inside) (space : f.blob.stop < 2 ^ 64) (hn : n < 2 ^ 64)
    (fits : f.size = 0 ∨ f.AdvanceFits n) {m' : Mem} {g : Fragment}
    (made : f.advanceUsize m n = some (m', g)) :
    n + f.size ≤ f.tailroom ∧ (f.size = 0 ∨ 2 * n ≤ f.tailroom) ∧ f.advance m n = some (m', g) := by
  have admitted : (n + f.size) % 2 ^ 64 ≤ f.tailroom := by
    by_contra refused
    rw [advanceUsize, if_neg refused] at made
    cases made
  obtain ⟨wide, back⟩ : n + f.size < 2 ^ 64 ∧ (f.size = 0 ∨ 2 * n ≤ f.tailroom) := by
    rcases fits with none | ahead
    · exact ⟨by omega, Or.inl none⟩
    · exact ⟨(ahead admitted).1, Or.inr (ahead admitted).2⟩
  rw [Nat.mod_eq_of_lt wide] at admitted
  rw [advanceUsize_eq m hi space wide] at made
  exact ⟨admitted, back, made⟩

theorem retreat_some {m' : Mem} {g : Fragment} (made : f.retreat m n = some (m', g)) :
    n ≤ f.headroom ∧ m' = (f.retreatMove n).elim m (·.run m) ∧ g = { f with head := f.head - n } := by
  by_cases admitted : n ≤ f.headroom
  · rw [retreat, if_pos admitted] at made
    cases made
    exact ⟨admitted, rfl, rfl⟩
  · rw [retreat, if_neg admitted] at made
    cases made

/-- `advance` and `retreat` only move the window just when the fragment is empty, or `advance`
does not wrap around and leaves room behind, and the bytes that `retreat` uncovers are by chance
those of the data: it copies in the wrong direction. -/
theorem moves_window_iff (m : Mem) (hi : f.Inside) (space : f.blob.stop < 2 ^ 64) (hn : n < 2 ^ 64) :
    f.MovesWindow m n ↔ f.size = 0 ∨ f.AdvanceFits n ∧ f.RetreatFits m n := by
  constructor
  · intro moves
    rcases Nat.eq_zero_or_pos f.size with none | busy
    · exact Or.inl none
    · exact Or.inr ⟨moves.advanceFits hi space busy, moves.retreatFits hi busy⟩
  · intro fits
    have ahead := fits.imp_right And.left
    constructor
    · intro m' g made
      obtain ⟨room, -, advanced⟩ := advanceUsize_admitted hi space hn ahead made
      obtain ⟨m₁, spec, copied, -⟩ := advance_spec m room
      rw [spec] at advanced
      cases advanced
      obtain ⟨-, more, less⟩ := moved_window hi room
      exact ⟨more, less, copied, advanceMove_staysIn hi space room⟩
    · intro m' g made
      obtain ⟨admitted, rfl, rfl⟩ := retreat_some made
      have before : n ≤ f.head := Nat.le_trans admitted (Nat.sub_le _ _)
      refine ⟨?_, ?_, ?_, ?_⟩
      · unfold headroom at admitted ⊢
        simp only
        omega
      · unfold Inside tail at hi
        unfold headroom at admitted
        unfold tailroom tail
        simp only
        omega
      · refine (retreat_data_iff m before).mpr ?_
        exact fits.imp_right fun both => (both.2 admitted).2
      · refine (retreatMove_staysIn hi).mpr ?_
        exact fits.imp_right fun both => (both.2 admitted).1
    · intro m' g made
      obtain ⟨room, back, advanced⟩ := advanceUsize_admitted hi space hn ahead made
      obtain ⟨m₁, spec, copied, front⟩ := advance_spec m room
      rw [spec] at advanced
      cases advanced
      obtain ⟨inside, more, less⟩ := moved_window hi room
      have admitted : n ≤ headroom { f with head := f.head + n } := by omega
      refine ⟨_, _, by rw [retreat, if_pos admitted], ?_, ?_, retreat_restores copied front, ?_⟩
      · simp only [headroom, Nat.add_sub_cancel]
      · simp only [tailroom, tail, Nat.add_sub_cancel]
      · refine (retreatMove_staysIn inside).mpr ?_
        rcases back with none | twice
        · exact Or.inl none
        · exact Or.inr (by omega)

/-- The two bytes before the head are those of the data. -/
theorem moves_window_alternating :
    MovesWindow (fun x => UInt8.ofNat (x % 2)) ⟨⟨8, 10⟩, 10, 2⟩ 2 :=
  (moves_window_iff (f := ⟨⟨8, 10⟩, 10, 2⟩) (fun x => UInt8.ofNat (x % 2))
    (by simp [Inside, tail, ByteBlob.stop]) (by decide) (by decide)).mpr
      (Or.inr ⟨fun _ => by decide, fun _ => by decide⟩)

/-- The data 10 and 11 become 9 and 11. -/
theorem retreat_spoils_data :
    ¬ ∀ (m : Mem) (f : Fragment) (n : Nat), f.Inside → f.blob.stop < 2 ^ 64 → n < 2 ^ 64 →
      f.MovesWindow m n := by
  intro h
  have moves := h Mem.addresses ⟨⟨8, 10⟩, 10, 2⟩ 1
    (by simp [Inside, tail, ByteBlob.stop]) (by decide) (by decide)
  exact absurd (moves.retreated _ _ rfl).2.2.data (by decide)

end Fragment

end XiRuntime
