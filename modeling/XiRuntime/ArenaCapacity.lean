import XiRuntime.ArenaAllocator
import XiRuntime.Buffer

namespace XiRuntime

def Fragment.capacity (f : Fragment) : Nat := f.headroom + f.size + f.tailroom

namespace ArenaAllocator

section Calls

variable (malloc : Malloc)

/-- `basic_buffer_allocator::allocate` over the arena: the memory and the buffer, or the failed
assertion of `advance`. -/
def allocateBuffer (m : Mem) (a : ArenaAllocator) (sz headroom tailroom : Nat) :
    Option (Mem × Buffer) × ArenaAllocator :=
  let totalSize := (sz + headroom + tailroom) % 2 ^ 64
  let out := a.allocate malloc totalSize
  let frag := if headroom ≠ 0 then out.1.advance m headroom else some (m, out.1)
  (frag.map (fun p => (p.1, Buffer.ofFragment p.2)), out.2)

/-- The next fragment has room for the request, however a buffer divides it. -/
structure EnoughRoom (a : ArenaAllocator) (sz : Nat) : Prop where
  capacity : sz ≤ (a.allocate malloc sz).1.capacity
  buffer : ∀ (m : Mem) (bytes headroom tailroom : Nat), bytes + headroom + tailroom = sz →
    ∃ m' b, (a.allocateBuffer malloc m bytes headroom tailroom).1 = some (m', b) ∧
      b.headroom = headroom ∧ bytes + tailroom ≤ b.tailroom

/-- The arena is used up, or what is left of it is enough. -/
def Suffices (a : ArenaAllocator) (sz : Nat) : Prop := a.arena.size = 0 ∨ sz ≤ a.arena.size

end Calls

end ArenaAllocator

namespace Fragment

/-- A new fragment is all tailroom. -/
theorem new_room (b : ByteBlob) :
    (new b).size = 0 ∧ (new b).headroom = 0 ∧ (new b).tailroom = b.size := by
  unfold new maybeRelease
  split
  next empty =>
    have nothing : b.size = 0 := empty
    simp [released, headroom, tailroom, tail, ByteBlob.null, ByteBlob.stop, nothing]
  next => simp [headroom, tailroom, tail, ByteBlob.stop]

theorem capacity_new (b : ByteBlob) : (new b).capacity = b.size := by
  obtain ⟨size, head, tail⟩ := new_room b
  rw [capacity, size, head, tail]
  omega

/-- The head moves into the tailroom of an empty fragment. -/
theorem advance_empty (m : Mem) {f : Fragment} {n : Nat} (empty : f.size = 0) (hi : f.Inside)
    (h : n ≤ f.tailroom) :
    ∃ g, f.advance m n = some (m, g) ∧ g.size = 0 ∧ g.headroom = f.headroom + n ∧
      g.tailroom = f.tailroom - n := by
  obtain ⟨above, below⟩ := hi
  refine ⟨{ f with head := f.head + n }, ?_, empty, ?_, ?_⟩
  · simp [advance, empty, h]
  · simp only [headroom]
    omega
  · simp only [tailroom, tail]
    omega

end Fragment

/-- A buffer of one fragment has its room, if it keeps the fragment or not. -/
theorem Buffer.ofFragment_room (f : Fragment) :
    (Buffer.ofFragment f).headroom = f.headroom ∧ (Buffer.ofFragment f).tailroom = f.tailroom := by
  unfold Buffer.ofFragment
  split
  next none => exact ⟨none.2.1.symm, none.2.2.symm⟩
  next => exact ⟨rfl, rfl⟩

namespace ArenaAllocator

variable {malloc : Malloc} {a : ArenaAllocator} {sz : Nat}

theorem enoughRoom_iff (small : sz < 2 ^ 64) :
    a.EnoughRoom malloc sz ↔ sz ≤ (a.handedOut malloc).size := by
  have made : (a.allocate malloc sz).1 = .new (a.handedOut malloc) := allocate_fragment a sz
  constructor
  · intro room
    have enough := room.capacity
    rwa [made, Fragment.capacity_new] at enough
  · intro enough
    refine ⟨by rwa [made, Fragment.capacity_new], ?_⟩
    intro m bytes headroom tailroom total
    obtain ⟨empty, front, back⟩ := Fragment.new_room (a.handedOut malloc)
    have request : (bytes + headroom + tailroom) % 2 ^ 64 = sz := by omega
    simp only [allocateBuffer, request, made]
    by_cases none : headroom = 0
    · obtain ⟨bufFront, bufBack⟩ := Buffer.ofFragment_room (.new (a.handedOut malloc))
      refine ⟨m, _, by rw [if_neg (not_not.mpr none)]; rfl, ?_, ?_⟩
      · rw [bufFront, front, none]
      · rw [bufBack, back]
        omega
    · obtain ⟨g, advanced, still, gFront, gBack⟩ := Fragment.advance_empty m (n := headroom) empty
        (Fragment.new_inside _) (by omega)
      obtain ⟨bufFront, bufBack⟩ := Buffer.ofFragment_room g
      refine ⟨m, _, by rw [if_pos none, advanced]; rfl, ?_, ?_⟩
      · rw [bufFront, gFront, front, Nat.zero_add]
      · rw [bufBack, gBack, back]
        omega

theorem after_arenaSize (a : ArenaAllocator) (szs : List Nat) (n : Nat) :
    (a.after malloc (szs.take n)).arenaSize = a.arenaSize := by
  refine Runs.invariant (P := fun s : ArenaAllocator => s.arenaSize = a.arenaSize) rfl ?_ n
  intro n sz _ same
  rw [allocate_arenaSize, same]

/-- A fresh arena is large enough, so only a rest that is too small can be handed out. -/
theorem handedOut_iff (usable : ∀ k, a.arenaSize ≤ (malloc.block a.arenaSize k).size)
    (small : sz ≤ a.arenaSize) :
    sz ≤ (a.handedOut malloc).size ↔ a.Suffices sz := by
  rw [handedOut, Suffices]
  split
  next empty => exact iff_of_true (Nat.le_trans small (usable _)) (Or.inl empty)
  next some => simp [some]

/-- All requests get their room just when each of them finds an empty arena or a rest that is
large enough for it. -/
theorem arena_room_iff {malloc : Malloc} {arenaSize : Nat}
    (usable : ∀ k, arenaSize ≤ (malloc.block arenaSize k).size) (wide : arenaSize < 2 ^ 64)
    (lowWatermark : Nat) {szs : List Nat} (small : ∀ sz ∈ szs, sz ≤ arenaSize) :
    (∀ n sz, szs[n]? = some sz →
        ((create arenaSize lowWatermark).after malloc (szs.take n)).EnoughRoom malloc sz) ↔
      ∀ n sz, szs[n]? = some sz →
        ((create arenaSize lowWatermark).after malloc (szs.take n)).Suffices sz := by
  have step : ∀ n sz, szs[n]? = some sz →
      (((create arenaSize lowWatermark).after malloc (szs.take n)).EnoughRoom malloc sz ↔
        ((create arenaSize lowWatermark).after malloc (szs.take n)).Suffices sz) := by
    intro n sz request
    have fits := small sz (List.mem_of_getElem? request)
    have same : ((create arenaSize lowWatermark).after malloc (szs.take n)).arenaSize = arenaSize :=
      after_arenaSize _ szs n
    rw [enoughRoom_iff (by omega)]
    exact handedOut_iff (by rwa [same]) (by rwa [same])
  constructor
  · exact fun room n sz request => (step n sz request).mp (room n sz request)
  · exact fun rest n sz request => (step n sz request).mpr (rest n sz request)

/-- Two requests that the arena of a thousand bytes has room for, and one that takes the next. -/
theorem arena_room_in_turn :
    (create 1000 10).EnoughRoom pages 400 ∧
      ∀ n sz, ([400, 600, 1000] : List Nat)[n]? = some sz →
        ((create 1000 10).after pages (([400, 600, 1000] : List Nat).take n)).EnoughRoom pages sz := by
  have rest : ∀ n sz, ([400, 600, 1000] : List Nat)[n]? = some sz →
      ((create 1000 10).after pages (([400, 600, 1000] : List Nat).take n)).Suffices sz := by
    intro n sz request
    match n with
    | 0 => exact Or.inl rfl
    | 1 => cases request; exact Or.inr (by decide)
    | 2 => cases request; exact Or.inr (by decide)
    | n + 3 => cases request
  have room := (arena_room_iff (fun _ => Nat.le_refl 1000) (by decide) 10 (by decide)).mpr rest
  exact ⟨room 0 400 rfl, room⟩

/-- Of the arena of a thousand bytes 500 are left, and the request for 600 gets these. -/
theorem arena_rest_too_small :
    ¬ ∀ (malloc : Malloc) (arenaSize lowWatermark : Nat) (szs : List Nat),
      (∀ k, arenaSize ≤ (malloc.block arenaSize k).size) → arenaSize < 2 ^ 64 →
        (∀ sz ∈ szs, sz ≤ arenaSize) → ∀ n sz, szs[n]? = some sz →
          ((create arenaSize lowWatermark).after malloc (szs.take n)).EnoughRoom malloc sz := by
  intro h
  have room := h pages 1000 10 [500, 600] (fun _ => Nat.le_refl 1000) (by decide) (by decide) 1 600 rfl
  exact absurd room.capacity (by decide)

end ArenaAllocator

end XiRuntime
