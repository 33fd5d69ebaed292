import Mathlib.Data.Nat.Find
import XiRuntime.Http2Buffer
import XiRuntime.Http2Codec

namespace XiRuntime

open ByteStore

namespace Http2

namespace Decoder

/-- The bytes and the preface are both there at position `i`, and different. -/
def PrefaceDiffers (s : List UInt8) (i : Nat) : Prop :=
  i < min s.length connectionPrefaceLength ∧ s[i]? ≠ initiationString[i]?

/-- One call of `decode` on a fresh decoder takes `n` bytes off the buffer. -/
def FirstCall (m : Mem) (b : Buffer) (n : Nat) (calls : List Call) (st : State) : Prop :=
  ∀ fuel, ∃ d' b', InBuffer.decodeFuel m (fuel + 1) init b = some (d', b', calls) ∧
    d'.state = st ∧ b'.Valid ∧ b'.content m = (b.content m).drop n

theorem readConnectionPreface_differs {d : Decoder} {inp : List UInt8} {i : Nat}
    (hd : d.length + i < connectionPrefaceLength) (hi : i < inp.length)
    (hne : inp[i]? ≠ initiationString[d.length + i]?)
    (heq : ∀ j < i, inp[j]? = initiationString[d.length + j]?) :
    d.readConnectionPreface inp =
      ⟨{ d with length := d.length + i + 1, state := .connectionError }, inp.drop (i + 1),
        [.sendConnectionError .protocolError], false⟩ := by
  have matched : (inp.take i) <+: initiationString.drop d.length := by
    have same : inp.take i = (initiationString.drop d.length).take i := by
      apply List.ext_getElem?
      intro j
      simp only [List.getElem?_take, List.getElem?_drop]
      split
      next hj => exact heq j hj
      next => rfl
    rw [same]
    exact List.take_prefix _ _
  have length : (inp.take i).length = i := by
    rw [List.length_take]
    omega
  have breaks : d.BreaksOffPreface (inp.take i) := ⟨matched, by rw [length]; omega⟩
  have split : inp = inp.take i ++ inp[i] :: inp.drop (i + 1) := by
    rw [← List.drop_eq_getElem_cons hi, List.take_append_drop]
  have differs : initiationString[d.length + i]? ≠ some inp[i] := by
    rw [← List.getElem?_eq_getElem hi]
    exact Ne.symm hne
  conv => lhs; rw [split]
  rw [readConnectionPreface_matched breaks, length, readConnectionPreface]
  simp only [if_pos differs]
  rfl

theorem pass_init (inp : List UInt8) : init.pass inp = init.readConnectionPreface inp := rfl

/-- The preface is matched byte for byte over any fragments: it is taken off the buffer, or
what is taken ends with the first byte that is wrong. -/
theorem preface_matched_exactly {m : Mem} {b : Buffer} (hv : b.Valid) :
    (initiationString <+: b.content m →
      FirstCall m b connectionPrefaceLength [] .readFrameHeader) ∧
    ((∃ i, PrefaceDiffers (b.content m) i) →
      ∃ i, PrefaceDiffers (b.content m) i ∧ (∀ j < i, ¬ PrefaceDiffers (b.content m) j) ∧
        FirstCall m b (i + 1) [.sendConnectionError .protocolError] .connectionError) := by
  constructor
  · rintro ⟨t, ht⟩ fuel
    have whole : init.readConnectionPreface (initiationString ++ t) = _ :=
      readConnectionPreface_complete (d := init) (by decide) t
    have stop : (init.pass (b.content m)).loop = false := by
      rw [← ht, pass_init, whole]
    have run := decodeFuel_of_stop stop fuel
    rw [← ht, pass_init, whole, ht] at run
    obtain ⟨b', decoded, valid, rest⟩ := InBuffer.decodeFuel_some hv run
    refine ⟨_, b', decoded, rfl, valid, ?_⟩
    rw [rest, ← ht]
    exact (List.drop_left' rfl).symm
  · intro differs
    classical
    have first := Nat.find_spec differs
    have before : ∀ j < Nat.find differs, ¬ PrefaceDiffers (b.content m) j :=
      fun j hj => Nat.find_min differs hj
    generalize Nat.find differs = i at first before
    refine ⟨i, first, before, ?_⟩
    intro fuel
    obtain ⟨inside, hne⟩ := first
    have hi : i < (b.content m).length := by omega
    have hd : i < connectionPrefaceLength := by omega
    have matched : ∀ j < i, (b.content m)[j]? = initiationString[j]? := by
      intro j hj
      by_contra hne
      exact before j hj ⟨by omega, hne⟩
    have failed : init.readConnectionPreface (b.content m) = _ :=
      readConnectionPreface_differs (d := init) (i := i) (by simpa [init] using hd) hi
        (by simpa [init] using hne) (by simpa [init] using matched)
    have stop : (init.pass (b.content m)).loop = false := by rw [pass_init, failed]
    have run := decodeFuel_of_stop stop fuel
    rw [pass_init, failed] at run
    obtain ⟨b', decoded, valid, rest⟩ := InBuffer.decodeFuel_some hv run
    exact ⟨_, b', decoded, rfl, valid, rest⟩

def prefaceBytes : Mem := Memory.store (fun _ => 0) 0 (initiationString ++ [7, 7])

/-- The preface cut behind its first byte, with an empty fragment before it. -/
def cutPreface : Buffer :=
  ⟨[⟨⟨40, 8⟩, 44, 0⟩, ⟨⟨0, 1⟩, 0, 1⟩, ⟨⟨1, 30⟩, 1, 25⟩], 26⟩

theorem cutPreface_valid : cutPreface.Valid := by
  refine ⟨rfl, ?_⟩
  intro f hf
  simp only [cutPreface, List.mem_cons, List.not_mem_nil, or_false] at hf
  rcases hf with rfl | rfl | rfl <;> exact ⟨by decide, by decide⟩

theorem preface_matched_exactly_cut :
    FirstCall prefaceBytes cutPreface 24 [] .readFrameHeader ∧
      ∃ i, PrefaceDiffers (cutPreface.content (fun _ => 80)) i ∧
        (∀ j < i, ¬ PrefaceDiffers (cutPreface.content (fun _ => 80)) j) ∧
        FirstCall (fun _ => 80) cutPreface (i + 1) [.sendConnectionError .protocolError]
          .connectionError := by
  constructor
  · exact (preface_matched_exactly cutPreface_valid).1 ⟨[7, 7], by decide⟩
  · exact (preface_matched_exactly cutPreface_valid).2 ⟨1, by decide, by decide⟩

end Decoder

end Http2

end XiRuntime
