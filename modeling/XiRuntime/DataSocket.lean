import XiRuntime.BufferContent

namespace XiRuntime

open ByteStore

/-- An `iovec`. -/
structure Iovec where
  base : Nat
  len : Nat
deriving DecidableEq, Repr

/-- `IOV_MAX` of Linux. -/
def iovMax : Nat := 1024

namespace Buffer

/-- The loop of `fill_readable_iovec`; `i` entries are filled. -/
def fillLoop (max : Nat) : List Fragment → Nat → List Iovec
  | [], _ => []
  | f :: fs, i =>
    if f.size = 0 then fillLoop max fs i
    else ⟨f.head, f.size⟩ :: (if max = i + 1 then [] else fillLoop max fs (i + 1))

def fillReadableIovec (b : Buffer) (max : Nat) : List Iovec :=
  if b.fragments = [] ∨ b.size = 0 ∨ max = 0 then [] else fillLoop max b.fragments 0

end Buffer

inductive IoError
  | retry
  | eof
  | errno (e : Nat)
deriving DecidableEq, Repr

/-- How the kernel answers a `sendmsg`. -/
inductive SendReply
  | failed (errno : Nat)
  | accepts (n : Nat)
deriving DecidableEq, Repr

/-- The calls of `sendmsg` made so far and the bytes accepted by them. -/
structure Wire where
  calls : Nat
  accepted : List UInt8
deriving DecidableEq, Repr

/-- `EAGAIN`, which `EWOULDBLOCK` is another name of. -/
def eagain : Nat := 11

def econnreset : Int := 104

def epipe : Int := 32

namespace DataSocket

/-- The bytes that an array of ranges stands for. -/
def bytes (m : Mem) (iov : List Iovec) : List UInt8 := iov.flatMap (fun v => m.load v.base v.len)

/-- The first bytes offered are taken, as many as the kernel likes: no more than are
offered, and no more than an `int` can tell (Linux stops at `0x7ffff000`). -/
def sendmsg (m : Mem) (kernel : Nat → SendReply) (w : Wire) (iov : List Iovec) :
    Wire × Except Nat Nat :=
  match kernel w.calls with
  | .failed e => ({ w with calls := w.calls + 1 }, .error e)
  | .accepts n =>
    let taken := (bytes m iov).take (min n (2 ^ 31 - 1))
    (⟨w.calls + 1, w.accepted ++ taken⟩, .ok taken.length)

/-- The test for a connection that is gone looks at the result instead of `errno`. -/
def writeIov (m : Mem) (kernel : Nat → SendReply) (w : Wire) (iov : List Iovec) :
    Wire × Except IoError Nat :=
  if iov.length = 0 then (w, .ok 0)
  else
    match sendmsg m kernel w iov with
    | (w, .error e) =>
      if e = eagain then (w, .error .retry)
      else if econnreset = -1 ∨ epipe = -1 then (w, .error .eof)
      else (w, .error (.errno e))
    | (w, .ok n) => if n = 0 then (w, .error .retry) else (w, .ok n)

/-- The loop of `data_socket::write`; `none` when the fuel is used up. -/
def writeLoop (m : Mem) (kernel : Nat → SendReply) :
    Nat → Wire → Buffer → Int → Option (Wire × Buffer × Except IoError Int)
  | 0, _, _, _ => none
  | fuel + 1, w, b, ret =>
    let iov := b.fillReadableIovec iovMax
    match writeIov m kernel w iov with
    | (w, .error e) => some (w, b, .error e)
    | (w, .ok n) =>
      let b := b.skipBytes n true
      let ret := Int.bmod (ret + n) (2 ^ 32)
      if iov.length = iovMax then writeLoop m kernel fuel w b ret else some (w, b, .ok ret)

def write (m : Mem) (kernel : Nat → SendReply) (fuel : Nat) (w : Wire) (b : Buffer) :
    Option (Wire × Buffer × Except IoError Int) :=
  if b.size = 0 then some (w, b, .ok 0) else writeLoop m kernel fuel w b 0

/-- The ranges stand for the first bytes of the fragments. -/
theorem bytes_fillLoop (m : Mem) (max : Nat) (fs : List Fragment) (i : Nat) :
    bytes m (Buffer.fillLoop max fs i) <+: fs.flatMap (Fragment.data m) := by
  induction fs generalizing i with
  | nil => exact List.prefix_rfl
  | cons f fs ih =>
    unfold Buffer.fillLoop
    rw [List.flatMap_cons]
    split
    next empty =>
      rw [Fragment.data_of_size_zero empty, List.nil_append]
      exact ih i
    next =>
      have rest : bytes m (if max = i + 1 then [] else Buffer.fillLoop max fs (i + 1)) <+:
          fs.flatMap (Fragment.data m) := by
        split
        · exact List.nil_prefix
        · exact ih (i + 1)
      exact (List.prefix_append_right_inj _).mpr rest

theorem bytes_fillReadableIovec (m : Mem) (b : Buffer) (max : Nat) :
    bytes m (b.fillReadableIovec max) <+: b.content m := by
  unfold Buffer.fillReadableIovec
  split
  · exact List.nil_prefix
  · exact bytes_fillLoop m max b.fragments 0

/-- What one `sendmsg` took: nothing when `write_iov` fails, and otherwise the first
bytes offered. -/
theorem writeIov_spec (m : Mem) (kernel : Nat → SendReply) (w : Wire) (iov : List Iovec) :
    ∃ sent, (writeIov m kernel w iov).1.accepted = w.accepted ++ sent ∧ sent <+: bytes m iov ∧
      match (writeIov m kernel w iov).2 with
      | .error _ => sent = []
      | .ok n => n = sent.length ∧ (iov ≠ [] → 0 < n) := by
  unfold writeIov
  split
  next none =>
    refine ⟨[], by simp, List.nil_prefix, by simp, ?_⟩
    intro hne
    exact absurd (List.length_eq_zero_iff.mp none) hne
  next =>
    unfold sendmsg
    cases kernel w.calls with
    | failed e =>
      simp only
      split
      · exact ⟨[], by simp, List.nil_prefix, rfl⟩
      · exact ⟨[], by simp [econnreset, epipe], List.nil_prefix, by simp [econnreset, epipe]⟩
    | accepts n =>
      simp only
      split
      next zero => exact ⟨_, rfl, List.take_prefix _ _, List.length_eq_zero_iff.mp zero⟩
      next pos => exact ⟨_, rfl, List.take_prefix _ _, rfl, fun _ => Nat.pos_of_ne_zero pos⟩

/-- The loop sends a prefix and leaves the rest, whatever the kernel answers. -/
theorem writeLoop_spec (m : Mem) (kernel : Nat → SendReply) {fuel : Nat} {b : Buffer} (hv : b.Valid)
    (hf : b.size < fuel) (w : Wire) (ret : Int) :
    ∃ w' b' res, writeLoop m kernel fuel w b ret = some (w', b', res) ∧ b'.Valid ∧
      ∃ sent, w'.accepted = w.accepted ++ sent ∧ b.content m = sent ++ b'.content m ∧
        ∀ n, res = .ok n → 0 ≤ ret → ret + b.size < 2 ^ 31 → n = ret + sent.length := by
  induction fuel generalizing w b ret with
  | zero => omega
  | succ fuel ih =>
    obtain ⟨sent, accepted, offered, result⟩ := writeIov_spec m kernel w (b.fillReadableIovec iovMax)
    obtain ⟨rest, content⟩ := offered.trans (bytes_fillReadableIovec m b iovMax)
    unfold writeLoop
    simp only
    cases hw : writeIov m kernel w (b.fillReadableIovec iovMax) with
    | mk w₁ r =>
      simp only [hw] at accepted result
      cases r with
      | error e =>
        refine ⟨w₁, b, .error e, rfl, hv, [], ?_, by simp, by simp⟩
        rw [accepted, result]
      | ok n =>
        obtain ⟨rfl, progress⟩ := result
        obtain ⟨valid, -, skipped⟩ := Buffer.skipBytes_spec hv sent.length true
        have left : (b.skipBytes sent.length true).content m = rest := by
          rw [skipped m, ← content, List.drop_left]
        have whole : b.size = sent.length + rest.length := by
          rw [← hv.length_content m, ← content, List.length_append]
        have remains : (b.skipBytes sent.length true).size = rest.length := by
          rw [← valid.length_content m, left]
        have count : 0 ≤ ret → ret + b.size < 2 ^ 31 →
            Int.bmod (ret + sent.length) (2 ^ 32) = ret + sent.length := by
          intro pos small
          apply Int.bmod_eq_of_le <;> omega
        simp only
        split
        next full =>
          have some : b.fillReadableIovec iovMax ≠ [] := by
            intro nil
            rw [nil] at full
            simp [iovMax] at full
          have pos := progress some
          obtain ⟨w', b', res, eq, valid', more, accepted', content', total⟩ :=
            ih valid (by omega) w₁ (Int.bmod (ret + sent.length) (2 ^ 32))
          refine ⟨w', b', res, eq, valid', sent ++ more, ?_, ?_, ?_⟩
          · rw [accepted', accepted, List.append_assoc]
          · rw [List.append_assoc, ← content', left, content]
          · intro n hn hret small
            have sum := total n hn
            rw [count hret small, remains] at sum
            rw [sum (by omega) (by omega), List.length_append]
            omega
        next =>
          refine ⟨w₁, _, _, rfl, valid, sent, accepted, by rw [left, content], ?_⟩
          intro n hn hret small
          cases hn
          exact count hret small

/-- The spec of `data_socket::write` for buffers of any size. -/
theorem write_spec (m : Mem) (kernel : Nat → SendReply) {b : Buffer} (hv : b.Valid) {fuel : Nat}
    (hf : b.size < fuel) (w : Wire) :
    ∃ w' b' res, write m kernel fuel w b = some (w', b', res) ∧ b'.Valid ∧
      ∃ sent, w'.accepted = w.accepted ++ sent ∧ b.content m = sent ++ b'.content m ∧
        ∀ n, res = .ok n → b.size < 2 ^ 31 → n = sent.length := by
  unfold write
  split
  next => exact ⟨w, b, .ok 0, rfl, hv, [], by simp, by simp, by simp⟩
  next =>
    obtain ⟨w', b', res, eq, valid, sent, accepted, content, total⟩ :=
      writeLoop_spec m kernel hv hf w 0
    refine ⟨w', b', res, eq, valid, sent, accepted, content, ?_⟩
    intro n hn small
    rw [total n hn (Int.le_refl 0) (by omega)]
    omega

/-- `data_socket::write` returns, and whether with a count or an error, the bytes accepted
are a prefix of the content, the buffer holds the rest, and the count is theirs. -/
theorem write_sends_prefix (m : Mem) (kernel : Nat → SendReply) {b : Buffer} (hv : b.Valid)
    (hs : b.size < 2 ^ 31) {fuel : Nat} (hf : b.size < fuel) (w : Wire) :
    ∃ w' b' res, write m kernel fuel w b = some (w', b', res) ∧ b'.Valid ∧
      ∃ sent, w'.accepted = w.accepted ++ sent ∧ b.content m = sent ++ b'.content m ∧
        ∀ n, res = .ok n → n = sent.length := by
  obtain ⟨w', b', res, eq, valid, sent, accepted, content, total⟩ := write_spec m kernel hv hf w
  exact ⟨w', b', res, eq, valid, sent, accepted, content, fun n hn => total n hn hs⟩

/-- Two bytes, an empty fragment and three bytes, in blobs of four. -/
def fiveBytes : Buffer :=
  ⟨[⟨⟨0, 4⟩, 0, 2⟩, ⟨⟨8, 4⟩, 8, 0⟩, ⟨⟨16, 4⟩, 16, 3⟩], 5⟩

theorem fiveBytes_valid : fiveBytes.Valid := by
  refine ⟨rfl, ?_⟩
  simp [fiveBytes, Fragment.Inside, Fragment.tail, ByteBlob.stop]

/-- The kernel accepts three bytes of five and then nothing more. -/
theorem write_sends_prefix_of_five :
    let kernel : Nat → SendReply := fun call => if call = 0 then .accepts 3 else .failed eagain
    ∃ w b, write Mem.addresses kernel 6 ⟨0, []⟩ fiveBytes = some (w, b, .ok 3) ∧ w.calls = 1 ∧
      w.accepted = [0, 1, 16] ∧ b.content Mem.addresses = [17, 18] := by
  intro kernel
  have sends : (write Mem.addresses kernel 6 ⟨0, []⟩ fiveBytes).map (fun r => (r.1, r.2.2)) =
      some (⟨1, [0, 1, 16]⟩, .ok 3) := by decide
  obtain ⟨w, b, res, eq, -, sent, accepted, content, -⟩ :=
    write_sends_prefix Mem.addresses kernel fiveBytes_valid (by decide)
      (show fiveBytes.size < 6 by decide) ⟨0, []⟩
  rw [eq, Option.map_some] at sends
  obtain ⟨wire, answer⟩ : w = ⟨1, [0, 1, 16]⟩ ∧ res = .ok 3 := Prod.mk.inj (Option.some.inj sends)
  subst wire answer
  have first : [0, 1, 16] = sent := accepted
  subst first
  have whole : [0, 1, 16] ++ [17, 18] = [0, 1, 16] ++ b.content Mem.addresses := content
  exact ⟨_, b, eq, rfl, rfl, (List.append_cancel_left whole).symm⟩

end DataSocket

end XiRuntime
