import Conduit.Digest.Session
import Mathlib.Data.Nat.Basic
import Mathlib.Algebra.Order.Ring.Nat

namespace Conduit

namespace Octets

theorem length_littleEndian (width n : Nat) : (littleEndian width n).length = width := by
  induction width generalizing n with
  | zero => rfl
  | succ width ih => exact congrArg (· + 1) (ih _)

theorem length_bigEndian (width n : Nat) : (bigEndian width n).length = width := by
  rw [bigEndian, List.length_reverse, length_littleEndian]

theorem littleEndian_mod (width n : Nat) :
    littleEndian width (n % 256 ^ width) = littleEndian width n := by
  induction width generalizing n with
  | zero => rfl
  | succ width ih =>
    have hbyte : UInt8.ofNat (n % 256 ^ (width + 1)) = UInt8.ofNat n := by
      apply UInt8.toNat_inj.mp
      rw [UInt8.toNat_ofNat', UInt8.toNat_ofNat', Nat.pow_succ', Nat.mod_mul_right_mod]
    rw [littleEndian, littleEndian, hbyte, Nat.pow_succ', Nat.mod_mul_right_div_self, ih]

theorem bigEndian_mod (width n : Nat) : bigEndian width (n % 256 ^ width) = bigEndian width n := by
  rw [bigEndian, bigEndian, littleEndian_mod]

end Octets

namespace Sha256

variable {x : Chain} {bytes block message : List UInt8} {s : Sha256}

theorem takeBlocks_of_lt (h : bytes.length < 64) : takeBlocks x bytes = (x, bytes) := by
  have hblock : (bytes.take 64).length < 64 := by
    rw [List.length_take]
    omega
  rw [takeBlocks, if_pos hblock]

theorem takeBlocks_of_le (h : 64 ≤ bytes.length) :
    takeBlocks x bytes = takeBlocks (compress x (bytes.take 64)) (bytes.drop 64) := by
  have hblock : ¬(bytes.take 64).length < 64 := by
    rw [List.length_take]
    omega
  rw [takeBlocks, if_neg hblock]

theorem takeBlocks_block (x : Chain) (h : block.length = 64) (rest : List UInt8) :
    takeBlocks x (block ++ rest) = takeBlocks (compress x block) rest := by
  rw [takeBlocks_of_le (by rw [List.length_append]; omega), ← h, List.take_left, List.drop_left]

theorem length_takeBlocks (x : Chain) (bytes : List UInt8) :
    (takeBlocks x bytes).2.length = bytes.length % 64 := by
  fun_induction takeBlocks x bytes with
  | case1 x bytes block h =>
    have hlength : block.length = min 64 bytes.length := List.length_take
    rw [Nat.mod_eq_of_lt (by omega)]
  | case2 x bytes block h ih =>
    have hlength : block.length = min 64 bytes.length := List.length_take
    rw [ih, List.length_drop]
    omega

/-- What a part of the bytes leaves over goes in front of the other part. -/
theorem takeBlocks_append (x : Chain) (bytes more : List UInt8) :
    takeBlocks x (bytes ++ more) =
      takeBlocks (takeBlocks x bytes).1 ((takeBlocks x bytes).2 ++ more) := by
  fun_induction takeBlocks x bytes with
  | case1 => rfl
  | case2 x bytes block h ih =>
    have hlength : block.length = min 64 bytes.length := List.length_take
    have hblock : block.length = 64 := by omega
    rw [← ih, ← takeBlocks_block x hblock, ← List.append_assoc, List.take_append_drop]

theorem compressAll_eq_takeBlocks (h : bytes.length % 64 = 0) :
    compressAll x bytes = (takeBlocks x bytes).1 := by
  fun_induction compressAll x bytes with
  | case1 x => rw [takeBlocks_of_lt (by decide)]
  | case2 x byte rest ih =>
    rw [List.length_cons] at h
    have hle : 64 ≤ (byte :: rest).length := by
      rw [List.length_cons]
      omega
    rw [ih (by rw [List.length_drop]; omega), takeBlocks_of_le hle]
    rfl

theorem length_padding (n : Nat) : (n + (padding n).length) % 64 = 0 := by
  rw [padding, List.length_cons, List.length_append, List.length_replicate,
    Octets.length_bigEndian]
  omega

structure Shows (message : List UInt8) (s : Sha256) : Prop where
  takeBlocks_eq : takeBlocks .start message = (s.chain, s.pending)
  total_eq : s.total = UInt64.ofNat message.length

theorem shows_start : start.Shows [] :=
  ⟨takeBlocks_of_lt (by decide), rfl⟩

theorem Shows.length_pending (h : s.Shows message) : s.pending.length = message.length % 64 := by
  rw [← length_takeBlocks .start, h.takeBlocks_eq]

theorem Shows.update (h : s.Shows message) (data : List UInt8) :
    (s.update data).Shows (message ++ data) := by
  have hpending := h.length_pending
  obtain ⟨chain, pending, total⟩ := s
  obtain ⟨htaken, rfl⟩ := h
  have htotal : UInt64.ofNat message.length + UInt64.ofNat data.length =
      UInt64.ofNat (message ++ data).length := by
    rw [List.length_append, UInt64.ofNat_add]
  have htaken' : takeBlocks .start (message ++ data) = takeBlocks chain (pending ++ data) := by
    rw [takeBlocks_append, htaken]
  rw [Sha256.update]
  dsimp only
  split
  next hnil =>
    rw [hnil, List.nil_append] at htaken'
    exact ⟨htaken', htotal⟩
  next =>
    split
    next hshort =>
      have hdata : data.length ≤ 64 - pending.length := by
        rw [List.length_append, List.length_take] at hshort
        omega
      rw [List.take_of_length_le hdata] at hshort ⊢
      rw [takeBlocks_of_lt hshort] at htaken'
      exact ⟨htaken', htotal⟩
    next hfull =>
      have hblock : (pending ++ data.take (64 - pending.length)).length = 64 := by
        rw [List.length_append, List.length_take] at hfull ⊢
        dsimp only at hpending
        omega
      rw [← List.take_append_drop (64 - pending.length) data, ← List.append_assoc pending,
        takeBlocks_block _ hblock, List.take_append_drop] at htaken'
      exact ⟨htaken', htotal⟩

/-- Whether the padding makes one block or two, it is that of the whole message. -/
theorem Shows.lastBlocks_eq (h : s.Shows message) :
    lastBlocks s.pending (s.total * 8) = s.pending ++ padding message.length := by
  have hbits : Octets.bigEndian 8 (s.total * 8).toNat = Octets.bigEndian 8 (8 * message.length) := by
    rw [h.total_eq, ← Octets.bigEndian_mod 8 (8 * message.length), UInt64.toNat_mul,
      UInt64.toNat_ofNat', Nat.mod_mul_mod, Nat.mul_comm]
    rfl
  have hzeros : (if s.pending.length + 1 + 8 ≤ 64 then 64 else 128) - 8 - (s.pending.length + 1) =
      (119 - message.length % 64) % 64 := by
    have hpending := h.length_pending
    split <;> omega
  rw [lastBlocks, padding, hbits, hzeros]

theorem Shows.finish (h : s.Shows message) : s.finish = ofMessage message := by
  have hlength : (message ++ padding message.length).length % 64 = 0 := by
    rw [List.length_append, length_padding]
  rw [Sha256.finish, h.lastBlocks_eq, ofMessage, compressAll_eq_takeBlocks hlength,
    takeBlocks_append .start message, h.takeBlocks_eq]

theorem hash_eq_ofMessage (message : List UInt8) : hash message = ofMessage message :=
  (shows_start.update message).finish

end Sha256

end Conduit
