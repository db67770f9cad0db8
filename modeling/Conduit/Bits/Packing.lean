import Conduit.Bits.Reader
import Conduit.Bits.Writer
import Mathlib.Algebra.Order.Ring.Nat

namespace Conduit

namespace Bits

def ofNat : (n : Nat) → Nat → List Bool
  | 0, _ => []
  | n + 1, value => (value % 2 == 1) :: ofNat n (value / 2)

def toNat : List Bool → Nat
  | [] => 0
  | bit :: bits => bit.toNat + 2 * toNat bits

def ofBytes (bytes : List UInt8) : List Bool :=
  bytes.flatMap fun byte => ofNat 8 byte.toNat

def pad (bits : List Bool) : List Bool :=
  bits ++ List.replicate ((8 - bits.length % 8) % 8) false

/-- The bytes of a list of bits; an unfinished byte is filled with zero bits. -/
def pack (bits : List Bool) : List UInt8 :=
  match bits with
  | [] => []
  | bit :: rest => UInt8.ofNat (toNat (bit :: rest.take 7)) :: pack (rest.drop 7)
termination_by bits.length
decreasing_by simp only [List.length_drop, List.length_cons]; omega

@[simp] theorem length_ofNat (n value : Nat) : (ofNat n value).length = n := by
  induction n generalizing value with
  | zero => rfl
  | succ n ih => simp [ofNat, ih]

theorem toNat_ofNat (n value : Nat) : toNat (ofNat n value) = value % 2 ^ n := by
  induction n generalizing value with
  | zero => simp [ofNat, toNat, Nat.mod_one]
  | succ n ih =>
    rw [ofNat, toNat, ih, Nat.pow_succ', Nat.mod_mul]
    obtain h | h := Nat.mod_two_eq_zero_or_one value <;> simp [h]

@[simp] theorem ofBytes_nil : ofBytes [] = [] := rfl

@[simp] theorem ofBytes_append (a b : List UInt8) : ofBytes (a ++ b) = ofBytes a ++ ofBytes b := by
  simp [ofBytes]

@[simp] theorem length_ofBytes (bytes : List UInt8) :
    (ofBytes bytes).length = 8 * bytes.length := by
  induction bytes with
  | nil => rfl
  | cons byte bytes ih =>
    simp only [ofBytes, List.flatMap_cons, List.length_append, length_ofNat,
      List.length_cons] at ih ⊢
    omega

end Bits

def BitReader.unread (r : BitReader) : List Bool :=
  (Bits.ofBytes r.buffer.toList).drop r.position

def BitWriter.written (w : BitWriter) : List Bool :=
  Bits.ofBytes w.waiting ++ Bits.ofNat w.fill w.partialBits

end Conduit
