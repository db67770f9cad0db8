namespace Conduit.Cipher

def double (a : UInt8) : UInt8 :=
  (a <<< 1) ^^^ (((a >>> 7) &&& 1) * 0x1b)

/-- The product of `a` with the polynomial of the low `n` bits of `b`. -/
def mulBits : (n : Nat) → UInt8 → UInt8 → UInt8
  | 0, _, _ => 0
  | n + 1, a, b => (if b &&& 1 = 1 then a else 0) ^^^ mulBits n (double a) (b >>> 1)

def mul (a b : UInt8) : UInt8 :=
  mulBits 8 a b

def allBytes : List UInt8 :=
  (List.range 256).map UInt8.ofNat

/-- The multiplicative inverse; zero has none and stays zero. -/
def inverse (a : UInt8) : UInt8 :=
  (allBytes.find? fun b => mul a b == 1).getD 0

def rotateLeft (a n : UInt8) : UInt8 :=
  (a <<< n) ||| (a >>> (8 - n))

def affine (a : UInt8) : UInt8 :=
  a ^^^ rotateLeft a 1 ^^^ rotateLeft a 2 ^^^ rotateLeft a 3 ^^^ rotateLeft a 4 ^^^ 0x63

def substitution (a : UInt8) : UInt8 :=
  affine (inverse a)

end Conduit.Cipher
