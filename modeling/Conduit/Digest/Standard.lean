import Mathlib.Algebra.Order.Ring.Nat

namespace Conduit.Sha256.Standard

abbrev Word : Type := BitVec 32

def number : List UInt8 → Nat
  | [] => 0
  | byte :: bytes => byte.toNat * 256 ^ bytes.length + number bytes

def digits (width n : Nat) : List UInt8 :=
  (List.range width).map fun i => UInt8.ofNat (n / 256 ^ (width - 1 - i))

def smallSigma0 (x : Word) : Word :=
  x.rotateRight 7 ^^^ x.rotateRight 18 ^^^ x >>> 3

def smallSigma1 (x : Word) : Word :=
  x.rotateRight 17 ^^^ x.rotateRight 19 ^^^ x >>> 10

def bigSigma0 (x : Word) : Word :=
  x.rotateRight 2 ^^^ x.rotateRight 13 ^^^ x.rotateRight 22

def bigSigma1 (x : Word) : Word :=
  x.rotateRight 6 ^^^ x.rotateRight 11 ^^^ x.rotateRight 25

def choose (x y z : Word) : Word :=
  (x &&& y) ^^^ (~~~x &&& z)

def majority (x y z : Word) : Word :=
  (x &&& y) ^^^ (x &&& z) ^^^ (y &&& z)

def isPrime (n : Nat) : Bool :=
  1 < n && (List.range n).all fun m => m < 2 || n % m != 0

def primes : List Nat :=
  (List.range 312).filter isPrime

/-- Adds to `r` the powers of two from `2 ^ bits` down, but for those that lead beyond the root. -/
def root (exponent n : Nat) : (bits : Nat) → (r : Nat) → Nat
  | 0, r => r
  | bits + 1, r =>
    if (r + 2 ^ bits) ^ exponent ≤ n then root exponent n bits (r + 2 ^ bits)
    else root exponent n bits r

/-- The first 32 bits of the fractional part of a root. -/
def rootFraction (exponent p : Nat) : Word :=
  BitVec.ofNat 32 (root exponent (p * 2 ^ (32 * exponent)) 36 0)

def constants : List Word :=
  primes.map (rootFraction 3)

/-- The eight working variables, or the eight words of a hash value. -/
structure State where
  a : Word
  b : Word
  c : Word
  d : Word
  e : Word
  f : Word
  g : Word
  h : Word
deriving DecidableEq

namespace State

def start : State :=
  let fraction (i : Nat) : Word := rootFraction 2 (primes.getD i 0)
  ⟨fraction 0, fraction 1, fraction 2, fraction 3, fraction 4, fraction 5, fraction 6, fraction 7⟩

def plus (s t : State) : State :=
  ⟨s.a + t.a, s.b + t.b, s.c + t.c, s.d + t.d, s.e + t.e, s.f + t.f, s.g + t.g, s.h + t.h⟩

def bytes (s : State) : List UInt8 :=
  [s.a, s.b, s.c, s.d, s.e, s.f, s.g, s.h].flatMap fun word => digits 4 word.toNat

/-- One round, with its constant and its word of the message schedule. -/
def next (s : State) (constant word : Word) : State :=
  let t1 := s.h + bigSigma1 s.e + choose s.e s.f s.g + constant + word
  let t2 := bigSigma0 s.a + majority s.a s.b s.c
  { a := t1 + t2, b := s.a, c := s.b, d := s.c, e := s.d + t1, f := s.e, g := s.f, h := s.g }

end State

def word (block : List UInt8) (t : Nat) : Word :=
  if t < 16 then BitVec.ofNat 32 (number ((block.drop (4 * t)).take 4))
  else
    smallSigma1 (word block (t - 2)) + word block (t - 7) + smallSigma0 (word block (t - 15)) +
      word block (t - 16)

def afterRounds (s : State) (block : List UInt8) : (t : Nat) → State
  | 0 => s
  | t + 1 => (afterRounds s block t).next (constants.getD t 0) (word block t)

/-- The fewest zero bytes that leave eight bytes up to the end of a block, behind `n` bytes and the
byte with the one bit. -/
def zeros (n : Nat) : Nat :=
  ((List.range 64).find? fun k => (n + 1 + k) % 64 == 56).getD 0

def padded (message : List UInt8) : List UInt8 :=
  message ++ 0x80 :: (List.replicate (zeros message.length) 0 ++ digits 8 (8 * message.length))

def block (message : List UInt8) (n : Nat) : List UInt8 :=
  ((padded message).drop (64 * n)).take 64

def afterBlocks (message : List UInt8) : (n : Nat) → State
  | 0 => .start
  | n + 1 => (afterBlocks message n).plus (afterRounds (afterBlocks message n) (block message n) 64)

def hash (message : List UInt8) : List UInt8 :=
  (afterBlocks message ((padded message).length / 64)).bytes

end Conduit.Sha256.Standard
