import Mathlib.Algebra.Order.Ring.Nat

namespace Conduit.Adler

def modulus : Nat := 65521

def byteSum (bytes : List UInt8) : Nat :=
  bytes.foldl (fun n b => n + b.toNat) 1

/-- The sum of `byteSum` over all non-empty beginnings of the message. -/
def prefixSum (bytes : List UInt8) : Nat :=
  ((List.range bytes.length).map fun i => byteSum (bytes.take (i + 1))).sum

/-- The checksum of a whole message: both sums modulo the modulus, the second in the high half. -/
def checksum (bytes : List UInt8) : Nat :=
  prefixSum bytes % modulus * 65536 + byteSum bytes % modulus

end Conduit.Adler
