namespace Conduit.Octets

/-- The most bytes that a buffer can hold. -/
def maxSize : Nat := 0x7fffffffffffffff

def littleEndian : Nat → Nat → List UInt8
  | 0, _ => []
  | width + 1, n => UInt8.ofNat n :: littleEndian width (n / 256)

def bigEndian (width n : Nat) : List UInt8 :=
  (littleEndian width n).reverse

def ofBigEndian (bytes : List UInt8) : Nat :=
  bytes.foldl (fun n b => 256 * n + b.toNat) 0

end Conduit.Octets
