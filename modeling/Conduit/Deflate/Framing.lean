import Conduit.Checksum.Adler
import Conduit.Octets

namespace Conduit.Deflate

def methodByte : Nat := 0x78

def effortClass : Nat → Nat
  | 0 | 1 => 0
  | 2 | 3 | 4 | 5 => 1
  | 6 => 2
  | _ => 3

/-- The effort class with the low bits chosen so that the header is a multiple of 31. -/
def flagByte (level : Nat) : Nat :=
  let flags := effortClass level * 64
  flags + (31 - (methodByte * 256 + flags) % 31) % 31

def frameHeader (level : Nat) : List UInt8 :=
  [UInt8.ofNat methodByte, UInt8.ofNat (flagByte level)]

def frameTrailer (sum : Adler) : List UInt8 :=
  Octets.bigEndian 4 sum.value.toNat

end Conduit.Deflate
