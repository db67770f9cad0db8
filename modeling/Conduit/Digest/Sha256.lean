import Conduit.Octets

namespace Conduit

namespace Sha256

/-- The eight words carried from block to block. -/
structure Chain where
  a : UInt32
  b : UInt32
  c : UInt32
  d : UInt32
  e : UInt32
  f : UInt32
  g : UInt32
  h : UInt32
deriving DecidableEq, Repr

namespace Chain

def start : Chain :=
  ⟨0x6a09e667, 0xbb67ae85, 0x3c6ef372, 0xa54ff53a, 0x510e527f, 0x9b05688c, 0x1f83d9ab, 0x5be0cd19⟩

def add (x y : Chain) : Chain :=
  ⟨x.a + y.a, x.b + y.b, x.c + y.c, x.d + y.d, x.e + y.e, x.f + y.f, x.g + y.g, x.h + y.h⟩

def words (x : Chain) : List UInt32 :=
  [x.a, x.b, x.c, x.d, x.e, x.f, x.g, x.h]

def bytes (x : Chain) : List UInt8 :=
  x.words.flatMap fun word => Octets.bigEndian 4 word.toNat

end Chain

def roundConstants : List UInt32 :=
  [0x428a2f98, 0x71374491, 0xb5c0fbcf, 0xe9b5dba5, 0x3956c25b, 0x59f111f1, 0x923f82a4, 0xab1c5ed5,
   0xd807aa98, 0x12835b01, 0x243185be, 0x550c7dc3, 0x72be5d74, 0x80deb1fe, 0x9bdc06a7, 0xc19bf174,
   0xe49b69c1, 0xefbe4786, 0x0fc19dc6, 0x240ca1cc, 0x2de92c6f, 0x4a7484aa, 0x5cb0a9dc, 0x76f988da,
   0x983e5152, 0xa831c66d, 0xb00327c8, 0xbf597fc7, 0xc6e00bf3, 0xd5a79147, 0x06ca6351, 0x14292967,
   0x27b70a85, 0x2e1b2138, 0x4d2c6dfc, 0x53380d13, 0x650a7354, 0x766a0abb, 0x81c2c92e, 0x92722c85,
   0xa2bfe8a1, 0xa81a664b, 0xc24b8b70, 0xc76c51a3, 0xd192e819, 0xd6990624, 0xf40e3585, 0x106aa070,
   0x19a4c116, 0x1e376c08, 0x2748774c, 0x34b0bcb5, 0x391c0cb3, 0x4ed8aa4a, 0x5b9cca4f, 0x682e6ff3,
   0x748f82ee, 0x78a5636f, 0x84c87814, 0x8cc70208, 0x90befffa, 0xa4506ceb, 0xbef9a3f7, 0xc67178f2]

def rotateRight (x n : UInt32) : UInt32 :=
  (x >>> n) ||| (x <<< (32 - n))

def smallSigma0 (x : UInt32) : UInt32 :=
  rotateRight x 7 ^^^ rotateRight x 18 ^^^ (x >>> 3)

def smallSigma1 (x : UInt32) : UInt32 :=
  rotateRight x 17 ^^^ rotateRight x 19 ^^^ (x >>> 10)

def bigSigma0 (x : UInt32) : UInt32 :=
  rotateRight x 2 ^^^ rotateRight x 13 ^^^ rotateRight x 22

def bigSigma1 (x : UInt32) : UInt32 :=
  rotateRight x 6 ^^^ rotateRight x 11 ^^^ rotateRight x 25

def choose (x y z : UInt32) : UInt32 :=
  (x &&& y) ^^^ (~~~x &&& z)

def majority (x y z : UInt32) : UInt32 :=
  (x &&& y) ^^^ (x &&& z) ^^^ (y &&& z)

def blockWords : List UInt8 → List UInt32
  | a :: b :: c :: d :: rest => UInt32.ofNat (Octets.ofBigEndian [a, b, c, d]) :: blockWords rest
  | _ => []

def extendSchedule : (n : Nat) → Array UInt32 → Array UInt32
  | 0, w => w
  | n + 1, w =>
    let back (k : Nat) : UInt32 := w.getD (w.size - k) 0
    extendSchedule n (w.push (back 16 + smallSigma0 (back 15) + back 7 + smallSigma1 (back 2)))

def schedule (block : List UInt8) : Array UInt32 :=
  extendSchedule 48 (blockWords block).toArray

def round (x : Chain) (constant word : UInt32) : Chain :=
  let t1 := x.h + bigSigma1 x.e + choose x.e x.f x.g + constant + word
  let t2 := bigSigma0 x.a + majority x.a x.b x.c
  ⟨t1 + t2, x.a, x.b, x.c, x.d + t1, x.e, x.f, x.g⟩

def compress (x : Chain) (block : List UInt8) : Chain :=
  x.add ((roundConstants.zip (schedule block).toList).foldl (fun x (k, w) => round x k w) x)

/-- What follows a message of `n` bytes: a one bit, zeros, and the number of bits, up to a multiple
of 64 bytes. -/
def padding (n : Nat) : List UInt8 :=
  0x80 :: (List.replicate ((119 - n % 64) % 64) 0 ++ Octets.bigEndian 8 (8 * n))

def compressAll (x : Chain) (bytes : List UInt8) : Chain :=
  match bytes with
  | [] => x
  | byte :: rest => compressAll (compress x (byte :: rest.take 63)) (rest.drop 63)
termination_by bytes.length
decreasing_by simp only [List.length_drop, List.length_cons]; omega

def ofMessage (message : List UInt8) : List UInt8 :=
  (compressAll .start (message ++ padding message.length)).bytes

end Sha256

/-- A running hash. Fewer than 64 bytes are pending between calls; the count of all bytes wraps. -/
structure Sha256 where
  chain : Sha256.Chain
  pending : List UInt8
  total : UInt64

namespace Sha256

def start : Sha256 :=
  ⟨.start, [], 0⟩

def takeBlocks (x : Chain) (bytes : List UInt8) : Chain × List UInt8 :=
  let block := bytes.take 64
  if block.length < 64 then (x, bytes)
  else takeBlocks (compress x block) (bytes.drop 64)
termination_by bytes.length
decreasing_by simp only [List.length_take, block] at *; simp only [List.length_drop]; omega

/-- Fills up the pending block first, if one is begun. Then whole blocks are taken from the data as
they stand, and the rest is pending. -/
def update (s : Sha256) (data : List UInt8) : Sha256 :=
  let ⟨chain, pending, total⟩ := s
  let total := total + UInt64.ofNat data.length
  if pending = [] then
    let (chain, rest) := takeBlocks chain data
    ⟨chain, rest, total⟩
  else
    let room := 64 - pending.length
    let block := pending ++ data.take room
    if block.length < 64 then ⟨chain, block, total⟩
    else
      let (chain, rest) := takeBlocks (compress chain block) (data.drop room)
      ⟨chain, rest, total⟩

/-- The pending bytes, a one bit, zeros and the number of bits: one block if there is room for all
that, and two otherwise. -/
def lastBlocks (pending : List UInt8) (bits : UInt64) : List UInt8 :=
  let size := if pending.length + 1 + 8 ≤ 64 then 64 else 128
  pending ++ 0x80 :: (List.replicate (size - 8 - (pending.length + 1)) 0 ++
    Octets.bigEndian 8 bits.toNat)

def finish (s : Sha256) : List UInt8 :=
  (takeBlocks s.chain (lastBlocks s.pending (s.total * 8))).1.bytes

def hash (message : List UInt8) : List UInt8 :=
  (start.update message).finish

end Sha256

end Conduit
