namespace Conduit

/-- Buffered bytes and the number of their bits that have been read. -/
structure BitReader where
  buffer : Array UInt8 := #[]
  position : Nat := 0

namespace BitReader

def empty : BitReader := {}

def available (r : BitReader) : Nat :=
  8 * r.buffer.size - r.position

/-- Buffered bytes none of whose bits has been read. -/
def untouched (r : BitReader) : Nat :=
  r.buffer.size - (r.position + 7) / 8

def push (r : BitReader) (data : List UInt8) : BitReader :=
  let ⟨buffer, position⟩ := r
  ⟨buffer ++ data, position⟩

def compact (r : BitReader) : BitReader :=
  let ⟨buffer, position⟩ := r
  if position < 8 then ⟨buffer, position⟩
  else ⟨buffer.extract (position / 8) buffer.size, position % 8⟩

def rewind (r : BitReader) (position : Nat) : BitReader :=
  { r with position }

def unpush (r : BitReader) (n : Nat) : BitReader :=
  let ⟨buffer, position⟩ := r
  ⟨buffer.take (buffer.size - n), position⟩

def bitAt (buffer : Array UInt8) (i : Nat) (h : i < 8 * buffer.size) : Nat :=
  have : i / 8 < buffer.size := by omega
  buffer[i / 8].toNat >>> (i % 8) % 2

/-- The `n` bits from bit `i` on as a number, the first bit the lowest. -/
def fieldAt (buffer : Array UInt8) (i : Nat) : (n : Nat) → i + n ≤ 8 * buffer.size → Nat
  | 0, _ => 0
  | n + 1, h => bitAt buffer i (by omega) + 2 * fieldAt buffer (i + 1) n (by omega)

def bits? (r : BitReader) (n : Nat) : Option (Nat × BitReader) :=
  if h : r.position + n ≤ 8 * r.buffer.size then
    some (fieldAt r.buffer r.position n h, { r with position := r.position + n })
  else none

def align (r : BitReader) : BitReader :=
  { r with position := (r.position + 7) / 8 * 8 }

/-- The next bytes of an aligned reader, at most `n`. -/
def copyBytes (r : BitReader) (n : Nat) : List UInt8 × BitReader :=
  let start := r.position / 8
  let out := (r.buffer.extract start (start + n)).toList
  (out, { r with position := r.position + 8 * out.length })

end BitReader

end Conduit
