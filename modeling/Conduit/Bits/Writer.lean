namespace Conduit

/-- Completed bytes, of which the first `taken` have been handed out, and the low bits of the byte
that is being filled. -/
structure BitWriter where
  bytes : Array UInt8 := #[]
  taken : Nat := 0
  partialBits : Nat := 0
  fill : Nat := 0

namespace BitWriter

def empty : BitWriter := {}

def waiting (w : BitWriter) : List UInt8 :=
  w.bytes.toList.drop w.taken

def waitingCount (w : BitWriter) : Nat :=
  w.bytes.size - w.taken

def spill (bytes : Array UInt8) (taken bits fill : Nat) : BitWriter :=
  if 8 ≤ fill then
    spill (bytes.push (UInt8.ofNat bits)) taken (bits >>> 8) (fill - 8)
  else
    ⟨bytes, taken, bits, fill⟩
termination_by fill

def put (w : BitWriter) (value n : Nat) : BitWriter :=
  let ⟨bytes, taken, bits, fill⟩ := w
  spill bytes taken (bits + (value % (1 <<< n)) <<< fill) (fill + n)

def align (w : BitWriter) : BitWriter :=
  let ⟨bytes, taken, bits, fill⟩ := w
  if fill = 0 then ⟨bytes, taken, bits, fill⟩
  else ⟨bytes.push (UInt8.ofNat bits), taken, 0, 0⟩

/-- Appends whole bytes; meant for an aligned writer. -/
def putBytes (w : BitWriter) (data : List UInt8) : BitWriter :=
  let ⟨bytes, taken, bits, fill⟩ := w
  ⟨bytes ++ data, taken, bits, fill⟩

def release (w : BitWriter) : BitWriter :=
  let ⟨bytes, taken, bits, fill⟩ := w
  if bytes.size ≤ taken then ⟨#[], 0, bits, fill⟩ else ⟨bytes, taken, bits, fill⟩

def drain (w : BitWriter) (room : Nat) : List UInt8 × BitWriter :=
  let ⟨bytes, taken, bits, fill⟩ := w
  let upto := min (taken + room) bytes.size
  let out := (bytes.extract taken upto).toList
  (out, release ⟨bytes, max taken upto, bits, fill⟩)

end BitWriter

end Conduit
