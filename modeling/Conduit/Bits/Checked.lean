import Conduit.Bits.Reader

namespace Conduit

namespace Machine

/-- The difference of two numbers. At one below zero a machine stops for good, which is `none`. -/
def sub? (a b : Nat) : Option Nat :=
  if b ≤ a then some (a - b) else none

def shiftUp? (word : UInt32) (amount : Nat) : Option UInt32 :=
  if amount < 32 then some (word <<< UInt32.ofNat amount) else none

def lowest (word : UInt32) (n : Nat) : UInt32 :=
  word &&& (1 <<< UInt32.ofNat n - 1)

end Machine

namespace BitReader

def Within (r : BitReader) : Prop :=
  r.position ≤ 8 * r.buffer.size

instance (r : BitReader) : Decidable r.Within :=
  inferInstanceAs (Decidable (_ ≤ _))

def within? (r : BitReader) : Option BitReader :=
  if r.Within then some r else none

def available? (r : BitReader) : Option Nat :=
  Machine.sub? (8 * r.buffer.size) r.position

def untouched? (r : BitReader) : Option Nat :=
  Machine.sub? r.buffer.size ((r.position + 7) / 8)

def push? (r : BitReader) (data : List UInt8) : Option BitReader :=
  (r.push data).within?

/-- Drops the bytes that have been read to their end, which must be there. -/
def compact? (r : BitReader) : Option BitReader :=
  let ⟨buffer, position⟩ := r
  if position / 8 ≤ buffer.size then (compact ⟨buffer, position⟩).within? else none

def align? (r : BitReader) : Option BitReader :=
  r.align.within?

def rewind? (r : BitReader) (position : Nat) : Option BitReader :=
  (r.rewind position).within?

/-- Gives back the last `n` buffered bytes, none of which may have been touched. -/
def unpush? (r : BitReader) (n : Nat) : Option BitReader := do
  let untouched ← r.untouched?
  if n ≤ untouched then (r.unpush n).within? else none

def copy? (r : BitReader) (n : Nat) : Option (List UInt8 × BitReader) :=
  if r.position % 8 = 0 then do
    let left ← Machine.sub? r.buffer.size (r.position / 8)
    let (bytes, r) := r.copyBytes (min n left)
    return (bytes, ← r.within?)
  else none

/-- Gathers a field in a word, piece by piece, a piece lying within one byte. The `got` bits that
are there already make up `word`. -/
def gatherWord? (buffer : Array UInt8) (n position got : Nat) (word : UInt32) :
    Option (UInt32 × Nat) :=
  if got < n then
    match buffer[position / 8]? with
    | none => none
    | some byte =>
      let piece := min (8 - position % 8) (n - got)
      let bits := Machine.lowest (byte.toUInt32 >>> UInt32.ofNat (position % 8)) piece
      match Machine.shiftUp? bits got with
      | none => none
      | some bits => gatherWord? buffer n (position + piece) (got + piece) (word ||| bits)
  else some (word, position)
termination_by n - got

def field? (r : BitReader) (n : Nat) : Option (Option Nat × BitReader) := do
  let available ← r.available?
  if available < n then return (none, r)
  else
    let (word, position) ← gatherWord? r.buffer n r.position 0 0
    return (some word.toNat, ← within? { r with position })

end BitReader

end Conduit
