import Conduit.Deflate.Alphabet

namespace Conduit.Deflate

inductive Token where
  | literal (byte : UInt8)
  | copy (length distance : Nat)
deriving DecidableEq, Repr

/-- Appends `length` bytes, each the one that lies `distance` back. -/
def copyBack (distance : Nat) : (length : Nat) → List UInt8 → Option (List UInt8)
  | 0, output => some output
  | length + 1, output =>
    if 1 ≤ distance ∧ distance ≤ output.length then
      match output[output.length - distance]? with
      | some byte => copyBack distance length (output ++ [byte])
      | none => none
    else none

/-- The output after one more token, unless the token reaches back too far. -/
def Token.expand (output : List UInt8) : Token → Option (List UInt8)
  | .literal byte => some (output ++ [byte])
  | .copy length distance => copyBack distance length output

def expandAll (output : List UInt8) (tokens : List Token) : Option (List UInt8) :=
  tokens.foldlM Token.expand output

/-- Where a value falls among classes: the last class that starts at or below it, how far above the
start it lies, and the number of extra bits that say so. -/
structure Slot where
  index : Nat
  offset : Nat
  extraBits : Nat
deriving DecidableEq, Repr

def findSlot (value : Nat) : List (Nat × Nat) → (index : Nat) → (found : Slot) → Slot
  | [], _, found => found
  | (start, extraBits) :: classes, index, found =>
    if start ≤ value then findSlot value classes (index + 1) ⟨index, value - start, extraBits⟩
    else found

def lengthSlot (length : Nat) : Slot :=
  findSlot length lengthClasses 0 ⟨0, 0, 0⟩

def distanceSlot (distance : Nat) : Slot :=
  findSlot distance distanceClasses 0 ⟨0, 0, 0⟩

end Conduit.Deflate
