import Conduit.Deflate.Header
import Conduit.Deflate.Token
import Conduit.Octets

namespace Conduit.Deflate

/-- How often each symbol occurs in a block, and the extra bits of all its tokens. -/
structure Tally where
  literals : Array Nat
  distances : Array Nat
  extraBits : Nat

namespace Tally

def empty : Tally :=
  ⟨(Array.replicate literalSymbols 0).setIfInBounds endOfBlock 1,
    Array.replicate distanceSymbols 0, 0⟩

def add (t : Tally) (token : Token) : Tally :=
  let ⟨literals, distances, extraBits⟩ := t
  match token with
  | .literal byte => ⟨literals.modify byte.toNat (· + 1), distances, extraBits⟩
  | .copy length distance =>
    let l := lengthSlot length
    let d := distanceSlot distance
    ⟨literals.modify (257 + l.index) (· + 1), distances.modify d.index (· + 1),
      extraBits + (l.extraBits + d.extraBits)⟩

def ofTokens (tokens : List Token) : Tally :=
  tokens.foldl add empty

end Tally

/-- The bits that symbols of the given frequencies take in a code of the given lengths. -/
def weighted (freqs lengths : List Nat) : Nat :=
  Huffman.total (freqs.zipWith (· * ·) lengths)

def fixedCost (t : Tally) : Nat :=
  3 + weighted t.literals.toList fixedLiteralLengths +
    weighted t.distances.toList fixedDistanceLengths + t.extraBits

def dynamicCost (h : Header) (t : Tally) : Nat :=
  h.cost + weighted t.literals.toList h.literalLengths +
    weighted t.distances.toList h.distanceLengths + t.extraBits

def storedCost (n : Nat) : Nat :=
  max ((n + maxStored - 1) / maxStored) 1 * (3 + 7 + 32) + 8 * n

inductive BlockKind where
  | stored
  | fixed
  | dynamic
deriving DecidableEq, Repr

/-- The cheapest kind; of two equally cheap ones the simpler, but a block is stored only if that is
strictly cheaper. -/
def cheapest (stored fixed dynamic : Nat) : BlockKind :=
  if stored < min dynamic fixed then .stored
  else if fixed ≤ dynamic then .fixed
  else .dynamic

def finalBit (last : Bool) : Nat :=
  if last then 1 else 0

def writePiece (w : BitWriter) (data : List UInt8) (last : Bool) : BitWriter :=
  let w := ((w.put (finalBit last) 1).put 0 2).align
  let length := Octets.littleEndian 2 data.length
  let complement := Octets.littleEndian 2 (maxStored - data.length)
  ((w.putBytes length).putBytes complement).putBytes data

/-- Stored blocks for all of the data, at least one; only the last of them may be final. -/
def writeStored (w : BitWriter) (data : List UInt8) (last : Bool) : BitWriter :=
  let piece := data.take maxStored
  match _h : data.drop maxStored with
  | [] => writePiece w piece last
  | byte :: rest => writeStored (writePiece w piece false) (byte :: rest) last
termination_by data.length
decreasing_by
  have := congrArg List.length _h
  simp only [List.length_drop, List.length_cons, maxStored] at this ⊢
  omega

def putSymbol (book : Huffman.CodeBook) (w : BitWriter) (symbol : Nat) : BitWriter :=
  let (code, length) := book.code symbol
  w.put code length

def writeToken (literals distances : Huffman.CodeBook) (w : BitWriter) : Token → BitWriter
  | .literal byte => putSymbol literals w byte.toNat
  | .copy length distance =>
    let l := lengthSlot length
    let d := distanceSlot distance
    let w := (putSymbol literals w (257 + l.index)).put l.offset l.extraBits
    (putSymbol distances w d.index).put d.offset d.extraBits

def writeTokens (literals distances : Huffman.CodeBook) (w : BitWriter) (tokens : List Token) :
    BitWriter :=
  putSymbol literals (tokens.foldl (writeToken literals distances) w) endOfBlock

def fixedLiteralBook : Huffman.CodeBook :=
  .ofLengths fixedLiteralLengths

def fixedDistanceBook : Huffman.CodeBook :=
  .ofLengths fixedDistanceLengths

/-- Writes the tokens of a block whose plain text is `data` as a block of the given kind. The header
matters only to a block with its own codes. -/
def writeAs (header : Header) (w : BitWriter) (tokens : List Token) (data : List UInt8)
    (last : Bool) : BlockKind → BitWriter
  | .stored => writeStored w data last
  | .fixed =>
    writeTokens fixedLiteralBook fixedDistanceBook ((w.put (finalBit last) 1).put 1 2) tokens
  | .dynamic =>
    writeTokens (.ofLengths header.literalLengths) (.ofLengths header.distanceLengths)
      (header.write ((w.put (finalBit last) 1).put 2 2)) tokens

def writeBlock (w : BitWriter) (tokens : List Token) (data : List UInt8) (last : Bool) :
    BitWriter :=
  let tally := Tally.ofTokens tokens
  let header := Header.ofFrequencies tally.literals.toList tally.distances.toList
  writeAs header w tokens data last
    (cheapest (storedCost data.length) (fixedCost tally) (dynamicCost header tally))

end Conduit.Deflate
