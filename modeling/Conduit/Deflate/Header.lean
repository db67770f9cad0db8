import Conduit.Bits.Writer
import Conduit.Deflate.Alphabet
import Conduit.Huffman.Codes
import Conduit.Huffman.Lengths

namespace Conduit.Deflate

structure Run where
  symbol : Nat
  extra : Nat
deriving DecidableEq, Repr

def Run.extraBits (symbol : Nat) : Nat :=
  match symbol with
  | 16 => 2
  | 17 => 3
  | 18 => 7
  | _ => 0

/-- A run of `n` zeros: long runs first, then at most one short run, then single zeros. -/
def zeroRuns (n : Nat) : List Run :=
  if 11 ≤ n then
    ⟨18, min n 138 - 11⟩ :: zeroRuns (n - min n 138)
  else if 3 ≤ n then [⟨17, n - 3⟩]
  else List.replicate n ⟨0, 0⟩
termination_by n

def repeatRuns (length n : Nat) : List Run :=
  if 3 ≤ n then ⟨16, min n 6 - 3⟩ :: repeatRuns length (n - min n 6)
  else List.replicate n ⟨length, 0⟩
termination_by n

def leading (length : Nat) (lengths : List Nat) : Nat :=
  (lengths.takeWhile (· == length)).length

def Run.ofLengths (lengths : List Nat) : List Run :=
  match lengths with
  | [] => []
  | length :: rest =>
    let n := leading length rest
    (if length = 0 then zeroRuns (n + 1) else ⟨length, 0⟩ :: repeatRuns length n) ++
      ofLengths (rest.drop n)
termination_by lengths.length
decreasing_by simp only [List.length_drop, List.length_cons]; omega

def significant (lengths : List Nat) : Nat :=
  lengths.length - (lengths.reverse.takeWhile (· == 0)).length

structure Header where
  literalLengths : List Nat
  distanceLengths : List Nat
  literalCount : Nat
  distanceCount : Nat
  runs : List Run
  headerLengths : List Nat
  headerCount : Nat

namespace Header

def ordered (headerLengths : List Nat) : List Nat :=
  codeLengthOrder.map fun symbol => headerLengths.getD symbol 0

def ofFrequencies (literals distances : List Nat) : Header :=
  let literalLengths := Huffman.buildLengths literals Huffman.maxLength
  let distanceLengths := Huffman.buildLengths distances Huffman.maxLength
  let literalCount := max (significant literalLengths) 257
  let distanceCount := max (significant distanceLengths) 1
  let sent := Run.ofLengths (literalLengths.take literalCount) ++
    Run.ofLengths (distanceLengths.take distanceCount)
  let frequencies := (List.range codeLengthSymbols).map fun symbol =>
    sent.countP fun run => run.symbol == symbol
  let headerLengths := Huffman.buildLengths frequencies maxHeaderLength
  { literalLengths, distanceLengths, literalCount, distanceCount, runs := sent, headerLengths,
    headerCount := max (significant (ordered headerLengths)) 4 }

/-- The bits from the start of the block to its first token. -/
def cost (h : Header) : Nat :=
  3 + 5 + 5 + 4 + 3 * h.headerCount +
    Huffman.total
      (h.runs.map fun run => h.headerLengths.getD run.symbol 0 + Run.extraBits run.symbol)

def writeRun (book : Huffman.CodeBook) (w : BitWriter) (run : Run) : BitWriter :=
  let (code, length) := book.code run.symbol
  (w.put code length).put run.extra (Run.extraBits run.symbol)

def write (h : Header) (w : BitWriter) : BitWriter :=
  let w := ((w.put (h.literalCount - 257) 5).put (h.distanceCount - 1) 5).put (h.headerCount - 4) 4
  let w := ((ordered h.headerLengths).take h.headerCount).foldl (fun w length => w.put length 3) w
  h.runs.foldl (writeRun (Huffman.CodeBook.ofLengths h.headerLengths)) w

end Header

end Conduit.Deflate
