namespace Conduit.Huffman

def maxLength : Nat := 15

def countOf (length : Nat) (lengths : List Nat) : Nat :=
  lengths.count length

def lengthCounts (lengths : List Nat) : List Nat :=
  (List.range maxLength).map fun i => countOf (i + 1) lengths

def firstCodes (shorter : Nat) : List Nat → List Nat
  | [] => []
  | count :: counts => 2 * shorter :: firstCodes (2 * shorter + count) counts

def reverseBits : (n : Nat) → Nat → Nat
  | 0, _ => 0
  | n + 1, code => (code % 2) <<< n + reverseBits n (code / 2)

/-- Hands out the codes in symbol order; `next` holds the next code of each length. -/
def assignCodes (next : Array Nat) : List Nat → List Nat
  | [] => []
  | 0 :: lengths => 0 :: assignCodes next lengths
  | length :: lengths =>
    reverseBits length (next.getD (length - 1) 0) ::
      assignCodes (next.modify (length - 1) (· + 1)) lengths

/-- The codes of all symbols, each with its first bit lowest; zero for symbols without a code. -/
def reversedCodes (lengths : List Nat) : List Nat :=
  assignCodes (firstCodes 0 (lengthCounts lengths)).toArray lengths

/-- Whether no length runs out of code numbers when these are words of 16 bits. The numbers of the
length before end at `shorter`; the first number of a length is twice that, less its high bits. -/
def numbered (shorter : Nat) : List Nat → Bool
  | [] => true
  | count :: counts =>
    let taken := 2 * shorter % UInt16.size + count
    taken < UInt16.size && numbered taken counts

/-- The codes, unless a length exceeds the longest or has more codes than can be numbered. -/
def reversedCodes? (lengths : List Nat) : Option (List Nat) :=
  if lengths.all (· ≤ maxLength) && numbered 0 (lengthCounts lengths) then
    some (reversedCodes lengths)
  else none

/-- A code to write with: each symbol's code beside its length. -/
structure CodeBook where
  codes : Array (Nat × Nat)

namespace CodeBook

def ofLengths (lengths : List Nat) : CodeBook :=
  ⟨((reversedCodes lengths).zip lengths).toArray⟩

def code (book : CodeBook) (symbol : Nat) : Nat × Nat :=
  book.codes.getD symbol (0, 0)

end CodeBook

end Conduit.Huffman
