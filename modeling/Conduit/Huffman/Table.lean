import Conduit.Bits.Parser
import Conduit.Huffman.Codes

namespace Conduit.Huffman

inductive Flaw where
  /-- The lengths claim more than the whole code space. -/
  | overSubscribed
  /-- No code begins with the bits that were read. -/
  | invalidCode
  /-- A length beyond the longest or shared by too many symbols, or a code beyond the table. -/
  | outOfRange
deriving DecidableEq, Repr

structure Table where
  counts : List Nat
  symbols : Array Nat

/-- Whether codes of the given counts fit, `free` of the current length being left over. -/
def fits (free : Nat) : List Nat → Bool
  | [] => true
  | count :: counts => count ≤ 2 * free && fits (2 * free - count) counts

namespace Table

/-- The symbols with a code, ordered by length and then by symbol. -/
def codeOrder (lengths : List Nat) : List Nat :=
  (List.range maxLength).flatMap fun i =>
    lengths.zipIdx.filterMap fun (length, symbol) => if length = i + 1 then some symbol else none

/-- Whether no length exceeds the longest, and the symbols of each length, zero included, can be
counted in 16 bits. -/
def countable (lengths : List Nat) : Bool :=
  lengths.all (· ≤ maxLength) &&
    (List.range (maxLength + 1)).all fun length => countOf length lengths < UInt16.size

def ofLengths (lengths : List Nat) : Except Flaw Table :=
  if !countable lengths then .error .outOfRange
  else if !fits 1 (lengthCounts lengths) then .error .overSubscribed
  else .ok ⟨lengthCounts lengths, (codeOrder lengths).toArray⟩

def symbol? (symbols : Array Nat) (code first index : Nat) : Option Nat :=
  if first ≤ code then symbols[index + (code - first)]? else none

def walk (symbols : Array Nat) : (counts : List Nat) → (code first index : Nat) → BitParser Flaw Nat
  | [], _, _, _, r => .refused .invalidCode r
  | count :: counts, code, first, index, r =>
    match r.bits? 1 with
    | none => .short r
    | some (bit, r) =>
      let code := 2 * code + bit
      let first := 2 * first
      if code < first + count then
        match symbol? symbols code first index with
        | some symbol => .value symbol r
        | none => .refused .outOfRange r
      else walk symbols counts code (first + count) (index + count) r

def decode (t : Table) : BitParser Flaw Nat :=
  walk t.symbols t.counts 0 0 0

theorem consumes_walk (symbols : Array Nat) (counts : List Nat) (code first index : Nat) :
    BitParser.Consumes 1 (walk symbols counts code first index) := by
  induction counts generalizing code first index with
  | nil => intro r a rest h; simp [walk] at h
  | cons count counts ih =>
    intro r a rest h
    unfold walk at h
    have hbit := @BitParser.consumes_bits Flaw 1 r
    unfold BitParser.bits at hbit
    split at h
    · simp at h
    · next bit mid hmid =>
      have hmid := hbit bit mid (by rw [hmid])
      dsimp only at h
      split at h
      · split at h
        · simp only [Parsed.value.injEq] at h
          rw [← h.2]; exact hmid
        · simp at h
      · have := ih _ _ _ mid a rest h
        omega

theorem consumes_decode (t : Table) : BitParser.Consumes 1 t.decode :=
  consumes_walk t.symbols t.counts 0 0 0

end Table

end Conduit.Huffman
