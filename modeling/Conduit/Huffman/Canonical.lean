import Conduit.Bits.Packing
import Conduit.Huffman.Codes

namespace Conduit.Huffman

def comesBefore (length symbol otherLength other : Nat) : Bool :=
  0 < length && (length < otherLength || (length == otherLength && symbol < other))

def codeNumber (lengths : List Nat) (symbol : Nat) : Nat :=
  let own := lengths.getD symbol 0
  let earlier := lengths.zipIdx.filter fun (length, s) => comesBefore length s own symbol
  (earlier.map fun (length, _) => 2 ^ (own - length)).sum

/-- The code of a symbol, its highest bit first. -/
def codeBits (lengths : List Nat) (symbol : Nat) : List Bool :=
  (Bits.ofNat (lengths.getD symbol 0) (codeNumber lengths symbol)).reverse

/-- The code space that all codes take together, in units of the longest code. -/
def claimed (lengths : List Nat) : Nat :=
  ((lengths.filter (0 < ·)).map fun length => 2 ^ (maxLength - length)).sum

/-- Whether there is a code of these lengths. -/
def Feasible (lengths : List Nat) : Prop :=
  (∀ length ∈ lengths, length ≤ maxLength) ∧ claimed lengths ≤ 2 ^ maxLength

end Conduit.Huffman
