import Conduit.Deflate.Header
import Conduit.Deflate.Token
import Conduit.Huffman.Canonical

namespace Conduit.Deflate.Format

/-- Classes one behind the other, given their extra bits: each begins with the number after the last
of the class before. -/
def classesFrom (least : Nat) : List Nat → List (Nat × Nat)
  | [] => []
  | extraBits :: classes => (least, extraBits) :: classesFrom (least + 2 ^ extraBits) classes

/-- The lengths of copies; the longest has a class of its own. -/
def lengthClasses : List (Nat × Nat) :=
  classesFrom 3 (List.replicate 8 0 ++ [1, 2, 3, 4, 5].flatMap (List.replicate 4)) ++ [(258, 0)]

def distanceClasses : List (Nat × Nat) :=
  classesFrom 1 (List.replicate 4 0 ++ (List.range' 1 13).flatMap (List.replicate 2))

def fixedLiterals : List Nat :=
  (List.range 288).map fun symbol =>
    if symbol < 144 then 8 else if symbol < 256 then 9 else if symbol < 280 then 7 else 8

def fixedDistances : List Nat :=
  (List.range 30).map fun _ => 5

/-- The order in which a head sends the lengths of its own code. -/
def sendingOrder : List Nat :=
  [16, 17, 18, 0, 8, 7, 9, 6, 10, 5, 11, 4, 12, 3, 13, 2, 14, 1, 15]

def inSendingOrder (lengths : List Nat) : List Nat :=
  sendingOrder.map fun symbol => lengths.getD symbol 0

def runBits (symbol : Nat) : Nat :=
  if symbol = 16 then 2 else if symbol = 17 then 3 else if symbol = 18 then 7 else 0

/-- A number as a class and an offset in it. Some numbers have more than one such form. -/
structure Entry where
  index : Nat
  offset : Nat
deriving DecidableEq, Repr

namespace Entry

/-- The number that an entry stands for, if there is such a class and the offset fits its extra
bits. -/
def value? (classes : List (Nat × Nat)) (e : Entry) : Option Nat :=
  match classes[e.index]? with
  | some (least, extraBits) => if e.offset < 2 ^ extraBits then some (least + e.offset) else none
  | none => none

def extraBits (classes : List (Nat × Nat)) (e : Entry) : List Bool :=
  match classes[e.index]? with
  | some (_, extraBits) => Bits.ofNat extraBits e.offset
  | none => []

end Entry

inductive Item where
  | literal (byte : UInt8)
  | copy (length distance : Entry)
deriving DecidableEq, Repr

namespace Item

def token? : Item → Option Token
  | literal byte => some (.literal byte)
  | copy length distance => do
    return .copy (← length.value? lengthClasses) (← distance.value? distanceClasses)

def literalSymbol : Item → Nat
  | literal byte => byte.toNat
  | copy length _ => 257 + length.index

def distanceSymbol? : Item → Option Nat
  | literal _ => none
  | copy _ distance => some distance.index

def bits (literals distances : List Nat) : Item → List Bool
  | literal byte => Huffman.codeBits literals byte.toNat
  | copy length distance =>
    Huffman.codeBits literals (257 + length.index) ++ length.extraBits lengthClasses ++
      Huffman.codeBits distances distance.index ++ distance.extraBits distanceClasses

/-- Whether all symbols of an item have codes and stand for a token. -/
def Legal (literals distances : List Nat) (i : Item) : Prop :=
  i.token?.isSome ∧ 0 < literals.getD i.literalSymbol 0 ∧
    ∀ symbol ∈ i.distanceSymbol?, 0 < distances.getD symbol 0

end Item

/-- The head of a block with its own codes: both lists of code lengths and how they are sent. -/
structure Head where
  literals : List Nat
  distances : List Nat
  /-- The lengths of the code for code lengths, by symbol. -/
  own : List Nat
  /-- How many of these are sent. -/
  sent : Nat
  runs : List Run

namespace Head

def extend (lengths : List Nat) (run : Run) : Option (List Nat) :=
  match run.symbol with
  | 16 => lengths.getLast?.map fun length => lengths ++ List.replicate (run.extra + 3) length
  | 17 => some (lengths ++ List.replicate (run.extra + 3) 0)
  | 18 => some (lengths ++ List.replicate (run.extra + 11) 0)
  | length => if length < 16 then some (lengths ++ [length]) else none

structure Legal (h : Head) : Prop where
  literals_length : 257 ≤ h.literals.length ∧ h.literals.length ≤ 286
  distances_length : 1 ≤ h.distances.length ∧ h.distances.length ≤ 30
  literals_feasible : Huffman.Feasible h.literals
  distances_feasible : Huffman.Feasible h.distances
  end_coded : 0 < h.literals.getD 256 0
  own_length : h.own.length = 19
  own_lt : ∀ length ∈ h.own, length < 8
  own_feasible : Huffman.Feasible h.own
  sent_range : 4 ≤ h.sent ∧ h.sent ≤ 19
  unsent_zero : ∀ length ∈ (inSendingOrder h.own).drop h.sent, length = 0
  run_coded : ∀ run ∈ h.runs, 0 < h.own.getD run.symbol 0 ∧ run.extra < 2 ^ runBits run.symbol
  runs_expand : h.runs.foldlM extend [] = some (h.literals ++ h.distances)

def bits (h : Head) : List Bool :=
  Bits.ofNat 5 (h.literals.length - 257) ++ Bits.ofNat 5 (h.distances.length - 1) ++
    Bits.ofNat 4 (h.sent - 4) ++ ((inSendingOrder h.own).take h.sent).flatMap (Bits.ofNat 3) ++
    h.runs.flatMap fun run =>
      Huffman.codeBits h.own run.symbol ++ Bits.ofNat (runBits run.symbol) run.extra

end Head

inductive Block where
  | stored (data : List UInt8)
  | fixed (items : List Item)
  | coded (head : Head) (items : List Item)

namespace Block

def body (literals distances : List Nat) (items : List Item) : List Bool :=
  items.flatMap (Item.bits literals distances) ++ Huffman.codeBits literals 256

/-- Appends a block to the bits before it. Stored data begins on a byte boundary. -/
def append (before : List Bool) (last : Bool) : Block → List Bool
  | stored data =>
    Bits.pad (before ++ last :: Bits.ofNat 2 0) ++ Bits.ofNat 16 data.length ++
      Bits.ofNat 16 (65535 - data.length) ++ Bits.ofBytes data
  | fixed items =>
    before ++ last :: (Bits.ofNat 2 1 ++ body fixedLiterals fixedDistances items)
  | coded head items =>
    before ++ last :: (Bits.ofNat 2 2 ++ head.bits ++ body head.literals head.distances items)

/-- The output with that of one more block, unless a copy reaches back too far. -/
def expand (output : List UInt8) : Block → Option (List UInt8)
  | stored data => some (output ++ data)
  | fixed items => (items.mapM Item.token?).bind (expandAll output)
  | coded _ items => (items.mapM Item.token?).bind (expandAll output)

def Legal : Block → Prop
  | stored data => data.length ≤ 65535
  | fixed items => ∀ i ∈ items, i.Legal fixedLiterals fixedDistances
  | coded head items => head.Legal ∧ ∀ i ∈ items, i.Legal head.literals head.distances

end Block

/-- The bits of a stream, whose last block is marked as such. -/
def streamBits (before : List Bool) : List Block → List Bool
  | [] => before
  | [block] => block.append before true
  | block :: blocks => streamBits (block.append before false) blocks

def stream (blocks : List Block) : List UInt8 :=
  Bits.pack (streamBits [] blocks)

def expand (blocks : List Block) : Option (List UInt8) :=
  blocks.foldlM Block.expand []

end Conduit.Deflate.Format
