import Conduit.Hexadecimal

namespace Conduit

inductive Family where
  | portable
  | native
deriving DecidableEq, Repr

inductive Direction where
  | encrypt
  | decrypt
deriving DecidableEq, Repr

inductive Mode where
  | compress
  | decompress
deriving DecidableEq, Repr

namespace Family

def standard : Family := .native

def name : Family → String
  | portable => "portable"
  | native => "native"

def label : Family → String
  | portable => "Portable"
  | native => "Native"

def ofId? : Nat → Option Family
  | 1 => some portable
  | 2 => some native
  | _ => none

def isBlank (c : Char) : Bool :=
  let n := c.toNat
  (9 ≤ n && n ≤ 13) || n == 0x20 || n == 0x85 || n == 0xa0 || n == 0x1680 ||
    (0x2000 ≤ n && n ≤ 0x200a) || n == 0x2028 || n == 0x2029 || n == 0x202f || n == 0x205f ||
    n == 0x3000

def trim (text : List Char) : List Char :=
  ((text.dropWhile isBlank).reverse.dropWhile isBlank).reverse

/-- The text without blanks around it, its ASCII letters in lower case. -/
def normalize (text : String) : String :=
  String.ofList ((trim text.toList).map Char.toLower)

def ofName? (name : String) : Option Family :=
  if name = "portable" ∨ name = "software" then some portable
  else if name = "native" ∨ name = "accelerated" then some native
  else none

end Family

namespace Direction

def name : Direction → String
  | encrypt => "encrypt"
  | decrypt => "decrypt"

def label : Direction → String
  | encrypt => "Encrypt"
  | decrypt => "Decrypt"

def ofId? : Nat → Option Direction
  | 1 => some encrypt
  | 2 => some decrypt
  | _ => none

end Direction

namespace Mode

def name : Mode → String
  | compress => "compress"
  | decompress => "decompress"

def label : Mode → String
  | compress => "Compress"
  | decompress => "Decompress"

def ofId? : Nat → Option Mode
  | 1 => some compress
  | 2 => some decompress
  | _ => none

end Mode

/-- The label of an id, or the id in hexadecimal if it has none. -/
def labelOrId {α : Type} (ofId? : Nat → Option α) (label : α → String) (id : Nat) : String :=
  match ofId? id with
  | some a => label a
  | none => Hexadecimal.plain id

end Conduit
