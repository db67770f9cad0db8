import Conduit.Cipher.Aes

namespace Conduit.Cipher.Standard

def entry (b : Block) (row column : Fin 4) : UInt8 :=
  b[row.val + 4 * column.val]

theorem row_lt (i : Fin 16) : i.val % 4 < 4 := by
  omega

theorem column_lt (i : Fin 16) : i.val / 4 < 4 := by
  omega

def ofEntries (f : Fin 4 → Fin 4 → UInt8) : Block :=
  Vector.ofFn fun i => f ⟨i.val % 4, row_lt i⟩ ⟨i.val / 4, column_lt i⟩

def subBytes (b : Block) : Block :=
  b.map substitution

def shiftRows (b : Block) : Block :=
  ofEntries fun row column => entry b row (column + row)

/-- The coefficients of 3x³ + x² + x + 2, the lowest first. -/
def mixer : Vector UInt8 4 :=
  #v[2, 1, 1, 3]

/-- Multiplies each column by the mixer modulo x⁴ + 1. -/
def mixColumns (b : Block) : Block :=
  ofEntries fun row column =>
    mul (mixer.get 0) (entry b row column) ^^^ mul (mixer.get 1) (entry b (row - 1) column) ^^^
      mul (mixer.get 2) (entry b (row - 2) column) ^^^ mul (mixer.get 3) (entry b (row - 3) column)

def addRoundKey (b k : Block) : Block :=
  ofEntries fun row column => entry b row column ^^^ entry k row column

def power : Nat → UInt8
  | 0 => 1
  | n + 1 => mul 2 (power n)

def rotWord (w : Word) : Word :=
  Vector.ofFn fun i : Fin 4 => w.get (i + 1)

def subWord (w : Word) : Word :=
  w.map substitution

def addWords (a b : Word) : Word :=
  a.zipWith (· ^^^ ·) b

def keyWord (key : Key) (i : Nat) : Word :=
  if h : i < 8 then Vector.ofFn fun j => key[4 * i + j.val]
  else
    let last := keyWord key (i - 1)
    let term :=
      if i % 8 = 0 then addWords (subWord (rotWord last)) #v[power (i / 8 - 1), 0, 0, 0]
      else if i % 8 = 4 then subWord last
      else last
    addWords (keyWord key (i - 8)) term

def roundKey (key : Key) (n : Nat) : Block :=
  ofEntries fun row column => (keyWord key (4 * n + column.val))[row.val]

/-- The block after `n` rounds with mixed columns. -/
def afterRounds (key : Key) (b : Block) : Nat → Block
  | 0 => addRoundKey b (roundKey key 0)
  | n + 1 =>
    addRoundKey (mixColumns (shiftRows (subBytes (afterRounds key b n)))) (roundKey key (n + 1))

def encrypt (key : Key) (b : Block) : Block :=
  addRoundKey (shiftRows (subBytes (afterRounds key b 13))) (roundKey key 14)

end Conduit.Cipher.Standard
