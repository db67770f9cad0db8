import Conduit.Cipher.Field

namespace Conduit.Cipher

abbrev Block : Type := Vector UInt8 16

abbrev Key : Type := Vector UInt8 32

abbrev Word : Type := Vector UInt8 4

def firstByte (b : Block) : UInt8 :=
  b[0]

def substitutionTable : Array UInt8 :=
  #[0x63, 0x7c, 0x77, 0x7b, 0xf2, 0x6b, 0x6f, 0xc5, 0x30, 0x01, 0x67, 0x2b, 0xfe, 0xd7, 0xab, 0x76,
    0xca, 0x82, 0xc9, 0x7d, 0xfa, 0x59, 0x47, 0xf0, 0xad, 0xd4, 0xa2, 0xaf, 0x9c, 0xa4, 0x72, 0xc0,
    0xb7, 0xfd, 0x93, 0x26, 0x36, 0x3f, 0xf7, 0xcc, 0x34, 0xa5, 0xe5, 0xf1, 0x71, 0xd8, 0x31, 0x15,
    0x04, 0xc7, 0x23, 0xc3, 0x18, 0x96, 0x05, 0x9a, 0x07, 0x12, 0x80, 0xe2, 0xeb, 0x27, 0xb2, 0x75,
    0x09, 0x83, 0x2c, 0x1a, 0x1b, 0x6e, 0x5a, 0xa0, 0x52, 0x3b, 0xd6, 0xb3, 0x29, 0xe3, 0x2f, 0x84,
    0x53, 0xd1, 0x00, 0xed, 0x20, 0xfc, 0xb1, 0x5b, 0x6a, 0xcb, 0xbe, 0x39, 0x4a, 0x4c, 0x58, 0xcf,
    0xd0, 0xef, 0xaa, 0xfb, 0x43, 0x4d, 0x33, 0x85, 0x45, 0xf9, 0x02, 0x7f, 0x50, 0x3c, 0x9f, 0xa8,
    0x51, 0xa3, 0x40, 0x8f, 0x92, 0x9d, 0x38, 0xf5, 0xbc, 0xb6, 0xda, 0x21, 0x10, 0xff, 0xf3, 0xd2,
    0xcd, 0x0c, 0x13, 0xec, 0x5f, 0x97, 0x44, 0x17, 0xc4, 0xa7, 0x7e, 0x3d, 0x64, 0x5d, 0x19, 0x73,
    0x60, 0x81, 0x4f, 0xdc, 0x22, 0x2a, 0x90, 0x88, 0x46, 0xee, 0xb8, 0x14, 0xde, 0x5e, 0x0b, 0xdb,
    0xe0, 0x32, 0x3a, 0x0a, 0x49, 0x06, 0x24, 0x5c, 0xc2, 0xd3, 0xac, 0x62, 0x91, 0x95, 0xe4, 0x79,
    0xe7, 0xc8, 0x37, 0x6d, 0x8d, 0xd5, 0x4e, 0xa9, 0x6c, 0x56, 0xf4, 0xea, 0x65, 0x7a, 0xae, 0x08,
    0xba, 0x78, 0x25, 0x2e, 0x1c, 0xa6, 0xb4, 0xc6, 0xe8, 0xdd, 0x74, 0x1f, 0x4b, 0xbd, 0x8b, 0x8a,
    0x70, 0x3e, 0xb5, 0x66, 0x48, 0x03, 0xf6, 0x0e, 0x61, 0x35, 0x57, 0xb9, 0x86, 0xc1, 0x1d, 0x9e,
    0xe1, 0xf8, 0x98, 0x11, 0x69, 0xd9, 0x8e, 0x94, 0x9b, 0x1e, 0x87, 0xe9, 0xce, 0x55, 0x28, 0xdf,
    0x8c, 0xa1, 0x89, 0x0d, 0xbf, 0xe6, 0x42, 0x68, 0x41, 0x99, 0x2d, 0x0f, 0xb0, 0x54, 0xbb, 0x16]

def substitute (a : UInt8) : UInt8 :=
  substitutionTable.getD a.toNat 0

def subBytes (b : Block) : Block :=
  b.map substitute

def shiftRows (b : Block) : Block :=
  Vector.ofFn fun i => b[(i.val + 4 * (i.val % 4)) % 16]

/-- The byte of the same column that stands `k` rows further down, counted round the column. -/
def below (b : Block) (i : Fin 16) (k : Nat) : UInt8 :=
  b[i.val / 4 * 4 + (i.val + k) % 4]

/-- Mixes each column: twice the byte, three times the next, and the other two once, added up. -/
def mixColumns (b : Block) : Block :=
  Vector.ofFn fun i =>
    let all := below b i 0 ^^^ below b i 1 ^^^ below b i 2 ^^^ below b i 3
    below b i 0 ^^^ all ^^^ double (below b i 0 ^^^ below b i 1)

def addKey (b key : Block) : Block :=
  b.zipWith (· ^^^ ·) key

def rotateWord (w : Word) : Word :=
  #v[w[1], w[2], w[3], w[0]]

def roundConstants : Array UInt8 :=
  #[0x00, 0x01, 0x02, 0x04, 0x08, 0x10, 0x20, 0x40]

def roundConstant (n : Nat) : UInt8 :=
  roundConstants.getD n 0

/-- What is added to the word eight places back to give word `i`. -/
def expansionTerm (i : Nat) (last : Word) : Word :=
  if i % 8 = 0 then
    let w := (rotateWord last).map substitute
    #v[w[0] ^^^ roundConstant (i / 8), w[1], w[2], w[3]]
  else if i % 8 = 4 then last.map substitute
  else last

def zeroWord : Word :=
  Vector.replicate 4 0

def extendKey : (n : Nat) → Array Word → Array Word
  | 0, words => words
  | n + 1, words =>
    let term := expansionTerm words.size (words.getD (words.size - 1) zeroWord)
    extendKey n (words.push ((words.getD (words.size - 8) zeroWord).zipWith (· ^^^ ·) term))

def keyWord (key : Key) (i : Fin 8) : Word :=
  Vector.ofFn fun j => key[4 * i.val + j.val]

abbrev Schedule : Type := Vector Block 15

def Schedule.ofKey (key : Key) : Schedule :=
  let words := extendKey 52 (Array.ofFn (keyWord key))
  Vector.ofFn fun round => Vector.ofFn fun i =>
    (words.getD (4 * round.val + i.val / 4) zeroWord)[i.val % 4]

def round (b key : Block) : Block :=
  addKey (mixColumns (shiftRows (subBytes b))) key

def lastRound (b key : Block) : Block :=
  addKey (shiftRows (subBytes b)) key

def Schedule.encrypt (keys : Schedule) (b : Block) : Block :=
  lastRound ((keys.toList.take 14).tail.foldl round (addKey b keys[0])) keys[14]

end Conduit.Cipher
