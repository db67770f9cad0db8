import Conduit.Backend
import Conduit.Error

namespace Conduit

open Cipher (Block Key Schedule firstByte)

inductive BlockCipher where
  | portable (keys : Schedule)
  | native (encipher : Block → Block)

namespace BlockCipher

def start : Backend → Key → BlockCipher
  | .portable, key => portable (.ofKey key)
  | .native n, key => native (n.encipher key)

def encrypt : BlockCipher → Block → Block
  | portable keys, block => keys.encrypt block
  | native encipher, block => encipher block

end BlockCipher

structure CipherSession where
  backend : Backend
  direction : Direction
  cipher : BlockCipher
  feedback : Block

namespace CipherSession

def fixed? (n : Nat) (bytes : List UInt8) : Option (Vector UInt8 n) :=
  if h : bytes.length = n then some ⟨bytes.toArray, h⟩ else none

/-- The key is checked before the initial register. -/
def start (backend : Backend) (direction : Direction) (key iv : List UInt8) :
    Except Error CipherSession :=
  match fixed? 32 key, fixed? 16 iv with
  | none, _ => .error (.keyLength key.length)
  | _, none => .error (.ivLength iv.length)
  | some key, some iv => .ok ⟨backend, direction, .start backend key, iv⟩

def shift (register : Block) (byte : UInt8) : Block :=
  Vector.ofFn fun i => if h : i.val + 1 < 16 then register[i.val + 1] else byte

/-- One byte: it is added to the first byte of the enciphered register, and the ciphertext byte
enters the register. -/
def step (s : CipherSession) (byte : UInt8) : UInt8 × CipherSession :=
  let result := byte ^^^ firstByte (s.cipher.encrypt s.feedback)
  let cipherByte := match s.direction with
    | .encrypt => result
    | .decrypt => byte
  (result, { s with feedback := shift s.feedback cipherByte })

def transform (s : CipherSession) (data : List UInt8) : List UInt8 × CipherSession :=
  let (out, s) := data.foldl (fun (out, s) byte =>
    let (result, s) := step s byte
    (out.push result, s)) ((#[] : Array UInt8), s)
  (out.toList, s)

/-- Transforms into a buffer of the given size, which must be that of the data. -/
def process? (s : CipherSession) (data : List UInt8) (size : Nat) :
    Option (List UInt8 × CipherSession) :=
  if data.length = size then some (s.transform data) else none

def describe (s : CipherSession) : String :=
  String.join
    ["CipherSession \x7b backend: ", s.backend.family.label, ", direction: ", s.direction.label,
      ", .. \x7d"]

end CipherSession

end Conduit
