import Conduit.Cipher.Aes

namespace Conduit.Cipher

/-- The last sixteen bytes of the initial register with the ciphertext behind it. -/
def registerAfter (iv : Block) (past : List UInt8) : Block :=
  Vector.ofFn fun i => (iv.toList ++ past).get ⟨past.length + i.val, by simp; omega⟩

/-- The byte that the key stream adds after the given ciphertext. -/
def streamByte (keys : Schedule) (iv : Block) (past : List UInt8) : UInt8 :=
  firstByte (keys.encrypt (registerAfter iv past))

/-- The ciphertext of a message, behind that of what went before. -/
def enciphered (keys : Schedule) (iv : Block) (past : List UInt8) : List UInt8 → List UInt8
  | [] => []
  | byte :: rest =>
    let cipherByte := byte ^^^ streamByte keys iv past
    cipherByte :: enciphered keys iv (past ++ [cipherByte]) rest

end Conduit.Cipher
