import Conduit.Proofs.Cipher.Synchronising
import Conduit.Proofs.Machine.Checked

namespace Conduit

open Cipher (Block Schedule registerAfter streamByte enciphered deciphered)

namespace CipherSession

/-- A piece of a stream, as it is given to a session: with a buffer of its size for the result, in a
buffer that is to be overwritten, or to be copied first. -/
inductive Piece where
  | into (data : List UInt8) (buffer : Array UInt8) (h : data.length = buffer.size)
  | inPlace (buffer : Array UInt8)
  | copied (data : List UInt8)

def Piece.data : Piece → List UInt8
  | into data _ _ => data
  | inPlace buffer => buffer.toList
  | copied data => data

def pass? (s : CipherSession) : Piece → Option (List UInt8 × CipherSession)
  | .into data buffer _ => s.process? data buffer.size
  | .inPlace buffer => some (s.transform buffer.toList)
  | .copied data => some (s.transform data)

def fill? (s : CipherSession) (i : Nat) (buffer : Array UInt8) :
    List UInt8 → Option (Array UInt8 × CipherSession)
  | [] => some (buffer, s)
  | byte :: rest =>
    (Machine.put? buffer i (s.step byte).1).bind fun buffer =>
      fill? (s.step byte).2 (i + 1) buffer rest

variable {s : CipherSession} {buffer : Array UInt8} {i : Nat}

end CipherSession

end Conduit
