import Conduit.Cipher.Aes
import Conduit.Family

namespace Conduit

inductive Flush where
  | none
  | sync
  | finish
deriving DecidableEq, Repr

inductive Status where
  | more
  | ended
  /-- The call could do nothing. -/
  | stuck
deriving DecidableEq, Repr

structure Progress where
  status : Status
  output : List UInt8
  consumed : Nat
deriving DecidableEq, Repr

structure Failure where
  text : String
  /-- Whether the stream asks for a preset dictionary. -/
  dictionary : Bool := false
deriving DecidableEq, Repr

/-- The streams of a native codec. -/
structure Engine : Type 1 where
  Stream : Type
  start : (level : Nat) → (framed : Bool) → Stream
  run : Stream → (input : List UInt8) → (room : Nat) → Flush →
    Except Failure Progress × Stream
  reset : Stream → (framed : Bool) → Stream
  /-- Bytes that are still to come out without further input, or a bound on them. -/
  backlog : Stream → Nat
  consumed_le : ∀ {s s' : Stream} {input : List UInt8} {room : Nat} {flush : Flush}
    {progress : Progress}, run s input room flush = (.ok progress, s') →
      progress.consumed ≤ input.length
  /-- A call that takes nothing and is not stuck gives out some of these. -/
  backlog_lt : ∀ {s s' : Stream} {input : List UInt8} {room : Nat} {flush : Flush}
    {progress : Progress}, run s input room flush = (.ok progress, s') →
      progress.status = .more → progress.consumed = 0 → backlog s' < backlog s

structure Native : Type 1 where
  /-- The forward cipher under a key. -/
  encipher : Cipher.Key → Cipher.Block → Cipher.Block
  /-- The hash of a message, in however many pieces it came. -/
  sha256 : List UInt8 → Vector UInt8 32
  deflate : Engine
  inflate : Engine

inductive Backend : Type 1 where
  | portable
  | native (n : Native)

namespace Backend

def family : Backend → Family
  | portable => .portable
  | native _ => .native

def ofFamily (n : Native) : Family → Backend
  | .portable => portable
  | .native => native n

end Backend

end Conduit
