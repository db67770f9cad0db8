import Conduit.Deflate.Block
import Conduit.Deflate.Framing
import Conduit.Deflate.Matcher

namespace Conduit.Deflate

structure Step where
  output : List UInt8
  consumed : Nat
  finished : Bool
deriving DecidableEq, Repr

def Step.produced (s : Step) : Nat :=
  s.output.length

def Step.ended : Step :=
  ⟨[], 0, true⟩

inductive Phase where
  | gathering
  /-- The end was asked for; written bytes may still wait. -/
  | draining
  | ended
deriving DecidableEq, Repr

inductive CompressFault where
  /-- Input came after the end of the stream was asked for. -/
  | inputAfterEnd
  | outOfRange
deriving DecidableEq, Repr

structure Compressor where
  level : Nat
  framed : Bool
  window : Window
  chains : Chains
  writer : BitWriter
  sum : Adler
  phase : Phase

namespace Compressor

def start (level : Nat) (framed : Bool) : Compressor where
  level
  framed
  window := {}
  chains := .empty
  writer := if framed then BitWriter.empty.putBytes (frameHeader level) else .empty
  sum := .start
  phase := .gathering

def reset (c : Compressor) : Compressor :=
  start c.level c.framed

def backlog (c : Compressor) : Nat :=
  c.writer.waitingCount

def writeNext (level : Nat) (window : Window) (chains : Chains) (writer : BitWriter) (n : Nat)
    (last : Bool) : Option (Window × Chains × BitWriter) :=
  let ⟨bytes, base, cursor⟩ := window
  let data := (bytes.extract cursor (cursor + n)).toList
  let window := (⟨bytes, base, cursor + n⟩ : Window).trim
  if level = 0 then
    some (window, chains, writeStored writer data last)
  else
    match tokenize (.ofLevel level) bytes base (cursor + n) cursor chains #[] with
    | none => none
    | some (tokens, chains) => some (window, chains, writeBlock writer tokens.toList data last)

/-- Gathers input up to the next block boundary and writes the block that it completes. -/
def gather (c : Compressor) (input : List UInt8) : Except CompressFault Nat × Compressor :=
  let ⟨level, framed, ⟨bytes, base, cursor⟩, chains, writer, sum, phase⟩ := c
  let taken := input.take (blockSize - (bytes.size - cursor))
  let window : Window := ⟨bytes ++ taken, base, cursor⟩
  let sum := sum.update taken
  if window.pending = blockSize then
    match writeNext level window chains writer blockSize false with
    | none => (.error .outOfRange, start level framed)
    | some (window, chains, writer) =>
      (.ok taken.length, ⟨level, framed, window, chains, writer, sum, phase⟩)
  else (.ok taken.length, ⟨level, framed, window, chains, writer, sum, phase⟩)

def close (c : Compressor) : Except CompressFault Unit × Compressor :=
  let ⟨level, framed, window, chains, writer, sum, _⟩ := c
  match writeNext level window chains writer window.pending true with
  | none => (.error .outOfRange, start level framed)
  | some (window, chains, writer) =>
    let writer := writer.align
    let writer := if framed then writer.putBytes (frameTrailer sum) else writer
    (.ok (), ⟨level, framed, window, chains, writer, sum, .draining⟩)

def drain (c : Compressor) (room : Nat) : List UInt8 × Compressor :=
  let ⟨level, framed, window, chains, writer, sum, phase⟩ := c
  let (output, writer) := writer.drain room
  (output, ⟨level, framed, window, chains, writer, sum, phase⟩)

def settle (c : Compressor) (output : List UInt8) : Step × Compressor :=
  if c.backlog = 0 then (⟨output, 0, true⟩, { c with phase := .ended })
  else (⟨output, 0, false⟩, c)

def take (c : Compressor) (output input : List UInt8) (room : Nat) :
    Except CompressFault Step × Compressor :=
  match c.phase with
  | .draining => (.error .inputAfterEnd, c)
  | _ =>
    if 0 < c.backlog then (.ok ⟨output, 0, false⟩, c)
    else
      match c.gather input with
      | (.error fault, c) => (.error fault, c)
      | (.ok consumed, c) =>
        let (more, c) := c.drain (room - output.length)
        (.ok ⟨output ++ more, consumed, false⟩, c)

def finish (c : Compressor) (output : List UInt8) (room : Nat) :
    Except CompressFault Step × Compressor :=
  match c.phase with
  | .gathering =>
    match c.close with
    | (.error fault, c) => (.error fault, c)
    | (.ok _, c) =>
      let (more, c) := c.drain (room - output.length)
      let (step, c) := c.settle (output ++ more)
      (.ok step, c)
  | _ =>
    let (step, c) := c.settle output
    (.ok step, c)

def process (c : Compressor) (input : List UInt8) (room : Nat) :
    Except CompressFault Step × Compressor :=
  match c.phase with
  | .ended => (.ok .ended, c)
  | _ =>
    let (output, c) := c.drain room
    match input with
    | [] => c.finish output room
    | byte :: rest => c.take output (byte :: rest) room

end Compressor

end Conduit.Deflate
