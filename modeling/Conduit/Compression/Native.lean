import Conduit.Backend
import Conduit.Deflate.Compressor
import Conduit.Error

namespace Conduit

export Deflate (Step)

/-- A stream of a native engine, and whether its end has been reported. -/
structure NativeCodec where
  engine : Engine
  mode : Mode
  framed : Bool
  stream : engine.Stream
  finished : Bool

namespace NativeCodec

def engineOf (n : Native) : Mode → Engine
  | .compress => n.deflate
  | .decompress => n.inflate

def start (n : Native) (mode : Mode) (level : Nat) (framed : Bool) : NativeCodec :=
  ⟨engineOf n mode, mode, framed, (engineOf n mode).start level framed, false⟩

def reset (c : NativeCodec) : NativeCodec :=
  let ⟨engine, mode, framed, stream, _⟩ := c
  ⟨engine, mode, framed, engine.reset stream framed, false⟩

def backlog (c : NativeCodec) : Nat :=
  c.engine.backlog c.stream

/-- Empty input asks a compressor for the end of its stream. -/
def flush : Mode → List UInt8 → Flush
  | .compress, [] => .finish
  | .compress, _ :: _ => .none
  | .decompress, _ => .sync

def failureFault : Mode → Failure → Fault
  | .compress, failure => .reported .compress failure.text
  | .decompress, failure =>
    if failure.dictionary then .flaw .presetDictionary else .reported .decompress failure.text

def process (c : NativeCodec) (input : List UInt8) (room : Nat) : Except Fault Step × NativeCodec :=
  if c.finished then (.ok .ended, c)
  else
    let ⟨engine, mode, framed, stream, _⟩ := c
    match engine.run stream input room (flush mode input) with
    | (.error failure, stream) =>
      (.error (failureFault mode failure), ⟨engine, mode, framed, stream, false⟩)
    | (.ok ⟨.stuck, _, _⟩, stream) =>
      (.error (.noProgress mode), ⟨engine, mode, framed, stream, false⟩)
    | (.ok ⟨.more, output, consumed⟩, stream) =>
      (.ok ⟨output, consumed, false⟩, ⟨engine, mode, framed, stream, false⟩)
    | (.ok ⟨.ended, output, consumed⟩, stream) =>
      (.ok ⟨output, consumed, true⟩, ⟨engine, mode, framed, stream, true⟩)

end NativeCodec

end Conduit
