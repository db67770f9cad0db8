import Conduit.Compression.Native
import Conduit.Deflate.Decompressor

namespace Conduit

/-- The parameters of a session. The level matters only when compressing. -/
structure Profile where
  backend : Backend
  mode : Mode
  level : Nat
  raw : Bool

inductive Codec where
  | compressor (c : Deflate.Compressor)
  | decompressor (d : Deflate.Decompressor)
  | native (c : NativeCodec)

namespace Codec

def start (p : Profile) : Codec :=
  match p.backend, p.mode with
  | .portable, .compress => .compressor (.start p.level (!p.raw))
  | .portable, .decompress => .decompressor (.start (!p.raw))
  | .native n, mode => .native (.start n mode p.level (!p.raw))

def reset : Codec → Codec
  | .compressor c => .compressor c.reset
  | .decompressor d => .decompressor d.reset
  | .native c => .native c.reset

/-- Bytes that are still to come out without further input, or a bound on them. -/
def backlog : Codec → Nat
  | .compressor c => c.backlog
  | .decompressor d => d.backlog
  | .native c => c.backlog

def compressError : Deflate.CompressFault → Error
  | .inputAfterEnd => .fault .inputAfterEnd
  | .outOfRange => .outOfRange

def decompressError : Deflate.DecompressFault → Error
  | .flaw (.code .outOfRange) => .outOfRange
  | .flaw flaw => .fault (.flaw flaw)
  | .noProgress => .fault (.noProgress .decompress)

def process (codec : Codec) (input : List UInt8) (room : Nat) : Except Error Step × Codec :=
  match codec with
  | .compressor c =>
    let (result, c) := c.process input room
    (result.mapError compressError, .compressor c)
  | .decompressor d =>
    let (result, d) := d.process input room
    (result.mapError decompressError, .decompressor d)
  | .native c =>
    let (result, c) := c.process input room
    (result.mapError .fault, .native c)

end Codec

structure Session where
  profile : Profile
  codec : Codec
  /-- Whether the latest call reported the end of the stream. -/
  finished : Bool := false
  /-- How much input the latest call took. -/
  consumedLast : Nat := 0
  poisoned : Bool := false

namespace Session

def maxLevel : Nat := 9

/-- The level is checked only for compression. -/
def start (profile : Profile) : Except Error Session :=
  if profile.mode = .compress ∧ maxLevel < profile.level then .error .badLevel
  else .ok ⟨profile, .start profile, false, 0, false⟩

def backlog (s : Session) : Nat :=
  s.codec.backlog

/-- One streaming call. A fault poisons the session. -/
def process (s : Session) (input : List UInt8) (room : Nat) : Except Error Step × Session :=
  let ⟨profile, codec, finished, consumedLast, poisoned⟩ := s
  if poisoned then (.error .poisoned, ⟨profile, codec, finished, consumedLast, poisoned⟩)
  else
    match codec.process input room with
    | (.ok step, codec) => (.ok step, ⟨profile, codec, step.finished, step.consumed, false⟩)
    | (.error error, codec) => (.error error, ⟨profile, codec, finished, 0, true⟩)

def reset (s : Session) : Except Error Unit × Session :=
  if s.poisoned then (.error .poisoned, s)
  else (.ok (), ⟨s.profile, s.codec.reset, false, 0, false⟩)

def truth (b : Bool) : String :=
  if b then "true" else "false"

def describe (s : Session) : String :=
  String.join
    ["CompressionSession \x7b backend: ", s.profile.backend.family.label,
      ", mode: ", s.profile.mode.label, ", level: ", toString s.profile.level,
      ", raw: ", truth s.profile.raw, ", finished: ", truth s.finished,
      ", poisoned: ", truth s.poisoned, " \x7d"]

end Session

end Conduit
