import Conduit.Batch.Frames
import Conduit.Compression.Line

namespace Conduit

structure BatchDecompressor where
  session : Session
  chunkSize : Nat
  chunkFloor : Nat

namespace BatchDecompressor

def start (backend : Backend) (raw : Bool) (chunkSize chunkFloor : Nat) :
    Except Error BatchDecompressor :=
  match Session.start ⟨backend, .decompress, 0, raw⟩ with
  | .error error => .error error
  | .ok session => .ok ⟨session, chunkSize, chunkFloor⟩

/-- A stall with no input left means that the stream was cut. -/
def expandError (error : Error) (left : List UInt8) : PacketError :=
  if error.status? = some (-5) ∧ left = [] then .malformed .endedEarly else .session error

/-- The session for the next batch: the same one, or a new one if a fault poisoned it. -/
def renew (session : Session) : Except Error Session :=
  if session.poisoned then Session.start session.profile
  else
    match session.reset with
    | (.error error, _) => .error error
    | (.ok _, session) => .ok session

def decodeInto (d : BatchDecompressor) (sink : Sink) (batch : List UInt8) :
    Except PacketError (List (List UInt8)) × BatchDecompressor :=
  let ⟨session, chunkSize, chunkFloor⟩ := d
  let (result, left, line) := Line.expand ⟨session, sink⟩ batch
  match renew line.session with
  | .error error => (.error (.session error), ⟨line.session, chunkSize, chunkFloor⟩)
  | .ok session =>
    match result with
    | .error error => (.error (expandError error left), ⟨session, chunkSize, chunkFloor⟩)
    | .ok _ =>
      let packets := Frames.split line.sink.out.toList
      (packets.mapError .malformed, ⟨session, chunkSize, chunkFloor⟩)

def decode (d : BatchDecompressor) (batch : List UInt8) :
    Except PacketError (List (List UInt8)) × BatchDecompressor :=
  match Sink.start d.chunkSize d.chunkFloor with
  | .error error => (.error (.session error), d)
  | .ok sink => d.decodeInto sink batch

end BatchDecompressor

end Conduit
