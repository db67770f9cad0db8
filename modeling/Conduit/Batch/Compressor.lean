import Conduit.Batch.Frames
import Conduit.Compression.Line

namespace Conduit

structure BatchCompressor where
  line : Line
  staging : Array UInt8
  capacity : Nat
  /-- Packets since the last flush. -/
  packets : Nat

namespace BatchCompressor

def flushThreshold : Nat := 131072

def start (backend : Backend) (level : Nat) (raw : Bool) (chunkSize chunkFloor : Nat) :
    Except Error BatchCompressor :=
  match Session.start ⟨backend, .compress, level, raw⟩ with
  | .error error => .error error
  | .ok session =>
    match Sink.start chunkSize chunkFloor with
    | .error error => .error error
    | .ok sink => .ok ⟨⟨session, sink⟩, #[], chunkSize, 0⟩

def shouldFlush (c : BatchCompressor) : Bool :=
  flushThreshold < c.line.sink.out.size

def unstage (c : BatchCompressor) : Except Error Unit × BatchCompressor :=
  let ⟨line, staging, capacity, packets⟩ := c
  let (result, line) := line.feed staging.toList
  (result, ⟨line, #[], capacity, packets⟩)

def feed (c : BatchCompressor) (bytes : List UInt8) : Except Error Unit × BatchCompressor :=
  let ⟨line, staging, capacity, packets⟩ := c
  let (result, line) := line.feed bytes
  (result, ⟨line, staging, capacity, packets⟩)

def pushDirect (c : BatchCompressor) (packet : List UInt8) : Except Error Unit × BatchCompressor :=
  match c.unstage with
  | (.error error, c) => (.error error, c)
  | (.ok _, c) =>
    match c.feed (Varint.write packet.length) with
    | (.error error, c) => (.error error, c)
    | (.ok _, c) => c.feed packet

def stage (c : BatchCompressor) (packet : List UInt8) : BatchCompressor :=
  let ⟨line, staging, capacity, packets⟩ := c
  ⟨line, staging ++ Frames.frame packet, capacity, packets⟩

def count (c : BatchCompressor) : BatchCompressor :=
  { c with packets := c.packets + 1 }

/-- Adds a packet. Empty packets are skipped. -/
def push (c : BatchCompressor) (packet : List UInt8) : Except PacketError Unit × BatchCompressor :=
  if packet.isEmpty then (.ok (), c)
  else if UInt32.size ≤ packet.length then (.error (.malformed (.tooLarge packet.length)), c)
  else if c.capacity - c.staging.size ≤ packet.length + Varint.maxLength then
    match c.pushDirect packet with
    | (.error error, c) => (.error (.session error), c)
    | (.ok _, c) => (.ok (), c.count)
  else (.ok (), (c.stage packet).count)

def restart (c : BatchCompressor) : Except Error (List UInt8) × BatchCompressor :=
  let ⟨⟨session, sink⟩, staging, capacity, packets⟩ := c
  match session.reset with
  | (.error error, session) => (.error error, ⟨⟨session, sink⟩, staging, capacity, packets⟩)
  | (.ok _, session) =>
    let (batch, sink) := sink.take
    (.ok batch, ⟨⟨session, sink⟩, staging, capacity, 0⟩)

def closeStream (c : BatchCompressor) : Except Error Unit × BatchCompressor :=
  let ⟨line, staging, capacity, packets⟩ := c
  let (result, line) := line.close
  (result, ⟨line, staging, capacity, packets⟩)

/-- Finishes the stream; nothing comes of it if no packet was added. -/
def flush (c : BatchCompressor) : Except PacketError (Option (List UInt8)) × BatchCompressor :=
  if c.packets = 0 then (.ok none, c)
  else
    match c.unstage with
    | (.error error, c) => (.error (.session error), c)
    | (.ok _, c) =>
      match c.closeStream with
      | (.error error, c) => (.error (.session error), c)
      | (.ok _, c) =>
        match c.restart with
        | (.error error, c) => (.error (.session error), c)
        | (.ok batch, c) => (.ok (some batch), c)

end BatchCompressor

end Conduit
