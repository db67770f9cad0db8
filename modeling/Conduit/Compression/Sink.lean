import Conduit.Error
import Conduit.Octets

namespace Conduit

structure Sink where
  size : Nat
  floor : Nat
  /-- How much of the current piece is filled. -/
  filled : Nat
  /-- Everything collected, the current piece included. -/
  out : Array UInt8

namespace Sink

/-- A sink with pieces of the given size, or of one byte if that is zero. A piece has to fit in a
buffer. -/
def start (size floor : Nat) : Except Error Sink :=
  if Octets.maxSize < size then .error (.bufferSize size)
  else .ok ⟨max size 1, max floor 1, 0, #[]⟩

def whole (size : Nat) : Except Error Sink :=
  start size (max size 1)

def ready (s : Sink) : Sink :=
  let ⟨size, floor, filled, out⟩ := s
  if size - filled < floor then ⟨size, floor, 0, out⟩ else ⟨size, floor, filled, out⟩

def room (s : Sink) : Nat :=
  s.size - s.filled

def write (s : Sink) (bytes : List UInt8) : Sink :=
  let ⟨size, floor, filled, out⟩ := s
  ⟨size, floor, filled + bytes.length, out ++ bytes⟩

def take (s : Sink) : List UInt8 × Sink :=
  (s.out.toList, ⟨s.size, s.floor, 0, #[]⟩)

end Sink

end Conduit
