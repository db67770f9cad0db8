import Conduit.Backend
import Conduit.Digest.Sha256

namespace Conduit

/-- A running hash. A native one is taken as the message that it has been given. -/
inductive HashEngine where
  | portable (h : Sha256)
  | native (sha256 : List UInt8 → Vector UInt8 32) (message : List UInt8)

namespace HashEngine

def start : Backend → HashEngine
  | .portable => portable .start
  | .native n => native n.sha256 []

def update (data : List UInt8) : HashEngine → HashEngine
  | portable h => portable (h.update data)
  | native sha256 message => native sha256 (message ++ data)

def finish : HashEngine → List UInt8
  | portable h => h.finish
  | native sha256 message => (sha256 message).toList

end HashEngine

/-- A running hash that starts over after every digest. -/
structure DigestSession where
  backend : Backend
  engine : HashEngine
  /-- Bytes taken since the last digest. -/
  pending : Nat

namespace DigestSession

def start (backend : Backend) : DigestSession :=
  ⟨backend, .start backend, 0⟩

def update (s : DigestSession) (data : List UInt8) : DigestSession :=
  if data = [] then s
  else
    let ⟨backend, engine, pending⟩ := s
    ⟨backend, engine.update data, pending + data.length⟩

/-- The hash of everything taken since the last digest, and a session that has taken nothing. -/
def digest (s : DigestSession) : List UInt8 × DigestSession :=
  (s.engine.finish, start s.backend)

end DigestSession

end Conduit
