import Conduit.Digest.Session

namespace Conduit

def saltLength : Nat := 16

def freshSalt {m : Type → Type} (random : Nat → m (List UInt8)) : m (List UInt8) :=
  random saltLength

/-- The key and the initial register of a connection's ciphers. -/
structure SessionKeys where
  key : List UInt8
  iv : List UInt8

namespace SessionKeys

/-- The key is the hash of salt and secret, the initial register its first half. -/
def derive (backend : Backend) (salt secret : List UInt8) : SessionKeys :=
  let (key, _) := (((DigestSession.start backend).update salt).update secret).digest
  ⟨key, key.take 16⟩

def describe (_ : SessionKeys) : String :=
  "SessionKeys \x7b .. \x7d"

end SessionKeys

end Conduit
