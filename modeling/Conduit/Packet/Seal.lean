import Conduit.Cipher.Session
import Conduit.Packet.Error
import Conduit.Packet.Keys

namespace Conduit

def checksumLength : Nat := 8

/-- A hash that serves for all packets of one end, and the key that goes into each of them. -/
structure Checksummer where
  hasher : DigestSession
  key : List UInt8

/-- The hash of a packet's number, its payload and the key. -/
def Checksummer.compute (c : Checksummer) (counter : UInt64) (payload : List UInt8) :
    List UInt8 × Checksummer :=
  let ⟨hasher, key⟩ := c
  let hasher := hasher.update (Octets.littleEndian 8 counter.toNat)
  let hasher := hasher.update payload
  let hasher := hasher.update key
  let (sum, hasher) := hasher.digest
  (sum, ⟨hasher, key⟩)

structure PacketStream where
  cipher : CipherSession
  checksummer : Checksummer
  counter : UInt64

namespace PacketStream

def start (cipherBackend digestBackend : Backend) (direction : Direction) (keys : SessionKeys) :
    Except Error PacketStream :=
  match CipherSession.start cipherBackend direction keys.key keys.iv with
  | .error error => .error error
  | .ok cipher => .ok ⟨cipher, ⟨.start digestBackend, keys.key⟩, 0⟩

def sealer (backend : Backend) (keys : SessionKeys) : Except Error PacketStream :=
  start backend backend .encrypt keys

def opener (backend : Backend) (keys : SessionKeys) : Except Error PacketStream :=
  start backend backend .decrypt keys

/-- Enciphers a payload and the beginning of its checksum. -/
def sealPacket (s : PacketStream) (payload : List UInt8) : List UInt8 × PacketStream :=
  let ⟨cipher, checksummer, counter⟩ := s
  let (sum, checksummer) := checksummer.compute counter payload
  let (packet, cipher) := cipher.transform (payload ++ sum.take checksumLength)
  (packet, ⟨cipher, checksummer, counter + 1⟩)

/-- Whether two byte strings are equal, looking at every byte of equally long ones. -/
def sameBytes (a b : List UInt8) : Bool :=
  a.length == b.length && (a.zipWith (· ^^^ ·) b).foldl (· ||| ·) 0 == 0

def openPacket (s : PacketStream) (packet : List UInt8) :
    Except PacketError (List UInt8) × PacketStream :=
  let ⟨cipher, checksummer, counter⟩ := s
  let (plain, cipher) := cipher.transform packet
  if plain.length < checksumLength then
    (.error (.truncated plain.length), ⟨cipher, checksummer, counter + 1⟩)
  else
    let payload := plain.take (plain.length - checksumLength)
    let found := plain.drop (plain.length - checksumLength)
    let (sum, checksummer) := checksummer.compute counter payload
    let next := ⟨cipher, checksummer, counter + 1⟩
    if sameBytes (sum.take checksumLength) found then (.ok payload, next)
    else (.error (.checksum counter), next)

end PacketStream

end Conduit
