import Conduit.Cipher.Session
import Conduit.Compression.Line
import Conduit.Digest.Session
import Conduit.Handle.Table
import Conduit.Telemetry.Snapshot

namespace Conduit

structure Backends where
  cipher : Backend
  digest : Backend
  compression : Backend

def Backends.all (backend : Backend) : Backends :=
  ⟨backend, backend, backend⟩

structure Hub where
  backends : Backends
  ciphers : HandleTable CipherSession
  hashers : HandleTable DigestSession
  compressors : HandleTable Session
  counters : Counters

inductive Session.Use where
  | process (input : List UInt8) (room : Nat)
  | reset
  | compressAll (input : List UInt8) (chunk : Nat)
  | decompressAll (input : List UInt8) (chunk : Nat)

inductive Call where
  | cipherInit (direction : Direction) (key iv : List UInt8)
  /-- `size` is the size of the output buffer. -/
  | cipherProcess (handle : Handle) (data : List UInt8) (size : Nat)
  | cipherProcessInPlace (handle : Handle) (data : List UInt8)
  | cipherFree (handle : Handle)
  | hasherInit
  | hasherUpdate (handle : Handle) (data : List UInt8)
  | hasherDigest (handle : Handle)
  | hasherFree (handle : Handle)
  | compressorInit (mode : Mode) (level : Nat) (raw : Bool)
  | compressorProcess (handle : Handle) (input : List UInt8) (room : Nat)
  | compressorReset (handle : Handle)
  /-- Has the session itself handed over, past the counters. -/
  | compressorUse (handle : Handle) (use : Session.Use)
  | compressorFree (handle : Handle)

inductive Reply where
  | done
  | handle (handle : Handle)
  | bytes (bytes : List UInt8)
  | step (step : Step)

def Session.use (s : Session) : Use → Except Error Reply × Session
  | .process input room =>
    let (result, s) := s.process input room
    (result.map .step, s)
  | .reset =>
    let (result, s) := s.reset
    (result.map fun _ => .done, s)
  | .compressAll input chunk =>
    let (result, s) := s.compressAll input chunk
    (result.map .bytes, s)
  | .decompressAll input chunk =>
    let (result, s) := s.decompressAll input chunk
    (result.map .bytes, s)

namespace Hub

def start (backends : Backends) : Hub :=
  ⟨backends, .empty, .empty, .empty, {}⟩

def standard (n : Native) : Hub :=
  start (.all (.ofFamily n .standard))

def snapshot (h : Hub) : Snapshot :=
  .ofCounters h.counters

def liveHandles (h : Hub) : Nat :=
  h.ciphers.size + h.hashers.size + h.compressors.size

def flatten {α : Type u} : Except Error (Except Error α) → Except Error α
  | .ok result => result
  | .error error => .error error

def cipherInit (h : Hub) (direction : Direction) (key iv : List UInt8) :
    Except Error Handle × Hub :=
  match CipherSession.start h.backends.cipher direction key iv with
  | .error error => (.error error, h)
  | .ok session =>
    let (handle, ciphers) := h.ciphers.insert session
    (.ok handle, { h with ciphers, counters := h.counters.opened .cipher })

/-- The handle is looked up before the sizes are compared. -/
def cipherProcess (h : Hub) (handle : Handle) (data : List UInt8) (size : Nat) :
    Except Error (List UInt8) × Hub :=
  let (result, ciphers) := h.ciphers.update handle fun session =>
    match session.process? data size with
    | some (out, session) => (.ok out, session)
    | none => (.error (.lengthMismatch data.length size), session)
  match flatten result with
  | .ok out => (.ok out, { h with ciphers, counters := h.counters.ciphered data.length })
  | .error error => (.error error, { h with ciphers })

def cipherProcessInPlace (h : Hub) (handle : Handle) (data : List UInt8) :
    Except Error (List UInt8) × Hub :=
  match h.ciphers.update handle fun session => session.transform data with
  | (.ok out, ciphers) => (.ok out, { h with ciphers, counters := h.counters.ciphered data.length })
  | (.error error, ciphers) => (.error error, { h with ciphers })

def hasherInit (h : Hub) : Handle × Hub :=
  let (handle, hashers) := h.hashers.insert (.start h.backends.digest)
  (handle, { h with hashers, counters := h.counters.opened .digest })

def hasherUpdate (h : Hub) (handle : Handle) (data : List UInt8) : Except Error Unit × Hub :=
  match h.hashers.update handle fun session => ((), session.update data) with
  | (.ok _, hashers) => (.ok (), { h with hashers, counters := h.counters.hashed data.length })
  | (.error error, hashers) => (.error error, { h with hashers })

def hasherDigest (h : Hub) (handle : Handle) : Except Error (List UInt8) × Hub :=
  match h.hashers.update handle DigestSession.digest with
  | (.ok out, hashers) => (.ok out, { h with hashers, counters := h.counters.emitted })
  | (.error error, hashers) => (.error error, { h with hashers })

def compressorInit (h : Hub) (mode : Mode) (level : Nat) (raw : Bool) : Except Error Handle × Hub :=
  match Session.start ⟨h.backends.compression, mode, level, raw⟩ with
  | .error error => (.error error, h)
  | .ok session =>
    let (handle, compressors) := h.compressors.insert session
    (.ok handle, { h with compressors, counters := h.counters.opened .compressor })

/-- A call that faults is counted as a fault; other errors are not counted. -/
def countStep (counters : Counters) (mode : Mode) : Except Error Step → Counters
  | .ok step => counters.streamed mode step.consumed step.produced
  | .error (.fault _) => counters.faulted
  | .error _ => counters

def compressorProcess (h : Hub) (handle : Handle) (input : List UInt8) (room : Nat) :
    Except Error Step × Hub :=
  let (result, compressors) := h.compressors.update handle fun session =>
    let mode := session.profile.mode
    let (result, session) := session.process input room
    ((mode, result), session)
  match result with
  | .ok (mode, result) =>
    (result, { h with compressors, counters := countStep h.counters mode result })
  | .error error => (.error error, { h with compressors })

/-- Lets a function work on the session behind a handle; nothing is counted. -/
def onCompressor {α : Type u} (h : Hub) (handle : Handle) (f : Session → Except Error α × Session) :
    Except Error α × Hub :=
  let (result, compressors) := h.compressors.update handle f
  (flatten result, { h with compressors })

def cipherFree (h : Hub) (handle : Handle) : Hub :=
  match h.ciphers.remove handle with
  | (some _, ciphers) => { h with ciphers, counters := h.counters.freed .cipher }
  | (none, ciphers) => { h with ciphers }

def hasherFree (h : Hub) (handle : Handle) : Hub :=
  match h.hashers.remove handle with
  | (some _, hashers) => { h with hashers, counters := h.counters.freed .digest }
  | (none, hashers) => { h with hashers }

def compressorFree (h : Hub) (handle : Handle) : Hub :=
  match h.compressors.remove handle with
  | (some _, compressors) => { h with compressors, counters := h.counters.freed .compressor }
  | (none, compressors) => { h with compressors }

def call (h : Hub) : Call → Except Error Reply × Hub
  | .cipherInit direction key iv =>
    let (result, h) := h.cipherInit direction key iv
    (result.map .handle, h)
  | .cipherProcess handle data size =>
    let (result, h) := h.cipherProcess handle data size
    (result.map .bytes, h)
  | .cipherProcessInPlace handle data =>
    let (result, h) := h.cipherProcessInPlace handle data
    (result.map .bytes, h)
  | .cipherFree handle => (.ok .done, h.cipherFree handle)
  | .hasherInit =>
    let (handle, h) := h.hasherInit
    (.ok (.handle handle), h)
  | .hasherUpdate handle data =>
    let (result, h) := h.hasherUpdate handle data
    (result.map fun _ => .done, h)
  | .hasherDigest handle =>
    let (result, h) := h.hasherDigest handle
    (result.map .bytes, h)
  | .hasherFree handle => (.ok .done, h.hasherFree handle)
  | .compressorInit mode level raw =>
    let (result, h) := h.compressorInit mode level raw
    (result.map .handle, h)
  | .compressorProcess handle input room =>
    let (result, h) := h.compressorProcess handle input room
    (result.map .step, h)
  | .compressorReset handle =>
    let (result, h) := h.onCompressor handle Session.reset
    (result.map fun _ => .done, h)
  | .compressorUse handle use => h.onCompressor handle (·.use use)
  | .compressorFree handle => (.ok .done, h.compressorFree handle)

end Hub

end Conduit
