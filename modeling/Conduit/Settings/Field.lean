import Conduit.Settings.Basic

namespace Conduit.Settings

inductive Field where
  | cipherBackend
  | digestBackend
  | compressionBackend
  | compressionLevel
  | rawDeflate
  | chunkSize
  | chunkFloor
deriving DecidableEq, Repr

namespace Field

def all : List Field :=
  [cipherBackend, digestBackend, compressionBackend, compressionLevel, rawDeflate, chunkSize,
    chunkFloor]

def name : Field → String
  | cipherBackend => "cipher_backend"
  | digestBackend => "digest_backend"
  | compressionBackend => "compression_backend"
  | compressionLevel => "compression_level"
  | rawDeflate => "raw_deflate"
  | chunkSize => "chunk_size"
  | chunkFloor => "chunk_floor"

def ofName? (name : String) : Option Field :=
  all.find? fun f => f.name == name

def quoted (text : String) : String :=
  "\"" ++ text ++ "\""

def value (s : Settings) : Field → String
  | cipherBackend => quoted s.cipherBackend.name
  | digestBackend => quoted s.digestBackend.name
  | compressionBackend => quoted s.compressionBackend.name
  | compressionLevel => toString s.compressionLevel
  | rawDeflate => Session.truth s.rawDeflate
  | chunkSize => toString s.chunkSize
  | chunkFloor => toString s.chunkFloor

def line (s : Settings) (f : Field) : String :=
  "  " ++ quoted f.name ++ ": " ++ f.value s

end Field

def write (s : Settings) : String :=
  "\x7b\n" ++ String.intercalate ",\n" (Field.all.map (Field.line s)) ++ "\n\x7d"

end Conduit.Settings
