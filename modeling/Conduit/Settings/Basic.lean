import Conduit.Hub
import Conduit.Batch.Compressor
import Conduit.Batch.Decompressor

namespace Conduit

structure Settings where
  cipherBackend : Family := .standard
  digestBackend : Family := .standard
  compressionBackend : Family := .standard
  compressionLevel : Nat := 7
  /-- Compressed batches without frame header and trailer. -/
  rawDeflate : Bool := true
  chunkSize : Nat := 8192
  chunkFloor : Nat := 512
deriving DecidableEq, Repr

inductive SettingsFlaw where
  | levelTooHigh (level : Nat)
  | emptyChunk
  | floorTooHigh (floor size : Nat)
deriving DecidableEq, Repr

inductive SettingsError where
  /-- The text is not a record of settings. -/
  | malformed
  /-- There is no text. -/
  | unreadable
  | invalid (flaw : SettingsFlaw)
deriving DecidableEq, Repr

def SettingsFlaw.message : SettingsFlaw → String
  | levelTooHigh level => s!"invalid config: compression_level {level} exceeds 9"
  | emptyChunk => "invalid config: chunk_size must be non-zero"
  | floorTooHigh floor size =>
    s!"invalid config: chunk_floor {floor} must be below chunk_size {size}"

namespace Settings

def withBackend (family : Family) : Settings :=
  { cipherBackend := family, digestBackend := family, compressionBackend := family }

/-- The first flaw counts: the level, then an empty chunk, then the floor. -/
def validate (s : Settings) : Except SettingsError Unit :=
  if Session.maxLevel < s.compressionLevel then .error (.invalid (.levelTooHigh s.compressionLevel))
  else if s.chunkSize = 0 then .error (.invalid .emptyChunk)
  else if s.chunkSize ≤ s.chunkFloor then
    .error (.invalid (.floorTooHigh s.chunkFloor s.chunkSize))
  else .ok ()

def backends (s : Settings) (n : Native) : Backends :=
  ⟨.ofFamily n s.cipherBackend, .ofFamily n s.digestBackend, .ofFamily n s.compressionBackend⟩

def hub (s : Settings) (n : Native) : Except SettingsError Hub :=
  match s.validate with
  | .error error => .error error
  | .ok _ => .ok (.start (s.backends n))

def batchCompressor (s : Settings) (n : Native) : Except Error BatchCompressor :=
  BatchCompressor.start (.ofFamily n s.compressionBackend) s.compressionLevel s.rawDeflate
    s.chunkSize s.chunkFloor

def batchDecompressor (s : Settings) (n : Native) : Except Error BatchDecompressor :=
  BatchDecompressor.start (.ofFamily n s.compressionBackend) s.rawDeflate s.chunkSize s.chunkFloor

end Settings

end Conduit
