import Conduit.Family

namespace Conduit

inductive Kind where
  | cipher
  | digest
  | compressor
deriving DecidableEq, Repr

def Kind.name : Kind → String
  | cipher => "cipher"
  | digest => "digest"
  | compressor => "compressor"

/-- Counts since the hub was made. They are exact; `fits` says whether 64 bits hold each of them. -/
structure Counters where
  ciphersOpened : Nat := 0
  ciphersFreed : Nat := 0
  bytesCiphered : Nat := 0
  digestsOpened : Nat := 0
  digestsFreed : Nat := 0
  bytesHashed : Nat := 0
  digestsEmitted : Nat := 0
  compressorsOpened : Nat := 0
  compressorsFreed : Nat := 0
  compressIn : Nat := 0
  compressOut : Nat := 0
  decompressIn : Nat := 0
  decompressOut : Nat := 0
  faults : Nat := 0
deriving DecidableEq, Repr

namespace Counters

def opened (c : Counters) : Kind → Counters
  | .cipher => { c with ciphersOpened := c.ciphersOpened + 1 }
  | .digest => { c with digestsOpened := c.digestsOpened + 1 }
  | .compressor => { c with compressorsOpened := c.compressorsOpened + 1 }

def freed (c : Counters) : Kind → Counters
  | .cipher => { c with ciphersFreed := c.ciphersFreed + 1 }
  | .digest => { c with digestsFreed := c.digestsFreed + 1 }
  | .compressor => { c with compressorsFreed := c.compressorsFreed + 1 }

def ciphered (c : Counters) (n : Nat) : Counters :=
  { c with bytesCiphered := c.bytesCiphered + n }

def hashed (c : Counters) (n : Nat) : Counters :=
  { c with bytesHashed := c.bytesHashed + n }

def emitted (c : Counters) : Counters :=
  { c with digestsEmitted := c.digestsEmitted + 1 }

def streamed (c : Counters) (mode : Mode) (consumed produced : Nat) : Counters :=
  match mode with
  | .compress =>
    { c with
      compressIn := c.compressIn + consumed
      compressOut := c.compressOut + produced }
  | .decompress =>
    { c with
      decompressIn := c.decompressIn + consumed
      decompressOut := c.decompressOut + produced }

def faulted (c : Counters) : Counters :=
  { c with faults := c.faults + 1 }

def merge (c d : Counters) : Counters where
  ciphersOpened := c.ciphersOpened + d.ciphersOpened
  ciphersFreed := c.ciphersFreed + d.ciphersFreed
  bytesCiphered := c.bytesCiphered + d.bytesCiphered
  digestsOpened := c.digestsOpened + d.digestsOpened
  digestsFreed := c.digestsFreed + d.digestsFreed
  bytesHashed := c.bytesHashed + d.bytesHashed
  digestsEmitted := c.digestsEmitted + d.digestsEmitted
  compressorsOpened := c.compressorsOpened + d.compressorsOpened
  compressorsFreed := c.compressorsFreed + d.compressorsFreed
  compressIn := c.compressIn + d.compressIn
  compressOut := c.compressOut + d.compressOut
  decompressIn := c.decompressIn + d.decompressIn
  decompressOut := c.decompressOut + d.decompressOut
  faults := c.faults + d.faults

def openedOf (c : Counters) : Kind → Nat
  | .cipher => c.ciphersOpened
  | .digest => c.digestsOpened
  | .compressor => c.compressorsOpened

def freedOf (c : Counters) : Kind → Nat
  | .cipher => c.ciphersFreed
  | .digest => c.digestsFreed
  | .compressor => c.compressorsFreed

/-- Sessions opened and not yet freed; none if more were freed than opened. -/
def live (c : Counters) (kind : Kind) : Nat :=
  c.openedOf kind - c.freedOf kind

def entries (c : Counters) : List (String × Nat) :=
  [("cipher_sessions_opened", c.ciphersOpened),
   ("cipher_sessions_freed", c.ciphersFreed),
   ("bytes_ciphered", c.bytesCiphered),
   ("digest_sessions_opened", c.digestsOpened),
   ("digest_sessions_freed", c.digestsFreed),
   ("bytes_hashed", c.bytesHashed),
   ("digests_emitted", c.digestsEmitted),
   ("compressor_sessions_opened", c.compressorsOpened),
   ("compressor_sessions_freed", c.compressorsFreed),
   ("bytes_compress_in", c.compressIn),
   ("bytes_compress_out", c.compressOut),
   ("bytes_decompress_in", c.decompressIn),
   ("bytes_decompress_out", c.decompressOut),
   ("faults", c.faults)]

def fits (c : Counters) : Bool :=
  c.entries.all fun (_, count) => count < UInt64.size

/-- The counters with the given values by name; others are zero. -/
def ofEntries (value : String → Nat) : Counters where
  ciphersOpened := value "cipher_sessions_opened"
  ciphersFreed := value "cipher_sessions_freed"
  bytesCiphered := value "bytes_ciphered"
  digestsOpened := value "digest_sessions_opened"
  digestsFreed := value "digest_sessions_freed"
  bytesHashed := value "bytes_hashed"
  digestsEmitted := value "digests_emitted"
  compressorsOpened := value "compressor_sessions_opened"
  compressorsFreed := value "compressor_sessions_freed"
  compressIn := value "bytes_compress_in"
  compressOut := value "bytes_compress_out"
  decompressIn := value "bytes_decompress_in"
  decompressOut := value "bytes_decompress_out"
  faults := value "faults"

end Counters

end Conduit
