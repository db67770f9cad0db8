import Conduit.Decimal.Shortest
import Conduit.Telemetry.Counters

namespace Conduit

structure Snapshot where
  counters : Counters
  liveCiphers : Nat
  liveDigests : Nat
  liveCompressors : Nat
  /-- Compressed output by input; zero before any input. -/
  compressionRatio : Float
  /-- Decompressed output by input; zero before any input. -/
  expansionRatio : Float

namespace Snapshot

def ratio (out input : Nat) : Float :=
  if input = 0 then 0 else out.toFloat / input.toFloat

def ofCounters (c : Counters) : Snapshot where
  counters := c
  liveCiphers := c.live .cipher
  liveDigests := c.live .digest
  liveCompressors := c.live .compressor
  compressionRatio := ratio c.compressOut c.compressIn
  expansionRatio := ratio c.decompressOut c.decompressIn

def liveSessions (s : Snapshot) : Nat :=
  s.liveCiphers + s.liveDigests + s.liveCompressors

def fits (s : Snapshot) : Bool :=
  s.counters.fits && s.liveSessions < UInt64.size

/-- Nothing was freed that was not opened, and no ratio is negative. -/
def isSane (s : Snapshot) : Bool :=
  let c := s.counters
  c.ciphersFreed ≤ c.ciphersOpened && c.digestsFreed ≤ c.digestsOpened &&
    c.compressorsFreed ≤ c.compressorsOpened && (0 : Float) ≤ s.compressionRatio &&
    (0 : Float) ≤ s.expansionRatio

/-- Which decimals are written without an exponent: those whose point lies at most sixteen digits
after the first, or at most four zeros before it. -/
structure Layout where
  mostBefore : Int
  mostZeros : Int

def ratioLayout : Layout :=
  ⟨16, 4⟩

def zeros (n : Int) : List Char :=
  List.replicate n.toNat '0'

def writeExponent (e : Int) : List Char :=
  'e' :: (if e < 0 then '-' else '+') :: (toString e.natAbs).toList

/-- A decimal with at least one digit on either side of the point, or with an exponent. -/
def writeDigits (layout : Layout) (d : Decimal.Digits) : List Char :=
  let digits := (toString d.digits).toList
  let point := digits.length + d.exponent
  if 0 ≤ d.exponent ∧ point ≤ layout.mostBefore then digits ++ zeros d.exponent ++ ['.', '0']
  else if 0 < point ∧ point ≤ layout.mostBefore then
    digits.take point.toNat ++ ['.'] ++ digits.drop point.toNat
  else if -layout.mostZeros ≤ point ∧ point ≤ 0 then ['0', '.'] ++ zeros (-point) ++ digits
  else
    let tail := match digits.tail with
      | [] => []
      | rest => '.' :: rest
    digits.take 1 ++ tail ++ writeExponent (point - 1)

def writeRatio (r : Float) : String :=
  if r == 0 then "0.0"
  else String.ofList (writeDigits ratioLayout (Decimal.Binary.ofBits r.toBits).shortest)

def quoted (name : String) : String :=
  "\"" ++ name ++ "\""

def record (fields : List (String × String)) : String :=
  let entries := fields.map fun (name, value) => quoted name ++ ":" ++ value
  "\x7b" ++ String.intercalate "," entries ++ "\x7d"

def toJson (s : Snapshot) : String :=
  record
    [("counters",
      record (s.counters.entries.map fun (name, value) => (name, toString value))),
     ("live_cipher_sessions", toString s.liveCiphers),
     ("live_digest_sessions", toString s.liveDigests),
     ("live_compressor_sessions", toString s.liveCompressors),
     ("compression_ratio", writeRatio s.compressionRatio),
     ("expansion_ratio", writeRatio s.expansionRatio)]

end Snapshot

end Conduit
