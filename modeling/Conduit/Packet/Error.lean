import Conduit.Error

namespace Conduit

inductive BatchFlaw where
  | varintCut
  | varintWide
  | overrun (length remaining : Nat)
  | endedEarly
  | tooLarge (length : Nat)
deriving DecidableEq, Repr

def BatchFlaw.message : BatchFlaw → String
  | varintCut => "varint cut short"
  | varintWide => "varint wider than 35 bits"
  | overrun length remaining => s!"packet length {length} overruns {remaining} remaining bytes"
  | endedEarly => "compressed stream ended early"
  | tooLarge length => s!"packet of {length} bytes too large"

inductive PacketError where
  | session (error : Error)
  | checksum (counter : UInt64)
  | truncated (length : Nat)
  | malformed (flaw : BatchFlaw)
deriving DecidableEq, Repr

def PacketError.message : PacketError → String
  | session error => error.message
  | checksum counter => s!"checksum mismatch on packet {counter.toNat}"
  | truncated length => s!"truncated packet: {length} bytes, need at least 8"
  | malformed flaw => "malformed batch: " ++ flaw.message

end Conduit
