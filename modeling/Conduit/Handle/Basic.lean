import Conduit.Hexadecimal

namespace Conduit

structure Handle where
  raw : UInt64
deriving DecidableEq, Repr

namespace Handle

def null : Handle := ⟨0⟩

def isNull (h : Handle) : Bool :=
  h.raw == 0

/-- The generation in the high half, the slot number plus one in the low half. -/
def ofSlot (index generation : UInt32) : Handle :=
  ⟨(generation.toUInt64 <<< 32) ||| (index.toUInt64 + 1)⟩

def index? (h : Handle) : Option Nat :=
  match (h.raw &&& 0xffffffff).toNat with
  | 0 => none
  | index + 1 => some index

def generation (h : Handle) : UInt32 :=
  (h.raw >>> 32).toUInt32

def describe (h : Handle) : String :=
  "Handle(" ++ Hexadecimal.wide h.raw.toNat ++ ")"

end Handle

end Conduit
