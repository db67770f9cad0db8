namespace Conduit

namespace Machine

/-- A word of 64 bits shifted by less than its width, if none of its bits is lost. -/
def shiftWhole? (word : UInt64) (amount : Nat) : Option UInt64 :=
  if amount < 64 ∧ word.toNat <<< amount < UInt64.size then some (word <<< UInt64.ofNat amount)
  else none

def lowestOf (value : UInt32) (n : Nat) : UInt64 :=
  value.toUInt64 &&& (1 <<< UInt64.ofNat n - 1)

end Machine

/-- Completed bytes that wait, and a word with the bits of the byte that is being filled. -/
structure Filling where
  out : List UInt8 := []
  word : UInt64 := 0
  fill : Nat := 0
deriving DecidableEq

namespace Filling

def spill (out : List UInt8) (word : UInt64) (fill : Nat) : Filling :=
  if 8 ≤ fill then spill (out ++ [word.toUInt8]) (word >>> 8) (fill - 8) else ⟨out, word, fill⟩
termination_by fill

def put? (m : Filling) (value : UInt32) (n : Nat) : Option Filling :=
  if 32 < n then none
  else if n = 0 then some m
  else do
    let field ← Machine.shiftWhole? (Machine.lowestOf value n) m.fill
    return spill m.out (m.word ||| field) (m.fill + n)

def align (m : Filling) : Filling :=
  if 0 < m.fill then ⟨m.out ++ [m.word.toUInt8], 0, 0⟩ else m

def putBytes? (m : Filling) (data : List UInt8) : Option Filling :=
  if m.fill = 0 then some { m with out := m.out ++ data } else none

/-- Hands out the first `n` bytes that wait, if there are so many. -/
def discard? (m : Filling) (n : Nat) : Option (List UInt8 × Filling) :=
  if n ≤ m.out.length then some (m.out.take n, { m with out := m.out.drop n }) else none

end Filling

end Conduit
