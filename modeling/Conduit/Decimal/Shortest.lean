namespace Conduit.Decimal

/-- A positive number `mantissa * 2 ^ exponent`, with the half gaps to its neighbours in units of a
quarter of the last binary place. -/
structure Binary where
  mantissa : Nat
  exponent : Int
  /-- One if the neighbour below is twice as close as the one above, else two. -/
  gapBelow : Nat

def Binary.ofBits (bits : UInt64) : Binary :=
  let fraction : Nat := bits.toNat % (1 <<< 52)
  let biased : Nat := bits.toNat / (1 <<< 52) % (1 <<< 11)
  if biased = 0 then ⟨fraction, -1074, 2⟩
  else ⟨(1 <<< 52) + fraction, (biased : Int) - 1075, if fraction = 0 ∧ 1 < biased then 1 else 2⟩

/-- A decimal `digits * 10 ^ exponent`. -/
structure Digits where
  digits : Nat
  exponent : Int
deriving DecidableEq, Repr

def scale (base : Nat) (exponent : Int) : Nat :=
  Nat.pow base exponent.toNat

/-- Quarters of the last place of `b`, and units of `10 ^ k`, in one common unit. -/
def Binary.units (b : Binary) (k : Int) : Nat × Nat :=
  (scale 2 b.exponent * scale 10 (-k), 4 * scale 2 (-b.exponent) * scale 10 k)

/-- Whether `d * 10 ^ k` is read as `b`: it lies between the half gaps, ends included if the
mantissa is even. -/
def Binary.reads (b : Binary) (k : Int) (d : Nat) : Bool :=
  let (quarter, unit) := b.units k
  let low := (4 * b.mantissa - b.gapBelow) * quarter
  let high := (4 * b.mantissa + 2) * quarter
  if b.mantissa % 2 = 0 then low ≤ d * unit && d * unit ≤ high
  else low < d * unit && d * unit < high

def Binary.distance (b : Binary) (k : Int) (d : Nat) : Nat :=
  let (quarter, unit) := b.units k
  let value := 4 * b.mantissa * quarter
  (value - d * unit) + (d * unit - value)

/-- Of the two multiples of `10 ^ k` around `b`, the nearer one that is read as `b`; a tie goes to
the even one. -/
def Binary.onGrid? (b : Binary) (k : Int) : Option Nat :=
  let (quarter, unit) := b.units k
  let d := 4 * b.mantissa * quarter / unit
  match b.reads k d, b.reads k (d + 1) with
  | false, false => none
  | true, false => some d
  | false, true => some (d + 1)
  | true, true =>
    let below := b.distance k d
    let above := b.distance k (d + 1)
    if below < above ∨ (below = above ∧ d % 2 = 0) then some d else some (d + 1)

def Binary.reaches (b : Binary) (k : Int) : Bool :=
  let (quarter, unit) := b.units k
  unit ≤ 4 * b.mantissa * quarter

def Binary.magnitude (b : Binary) : Int :=
  match (List.range 633).find? fun (i : Nat) => b.reaches (308 - (i : Int)) with
  | some i => 308 - (i : Int)
  | none => -324

/-- Moves zeros at the end into the exponent, at most `fuel` of them. -/
def Digits.strip : (fuel : Nat) → Digits → Digits
  | 0, d => d
  | fuel + 1, ⟨digits, exponent⟩ =>
    if digits ≠ 0 ∧ digits % 10 = 0 then strip fuel ⟨digits / 10, exponent + 1⟩
    else ⟨digits, exponent⟩

/-- The decimal with the fewest digits that is read as `b`, and of those the nearest. -/
def Binary.shortest (b : Binary) : Digits :=
  let top := b.magnitude
  let grids := (List.range 18).map fun (i : Nat) => top - (i : Int)
  match grids.findSome? fun k => (b.onGrid? k).map fun d => (⟨d, k⟩ : Digits) with
  | some d => d.strip 20
  | none => ⟨0, 0⟩

end Conduit.Decimal
