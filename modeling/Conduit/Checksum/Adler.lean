namespace Conduit

/-- The two running sums, both below the modulus between updates. -/
structure Adler where
  low : UInt32 := 1
  high : UInt32 := 0
deriving DecidableEq, Repr

namespace Adler

/-- The longest run whose sums fit 32 bits without a reduction. -/
def runLength : Nat := 5552

def start : Adler := {}

def addByte (s : Adler) (byte : UInt8) : Adler :=
  let low := s.low + byte.toUInt32
  ⟨low, s.high + low⟩

def reduce (s : Adler) : Adler :=
  ⟨s.low % 65521, s.high % 65521⟩

def addRun (s : Adler) (run : List UInt8) : Adler :=
  (run.foldl addByte s).reduce

def update (s : Adler) (bytes : List UInt8) : Adler :=
  match bytes with
  | [] => s
  | byte :: rest =>
    update (s.addRun (byte :: rest.take (runLength - 1))) (rest.drop (runLength - 1))
termination_by bytes.length
decreasing_by simp only [List.length_drop, List.length_cons]; omega

def value (s : Adler) : UInt32 :=
  (s.high <<< 16) ||| s.low

end Adler

end Conduit
