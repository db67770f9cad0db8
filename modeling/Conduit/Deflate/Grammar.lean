import Conduit.Bits.Parser
import Conduit.Deflate.Flaw
import Conduit.Deflate.Framing
import Conduit.Deflate.Token

namespace Conduit.Deflate

open BitParser

abbrev Parser (α : Type) := BitParser Flaw α

structure Tables where
  literals : Huffman.Table
  distances : Huffman.Table

inductive BlockHead where
  | stored (length : Nat)
  | coded (tables : Tables)

def readFrameHeader : Parser Unit := do
  let method ← bits 8
  let flags ← bits 8
  if method % 16 ≠ 8 then refuse .unknownMethod
  else if 7 < method / 16 then refuse .windowSize
  else if (method * 256 + flags) % 31 ≠ 0 then refuse .headerCheck
  else if flags / 32 % 2 = 1 then refuse .presetDictionary
  else pure ()

def table (lengths : List Nat) : Parser Huffman.Table :=
  ofExcept ((Huffman.Table.ofLengths lengths).mapError .code)

def symbol (t : Huffman.Table) : Parser Nat :=
  mapCause .code t.decode

def headerLengths (sent : List Nat) : List Nat :=
  ((codeLengthOrder.zip sent).foldl (fun a (symbol, length) => a.setIfInBounds symbol length)
    (Array.replicate codeLengthSymbols 0)).toList

/-- One code length and how many times more it is repeated. -/
def readRun (t : Huffman.Table) (earlier : Array Nat) : Parser (Nat × Nat) := do
  match ← symbol t with
  | 16 =>
    match earlier.back? with
    | none => refuse .lengthRepeat
    | some length => return (length, 2 + (← bits 2))
  | 17 => return (0, 2 + (← bits 3))
  | 18 => return (0, 10 + (← bits 7))
  | length => return (length, 0)

def readLengths (t : Huffman.Table) (total : Nat) (lengths : Array Nat) : Parser (Array Nat) :=
  fun r =>
    if lengths.size < total then
      match readRun t lengths r with
      | .value (length, more) rest =>
        if total < lengths.size + (more + 1) then .refused .lengthRepeat rest
        else readLengths t total (lengths ++ Array.replicate (more + 1) length) rest
      | .short rest => .short rest
      | .refused flaw rest => .refused flaw rest
    else .value lengths r
termination_by total - lengths.size
decreasing_by simp only [Array.size_append, Array.size_replicate]; omega

def readTables : Parser Tables := do
  let literalCount := 257 + (← bits 5)
  let distanceCount := 1 + (← bits 5)
  let headerCount := 4 + (← bits 4)
  if literalSymbols < literalCount ∨ distanceSymbols < distanceCount then refuse .tooManySymbols
  else
    let sent ← fields 3 headerCount
    let t ← table (headerLengths sent)
    let lengths ← readLengths t (literalCount + distanceCount) #[]
    if lengths.getD endOfBlock 0 = 0 then refuse .missingEndOfBlock
    else
      let literals ← table (lengths.toList.take literalCount)
      let distances ← table (lengths.toList.drop literalCount)
      return ⟨literals, distances⟩

def fixedTables : Parser Tables := do
  let literals ← table fixedLiteralLengths
  let distances ← table fixedDistanceLengths
  return ⟨literals, distances⟩

def readBlockHead : Parser (Bool × BlockHead) := do
  let last ← bits 1
  let kind ← bits 2
  match kind with
  | 0 =>
    align
    let length ← bits 16
    let complement ← bits 16
    if length + complement ≠ maxStored then refuse .storedLengths
    else return (last = 1, .stored length)
  | 1 => return (last = 1, .coded (← fixedTables))
  | 2 => return (last = 1, .coded (← readTables))
  | _ => refuse .blockType

/-- A token, or `none` at the end of the block. `reach` is how far back a copy may go. -/
def readToken (tables : Tables) (reach : Nat) : Parser (Option Token) := do
  let s ← symbol tables.literals
  if s < endOfBlock then return some (.literal (UInt8.ofNat s))
  else if s = endOfBlock then return none
  else
    match lengthClasses[s - 257]? with
    | none => refuse .literalCode
    | some (least, extraBits) =>
      let length := least + (← bits extraBits)
      match distanceClasses[← symbol tables.distances]? with
      | none => refuse .distanceCode
      | some (least, extraBits) =>
        let distance := least + (← bits extraBits)
        if reach < distance then refuse .tooFarBack
        else return some (.copy length distance)

def readTrailer : Parser Nat := do
  align
  let bytes ← fields 8 4
  return Octets.ofBigEndian (bytes.map UInt8.ofNat)

theorem consumes_table (lengths : List Nat) : Consumes 0 (table lengths) :=
  consumes_ofExcept _

theorem consumes_symbol (t : Huffman.Table) : Consumes 1 (symbol t) :=
  (Huffman.Table.consumes_decode t).mapCause

theorem consumes_readRun (t : Huffman.Table) (earlier : Array Nat) :
    Consumes 0 (readRun t earlier) := by
  refine (consumes_symbol t).andThen fun s => ?_
  split
  · split
    · exact consumes_refuse 0 _
    · exact (consumes_bits 2).andThen fun _ => consumes_pure _
  · exact (consumes_bits 3).andThen fun _ => consumes_pure _
  · exact (consumes_bits 7).andThen fun _ => consumes_pure _
  · exact consumes_pure _

theorem consumes_readLengths (t : Huffman.Table) (total : Nat) (lengths : Array Nat) :
    Consumes 0 (readLengths t total lengths) := by
  intro r a rest h
  fun_induction readLengths t total lengths r with
  | case1 => simp at h
  | case2 lengths r _ _ _ mid hrun _ ih =>
    have := consumes_readRun t lengths r _ mid hrun
    have := ih h
    omega
  | case3 => simp at h
  | case4 => simp at h
  | case5 =>
    simp only [Parsed.value.injEq] at h
    simp [h.2]

theorem consumes_readTables : Consumes 0 readTables := by
  refine (consumes_bits 5).andThen fun _ => (consumes_bits 5).andThen fun _ =>
    (consumes_bits 4).andThen fun _ => ?_
  dsimp only
  split
  · exact consumes_refuse 0 _
  · refine (consumes_fields 3 _).andThen fun _ => (consumes_table _).andThen fun _ =>
      (consumes_readLengths _ _ _).andThen fun _ => ?_
    split
    · exact consumes_refuse 0 _
    · exact (consumes_table _).andThen fun _ => (consumes_table _).andThen fun _ => consumes_pure _

theorem consumes_fixedTables : Consumes 0 fixedTables :=
  (consumes_table _).andThen fun _ => (consumes_table _).andThen fun _ => consumes_pure _

theorem consumes_readFrameHeader : Consumes 1 readFrameHeader := by
  refine ((consumes_bits 8).mono (by omega)).before fun _ => (consumes_bits 8).andThen fun _ => ?_
  repeat' split
  all_goals first | exact consumes_refuse 0 _ | exact consumes_pure ()

theorem consumes_readBlockHead : Consumes 1 readBlockHead := by
  refine (consumes_bits 1).before fun _ => (consumes_bits 2).andThen fun _ => ?_
  split
  · refine consumes_align.andThen fun _ => (consumes_bits 16).andThen fun _ =>
      (consumes_bits 16).andThen fun _ => ?_
    split
    · exact consumes_refuse 0 _
    · exact consumes_pure _
  · exact consumes_fixedTables.andThen fun _ => consumes_pure _
  · exact consumes_readTables.andThen fun _ => consumes_pure _
  · exact consumes_refuse 0 _

theorem consumes_readToken (tables : Tables) (reach : Nat) :
    Consumes 1 (readToken tables reach) := by
  refine (consumes_symbol _).before fun _ => ?_
  repeat' split
  · exact consumes_pure _
  · exact consumes_pure _
  · exact consumes_refuse 0 _
  · refine (consumes_bits _).andThen fun _ => (consumes_symbol _).andThen fun _ => ?_
    split
    · exact consumes_refuse 0 _
    · refine (consumes_bits _).andThen fun _ => ?_
      dsimp only
      split
      · exact consumes_refuse 0 _
      · exact consumes_pure _

end Conduit.Deflate
