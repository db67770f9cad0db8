import Conduit.Deflate.Token

namespace Conduit.Deflate

structure Effort where
  /-- How many earlier positions are tried. -/
  chain : Nat
  /-- A copy of this length is taken without looking further. -/
  enough : Nat
  /-- Whether a longer copy at the next byte is preferred. -/
  lazy : Bool

def Effort.ofLevel : Nat → Effort
  | 1 => ⟨4, 8, false⟩
  | 2 => ⟨8, 16, false⟩
  | 3 => ⟨16, 32, false⟩
  | 4 => ⟨16, 16, true⟩
  | 5 => ⟨32, 32, true⟩
  | 6 => ⟨128, 128, true⟩
  | 7 => ⟨256, 258, true⟩
  | 8 => ⟨512, 258, true⟩
  | _ => ⟨1024, 258, true⟩

/-- History and pending input. The window starts at offset `base` of the stream, and its bytes
before `cursor` have been written. -/
structure Window where
  bytes : Array UInt8 := #[]
  base : Nat := 0
  cursor : Nat := 0

def Window.pending (w : Window) : Nat :=
  w.bytes.size - w.cursor

def Window.trim (w : Window) : Window :=
  let ⟨bytes, base, cursor⟩ := w
  if windowSize < cursor then
    let excess := cursor - windowSize
    ⟨bytes.extract excess bytes.size, base + excess, windowSize⟩
  else ⟨bytes, base, cursor⟩

def bucketCount : Nat := 32768

/-- Chains of positions with equal hashes, as stream offsets plus one; zero ends a chain. -/
structure Chains where
  head : Array Nat
  previous : Array Nat

def Chains.empty : Chains :=
  ⟨Array.replicate bucketCount 0, Array.replicate windowSize 0⟩

def bucket (a b c : UInt8) : Nat :=
  (a.toNat <<< 10 ^^^ b.toNat <<< 5 ^^^ c.toNat) % bucketCount

def bucketAt (bytes : Array UInt8) (i : Nat) : Option Nat := do
  return bucket (← bytes[i]?) (← bytes[i + 1]?) (← bytes[i + 2]?)

/-- Puts position `i` of the window at the front of its chain; positions without three bytes are
left out. -/
def Chains.insert (bytes : Array UInt8) (base : Nat) (chains : Chains) (i : Nat) : Option Chains :=
  if bytes.size < i + minMatch then some chains
  else
    match bucketAt bytes i with
    | none => none
    | some h =>
      let ⟨head, previous⟩ := chains
      match head[h]? with
      | none => none
      | some first =>
        some ⟨head.setIfInBounds h (base + i + 1),
          previous.setIfInBounds ((base + i) % windowSize) first⟩

def Chains.insertRun (bytes : Array UInt8) (base : Nat) : (n i : Nat) → Chains → Option Chains
  | 0, _, chains => some chains
  | n + 1, i, chains =>
    match chains.insert bytes base i with
    | none => none
    | some chains => insertRun bytes base n (i + 1) chains

def agreement (bytes : Array UInt8) : (n i j found : Nat) → Option Nat
  | 0, _, _, found => some found
  | n + 1, i, j, found =>
    match bytes[i]?, bytes[j]? with
    | some a, some b => if a = b then agreement bytes n (i + 1) (j + 1) (found + 1) else some found
    | _, _ => none

structure Match where
  length : Nat
  distance : Nat
  minMatch_le : minMatch ≤ length

/-- Follows a chain for at most `tries` positions. `best` is the length to beat. -/
def followChain (bytes : Array UInt8) (base : Nat) (previous : Array Nat) (i longest enough : Nat) :
    (tries candidate best distance : Nat) → Option (Nat × Nat)
  | 0, _, best, distance => some (best, distance)
  | tries + 1, candidate, best, distance =>
    let here := base + i
    let there := candidate - 1
    if candidate = 0 ∨ here ≤ there ∨ windowSize ≤ here - there ∨ there < base then
      some (best, distance)
    else
      let j := there - base
      match bytes[j + best]?, bytes[i + best]?, previous[there % windowSize]? with
      | some a, some b, some next =>
        match (if a = b then agreement bytes longest j i 0 else some 0) with
        | none => none
        | some length =>
          if best < length ∧ (enough ≤ length ∨ length = longest) then some (length, here - there)
          else
            let (best, distance) :=
              if best < length then (length, here - there) else (best, distance)
            if candidate ≤ next then some (best, distance)
            else followChain bytes base previous i longest enough tries next best distance
      | _, _, _ => none

/-- The longest copy found for position `i` that does not pass `stop`. -/
def longestMatch (effort : Effort) (bytes : Array UInt8) (base : Nat) (chains : Chains)
    (i stop : Nat) : Option (Option Match) :=
  let longest := min (stop - i) maxMatch
  if longest < minMatch then some none
  else
    match bucketAt bytes i with
    | none => none
    | some h =>
      match chains.head[h]? with
      | none => none
      | some first =>
        match followChain bytes base chains.previous i longest effort.enough effort.chain first
            (minMatch - 1) 0 with
        | none => none
        | some (length, distance) =>
          if h : minMatch ≤ length then some (some ⟨length, distance, h⟩) else some none

def longerNext (effort : Effort) (bytes : Array UInt8) (base : Nat) (chains : Chains) (i stop : Nat)
    (found : Match) : Option Bool :=
  if effort.lazy ∧ found.length < effort.enough ∧ i + 1 < stop then
    match longestMatch effort bytes base chains (i + 1) stop with
    | none => none
    | some none => some false
    | some (some next) => some (found.length < next.length)
  else some false

/-- Splits the window from `i` to `stop` into tokens, inserting every position on the way. -/
def tokenize (effort : Effort) (bytes : Array UInt8) (base stop i : Nat) (chains : Chains)
    (tokens : Array Token) : Option (Array Token × Chains) :=
  if i < stop then
    match longestMatch effort bytes base chains i stop, bytes[i]? with
    | some none, some byte =>
      match chains.insert bytes base i with
      | none => none
      | some chains => tokenize effort bytes base stop (i + 1) chains (tokens.push (.literal byte))
    | some (some found), some byte =>
      match chains.insert bytes base i with
      | none => none
      | some chains =>
        match longerNext effort bytes base chains i stop found with
        | none => none
        | some true =>
          tokenize effort bytes base stop (i + 1) chains (tokens.push (.literal byte))
        | some false =>
          match Chains.insertRun bytes base (found.length - 1) (i + 1) chains with
          | none => none
          | some chains =>
            tokenize effort bytes base stop (i + found.length) chains
              (tokens.push (.copy found.length found.distance))
    | _, _ => none
  else some (tokens, chains)
termination_by stop - i
decreasing_by
  all_goals try omega
  have := found.minMatch_le
  simp only [minMatch] at this
  omega

end Conduit.Deflate
