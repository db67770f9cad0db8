import Conduit.Settings.Field

namespace Conduit.Settings

/-- A reader of characters: a value and the characters after it, or nothing. -/
abbrev Reader (α : Type) := List Char → Option (α × List Char)

def isSpace (c : Char) : Bool :=
  c == ' ' || c == '\n' || c == '\r' || c == '\t'

def skipSpace (text : List Char) : List Char :=
  text.dropWhile isSpace

def mark (c : Char) : Reader Unit := fun text =>
  match skipSpace text with
  | d :: rest => if c = d then some ((), rest) else none
  | [] => none

def word (w : List Char) : Reader Unit := fun text =>
  let text := skipSpace text
  if w.isPrefixOf text then some ((), text.drop w.length) else none

def hexValue? (c : Char) : Option Nat :=
  let n := c.toNat
  if 48 ≤ n && n ≤ 57 then some (n - 48)
  else if 65 ≤ n && n ≤ 70 then some (n - 55)
  else if 97 ≤ n && n ≤ 102 then some (n - 87)
  else none

/-- The character of four hexadecimal digits. Halves of a pair are refused: no name has characters
that need one. -/
def hexChar? (a b c d : Char) : Option Char := do
  let n := 4096 * (← hexValue? a) + 256 * (← hexValue? b) + 16 * (← hexValue? c) + (← hexValue? d)
  if 0xd800 ≤ n && n ≤ 0xdfff then none else some (Char.ofNat n)

def escaped? : Char → Option Char
  | '"' => some '"'
  | '\\' => some '\\'
  | '/' => some '/'
  | 'b' => some '\x08'
  | 'f' => some '\x0c'
  | 'n' => some '\n'
  | 'r' => some '\r'
  | 't' => some '\t'
  | _ => none

def quotedRest : List Char → Option (List Char × List Char)
  | '"' :: rest => some ([], rest)
  | '\\' :: 'u' :: a :: b :: c :: d :: rest => do
    let head ← hexChar? a b c d
    let (tail, rest) ← quotedRest rest
    return (head :: tail, rest)
  | '\\' :: c :: rest => do
    let head ← escaped? c
    let (tail, rest) ← quotedRest rest
    return (head :: tail, rest)
  | c :: rest =>
    if c.toNat < 32 ∨ c = '\\' then none
    else do
      let (tail, rest) ← quotedRest rest
      return (c :: tail, rest)
  | [] => none

def quotedText : Reader String := fun text =>
  match skipSpace text with
  | '"' :: rest => (quotedRest rest).map fun (chars, rest) => (String.ofList chars, rest)
  | _ => none

def digitsValue (digits : List Char) : Nat :=
  digits.foldl (fun n c => 10 * n + (c.toNat - 48)) 0

/-- A whole number below `limit` after blanks, without sign and without zeros in front. -/
def number (limit : Nat) : Reader Nat := fun text =>
  let text := skipSpace text
  let digits := text.takeWhile Char.isDigit
  let rest := text.dropWhile Char.isDigit
  let value := digitsValue digits
  if digits.isEmpty || (digits.head? == some '0' && digits.length != 1) || limit ≤ value then none
  else some (value, rest)

def truth : Reader Bool := fun text =>
  match word ['t', 'r', 'u', 'e'] text with
  | some (_, rest) => some (true, rest)
  | none => (word ['f', 'a', 'l', 's', 'e'] text).map fun (_, rest) => (false, rest)

def exactFamily? (name : String) : Option Family :=
  if name = Family.portable.name then some .portable
  else if name = Family.native.name then some .native
  else none

/-- A family's name, alone or as the name of an empty field in a record. -/
def family : Reader Family := fun text =>
  match skipSpace text with
  | '\x7b' :: rest => do
    let (name, rest) ← quotedText rest
    let (_, rest) ← mark ':' rest
    let (_, rest) ← word ['n', 'u', 'l', 'l'] rest
    let (_, rest) ← mark '\x7d' rest
    return (← exactFamily? name, rest)
  | text => do
    let (name, rest) ← quotedText text
    return (← exactFamily? name, rest)

def fieldValue (s : Settings) (f : Field) (text : List Char) : Option (Settings × List Char) := do
  match f with
  | .cipherBackend => let (v, rest) ← family text; return ({ s with cipherBackend := v }, rest)
  | .digestBackend => let (v, rest) ← family text; return ({ s with digestBackend := v }, rest)
  | .compressionBackend =>
    let (v, rest) ← family text
    return ({ s with compressionBackend := v }, rest)
  | .compressionLevel =>
    let (v, rest) ← number (UInt32.size) text
    return ({ s with compressionLevel := v }, rest)
  | .rawDeflate => let (v, rest) ← truth text; return ({ s with rawDeflate := v }, rest)
  | .chunkSize =>
    let (v, rest) ← number (UInt64.size) text
    return ({ s with chunkSize := v }, rest)
  | .chunkFloor =>
    let (v, rest) ← number (UInt64.size) text
    return ({ s with chunkFloor := v }, rest)

def separator (close : Char) : Reader Bool := fun text =>
  match mark ',' text with
  | some (_, rest) => some (true, rest)
  | none => (mark close text).map fun (_, rest) => (false, rest)

/-- Named fields up to the closing brace. Each must be among `unset`, which it then leaves. -/
def members (s : Settings) (unset : List Field) (text : List Char) :
    Option (Settings × List Char) :=
  match quotedText text with
  | none => none
  | some (name, rest) =>
    match (Field.ofName? name).filter unset.contains with
    | none => none
    | some f =>
      if _h : f ∈ unset then
        match (mark ':' rest).bind fun (_, rest) => fieldValue s f rest with
        | none => none
        | some (s, rest) =>
          match separator '\x7d' rest with
          | none => none
          | some (true, rest) => members s (unset.erase f) rest
          | some (false, rest) => some (s, rest)
      else none
termination_by unset.length
decreasing_by
  have := List.length_erase_of_mem _h
  have := List.length_pos_of_mem _h
  omega

def elements (s : Settings) : List Field → List Char → Option (Settings × List Char)
  | [], _ => none
  | f :: fields, text => do
    let (s, rest) ← fieldValue s f text
    match ← separator ']' rest with
    | (true, rest) => elements s fields rest
    | (false, rest) => return (s, rest)

def enclosed (opening closing : Char)
    (inside : Settings → List Char → Option (Settings × List Char)) : Reader Settings :=
  fun text => do
    let (_, rest) ← mark opening text
    match mark closing rest with
    | some (_, rest) => return ({}, rest)
    | none => inside {} rest

def record : Reader Settings :=
  enclosed '\x7b' '\x7d' fun s text => members s Field.all text

def sequence : Reader Settings :=
  enclosed '[' ']' fun s text => elements s Field.all text

def readAll (text : List Char) : Option Settings :=
  match (record text).orElse fun _ => sequence text with
  | some (s, rest) => if (skipSpace rest).isEmpty then some s else none
  | none => none

def parse (text : String) : Except SettingsError Settings :=
  match readAll text.toList with
  | none => .error .malformed
  | some s => s.validate.map fun _ => s

def ofFile (contents : Option ByteArray) : Except SettingsError Settings :=
  match contents.bind String.fromUTF8? with
  | none => .error .unreadable
  | some text => parse text

end Conduit.Settings
