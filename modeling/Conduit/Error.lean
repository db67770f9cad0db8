import Conduit.Family
import Conduit.Deflate.Flaw

namespace Conduit

inductive Fault where
  | flaw (flaw : Deflate.Flaw)
  /-- A failure that a native engine tells in its own words. -/
  | reported (mode : Mode) (text : String)
  | noProgress (mode : Mode)
  | inputAfterEnd
  | wrongMode (expected : Mode)
deriving DecidableEq, Repr

namespace Fault

def status : Fault → Int
  | flaw .presetDictionary => 2
  | flaw _ => -3
  | reported .compress _ => -2
  | reported .decompress _ => -3
  | noProgress _ => -5
  | inputAfterEnd => -2
  | wrongMode _ => -2

def message : Fault → String
  | flaw f => f.message
  | reported _ text => text
  | noProgress .compress => "deflate could not make progress"
  | noProgress .decompress => "inflate could not make progress"
  | inputAfterEnd => "input supplied after end of stream was requested"
  | wrongMode expected => s!"session is not in {expected.name} mode"

end Fault

inductive Error where
  | keyLength (actual : Nat)
  | ivLength (actual : Nat)
  | lengthMismatch (input output : Nat)
  /-- A handle stands for no session. -/
  | useAfterFree (handle : UInt64)
  /-- There is no such compression level. -/
  | badLevel
  | fault (fault : Fault)
  /-- The session has met a fault before. -/
  | poisoned
  | unknownBackend (text : String)
  /-- A read outside its table or buffer. -/
  | outOfRange
  /-- A loop of calls none of which changes anything. -/
  | endless
  /-- A buffer larger than any can be. -/
  | bufferSize (size : Nat)
deriving DecidableEq, Repr

namespace Error

def status? : Error → Option Int
  | badLevel => some (-2)
  | fault f => some f.status
  | _ => none

def message : Error → String
  | keyLength actual => s!"invalid key length: expected=32, actual={actual}"
  | ivLength actual => s!"invalid iv length: expected=16, actual={actual}"
  | lengthMismatch input output => s!"length mismatch: input={input}, output={output}"
  | useAfterFree handle =>
    "use after free: handle " ++ Hexadecimal.wide handle.toNat ++ " is null or already freed"
  | badLevel => "deflate init failed with status -2"
  | fault f => s!"compression fault (status {f.status}): " ++ f.message
  | poisoned => "session is poisoned by an earlier fault and must be freed"
  | unknownBackend text => "unknown backend: " ++ text
  | outOfRange => "index out of range"
  | endless => "calls without effect"
  | bufferSize size => s!"no buffer of {size} bytes"

/-- Whether the error breaks off the whole run and not only the call that met it. -/
def isFatal : Error → Bool
  | outOfRange | endless | bufferSize _ => true
  | _ => false

end Error

namespace Family

def ofId (id : Nat) : Except Error Family :=
  match ofId? id with
  | some family => .ok family
  | none => .error (.unknownBackend (labelOrId ofId? label id))

def verify (id : Nat) : Except Error Unit :=
  (ofId id).map fun _ => ()

/-- The family that a text names, whatever its case and the blanks around it. -/
def parse (text : String) : Except Error Family :=
  let name := normalize text
  match ofName? name with
  | some family => .ok family
  | none => .error (.unknownBackend name)

end Family

end Conduit
