import Conduit.Compression.Session
import Conduit.Compression.Sink

namespace Conduit

structure Line where
  session : Session
  sink : Sink

namespace Line

def call (l : Line) (input : List UInt8) : Except Error Step × Line :=
  let ⟨session, sink⟩ := l
  let sink := sink.ready
  match session.process input sink.room with
  | (.ok step, session) => (.ok step, ⟨session, sink.write step.output⟩)
  | (.error error, session) => (.error error, ⟨session, sink⟩)

def backlog (l : Line) : Nat :=
  l.session.backlog

/-- Calls until all of the input is taken. -/
def feed (l : Line) (input : List UInt8) : Except Error Unit × Line :=
  match input with
  | [] => (.ok (), l)
  | byte :: rest =>
    let before := l.backlog
    match l.call (byte :: rest) with
    | (.error error, l) => (.error error, l)
    | (.ok step, l) =>
      if 0 < step.consumed then feed l ((byte :: rest).drop step.consumed)
      else if l.backlog < before then feed l (byte :: rest)
      else (.error .endless, l)
termination_by (input.length, l.backlog)
decreasing_by
  · apply Prod.Lex.left
    simp only [List.length_drop, List.length_cons]
    omega
  · apply Prod.Lex.right
    assumption

def drain (l : Line) : Except Error Unit × Line :=
  let before := l.backlog
  match l.call [] with
  | (.error error, l) => (.error error, l)
  | (.ok step, l) =>
    if step.finished then (.ok (), l)
    else if l.backlog < before then drain l
    else (.error .endless, l)
termination_by l.backlog

/-- Asks for the end of the stream and calls until it is reported. -/
def close (l : Line) : Except Error Unit × Line :=
  match l.call [] with
  | (.error error, l) => (.error error, l)
  | (.ok step, l) => if step.finished then (.ok (), l) else l.drain

/-- Calls until the end of the stream is reported, and says what input is left. -/
def expand (l : Line) (input : List UInt8) : Except Error Unit × List UInt8 × Line :=
  let before := l.backlog
  match l.call input with
  | (.error error, l) => (.error error, input, l)
  | (.ok step, l) =>
    if step.finished then (.ok (), input.drop step.consumed, l)
    else
      match input with
      | byte :: rest =>
        if 0 < step.consumed then expand l ((byte :: rest).drop step.consumed)
        else if l.backlog < before then expand l (byte :: rest)
        else (.error .endless, byte :: rest, l)
      | [] => if l.backlog < before then expand l [] else (.error .endless, [], l)
termination_by (input.length, l.backlog)
decreasing_by
  · apply Prod.Lex.left
    simp only [List.length_drop, List.length_cons]
    omega
  · apply Prod.Lex.right
    assumption
  · apply Prod.Lex.right
    assumption

end Line

namespace Session

/-- Hands over what a drive has collected and makes the session ready for the next stream. -/
def settle (result : Except Error Unit) (l : Line) : Except Error (List UInt8) × Session :=
  match result with
  | .error error => (.error error, l.session)
  | .ok _ =>
    match l.session.reset with
    | (.error error, session) => (.error error, session)
    | (.ok _, session) => (.ok l.sink.out.toList, session)

def compressAll (s : Session) (input : List UInt8) (chunk : Nat) :
    Except Error (List UInt8) × Session :=
  if s.profile.mode ≠ .compress then (.error (.fault (.wrongMode .compress)), s)
  else
    match Sink.whole chunk with
    | .error error => (.error error, s)
    | .ok sink =>
      match Line.feed ⟨s, sink⟩ input with
      | (.error error, l) => (.error error, l.session)
      | (.ok _, l) =>
        let (result, l) := l.close
        settle result l

/-- Decompresses one complete stream and ignores what follows it. -/
def decompressAll (s : Session) (input : List UInt8) (chunk : Nat) :
    Except Error (List UInt8) × Session :=
  if s.profile.mode ≠ .decompress then (.error (.fault (.wrongMode .decompress)), s)
  else
    match Sink.whole chunk with
    | .error error => (.error error, s)
    | .ok sink =>
      let (result, _, l) := Line.expand ⟨s, sink⟩ input
      settle result l

end Session

end Conduit
