import Conduit.Compression.Session

namespace Conduit

structure Schedule where
  /-- The most input offered in a call; no bound if `none`. -/
  feed : Nat → Option Nat
  room : Nat → Nat
  /-- Whether to go on with empty input once nothing is left. -/
  finish : Bool

structure Trace where
  output : Array UInt8
  /-- Output and input of every successful call. -/
  calls : Array (Nat × Nat)
  left : List UInt8
  finished : Bool
  error? : Option Error

namespace Schedule

def offer (s : Schedule) (k : Nat) (left : List UInt8) : List UInt8 :=
  match s.feed k with
  | none => left
  | some n => left.take n

/-- Makes at most `calls` calls, numbered from `k` on, until one reports the end of the stream or
fails. -/
def run (s : Schedule) : (calls k : Nat) → Session → Trace → Trace × Session
  | 0, _, session, trace => (trace, session)
  | calls + 1, k, session, trace =>
    let ⟨output, made, left, finished, error?⟩ := trace
    if left.isEmpty && !s.finish then (⟨output, made, left, finished, error?⟩, session)
    else
      match session.process (s.offer k left) (s.room k) with
      | (.error error, session) => (⟨output, made, left, finished, some error⟩, session)
      | (.ok step, session) =>
        let trace := ⟨output ++ step.output, made.push (step.produced, step.consumed),
          left.drop step.consumed, step.finished, none⟩
        if step.finished then (trace, session) else run s calls (k + 1) session trace

end Schedule

end Conduit
