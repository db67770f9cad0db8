import Conduit.Proofs.Machine.Decompressing

namespace Conduit

open Deflate

namespace Machine

/-- Makes a compressor ready for its next stream. Its tables are filled with zeros as far as they
go, and the header of the new frame is written. -/
def clear (c : Compressor) : Compressor where
  level := c.level
  framed := c.framed
  window := ⟨#[], 0, 0⟩
  chains := ⟨c.chains.head.map fun _ => 0, c.chains.previous.map fun _ => 0⟩
  writer := if c.framed then BitWriter.empty.putBytes (Deflate.frameHeader c.level) else .empty
  sum := .start
  phase := .gathering

theorem clear_eq_reset {c : Compressor} {level : Nat} {framed : Bool} (h : c.Suits level framed) :
    clear c = c.reset := by
  have hchains : (clear c).chains = Chains.empty := by
    simp only [clear, Array.map_const', h.sized.head, h.sized.previous, Chains.empty]
  rw [Compressor.reset, Compressor.start, ← hchains]
  rfl

inductive Codec where
  | compressor (c : Compressor)
  | decompressor (m : Decompressor)

namespace Codec

def start (p : Profile) : Codec :=
  match p.mode with
  | .compress => .compressor (.start p.level (!p.raw))
  | .decompress => .decompressor (.start (!p.raw))

def reset : Codec → Codec
  | .compressor c => .compressor (clear c)
  | .decompressor m => .decompressor m.reset

def process? (codec : Codec) (input : List UInt8) (room : Nat) :
    Option (Except Error Step × Codec) :=
  match codec with
  | .compressor c =>
    let (result, c) := c.process input room
    some (result.mapError Conduit.Codec.compressError, .compressor c)
  | .decompressor m => do
    let (result, m) ← m.process? input room
    return (result.mapError Conduit.Codec.decompressError, .decompressor m)

inductive Shows (p : Profile) : Codec → Conduit.Codec → Prop
  | compressor {c : Compressor} (mode : p.mode = .compress) (suits : c.Suits p.level (!p.raw)) :
      Shows p (.compressor c) (.compressor c)
  | decompressor {m : Decompressor} {d : Deflate.Decompressor} (mode : p.mode = .decompress)
      (shown : m.Shows d) : Shows p (.decompressor m) (.decompressor d)

variable {p : Profile} {codec : Codec} {other : Conduit.Codec}

theorem shows_start (hb : p.backend = .portable) : (start p).Shows p (.start p) := by
  rw [start, Conduit.Codec.start, hb]
  cases h : p.mode with
  | compress => exact .compressor h (Compressor.suits_start _ _)
  | decompress => exact .decompressor h (Decompressor.shows_start _)

theorem Shows.reset (h : codec.Shows p other) : codec.reset.Shows p other.reset := by
  cases h with
  | compressor mode suits =>
    rw [Codec.reset, Conduit.Codec.reset, clear_eq_reset suits, suits.reset_eq]
    exact .compressor mode (Compressor.suits_start _ _)
  | decompressor mode shown => exact .decompressor mode shown.reset

theorem Shows.process (h : codec.Shows p other) (input : List UInt8) (room : Nat) :
    ∃ codec', codec.process? input room = some ((other.process input room).1, codec') ∧
      codec'.Shows p (other.process input room).2 := by
  cases h with
  | compressor mode suits => exact ⟨_, rfl, .compressor mode (suits.process input room)⟩
  | decompressor mode shown =>
    obtain ⟨m', hm', hshown, -⟩ := shown.process input room
    refine ⟨_, ?_, .decompressor mode hshown⟩
    rw [process?, hm']
    rfl

end Codec

structure Session where
  codec : Codec
  finished : Bool := false
  consumedLast : Nat := 0
  poisoned : Bool := false

namespace Session

def start (p : Profile) : Session :=
  ⟨.start p, false, 0, false⟩

def process? (s : Session) (input : List UInt8) (room : Nat) :
    Option (Except Error Step × Session) :=
  if s.poisoned then some (.error .poisoned, s)
  else do
    let (result, codec) ← s.codec.process? input room
    match result with
    | .ok step => return (.ok step, ⟨codec, step.finished, step.consumed, false⟩)
    | .error error => return (.error error, ⟨codec, s.finished, 0, true⟩)

def reset (s : Session) : Except Error Unit × Session :=
  if s.poisoned then (.error .poisoned, s)
  else (.ok (), ⟨s.codec.reset, false, 0, false⟩)

def sight (s : Session) (answer : Except Error (Option Step)) : Conduit.Session.Sight :=
  ⟨answer, s.finished, s.consumedLast, s.poisoned⟩

def act? (s : Session) : Conduit.Session.Act → Option (Conduit.Session.Sight × Session)
  | .call input room => do
    let (answer, s) ← s.process? input room
    return (s.sight (answer.map some), s)
  | .reset =>
    let (answer, s) := s.reset
    some (s.sight (answer.map fun _ => none), s)

/-- The session stands where this other one with these parameters does, and says the same of
itself. -/
structure Shows (p : Profile) (s : Session) (other : Conduit.Session) : Prop where
  profile_eq : other.profile = p
  codec : s.codec.Shows p other.codec
  finished_eq : s.finished = other.finished
  consumedLast_eq : s.consumedLast = other.consumedLast
  poisoned_eq : s.poisoned = other.poisoned

variable {p : Profile} {s : Session} {other : Conduit.Session}

theorem shows_fresh (hb : p.backend = .portable) : (start p).Shows p (.fresh p) :=
  ⟨rfl, Codec.shows_start hb, rfl, rfl, rfl⟩

theorem Shows.sight_eq (h : s.Shows p other) (answer : Except Error (Option Step)) :
    s.sight answer = other.sight answer := by
  rw [sight, h.finished_eq, h.consumedLast_eq, h.poisoned_eq]
  rfl

theorem Shows.process (h : s.Shows p other) (input : List UInt8) (room : Nat) :
    ∃ s', s.process? input room = some ((other.process input room).1, s') ∧
      s'.Shows p (other.process input room).2 := by
  obtain ⟨profile, other, finished, consumedLast, poisoned⟩ := other
  obtain ⟨codec, _, _, _⟩ := s
  obtain ⟨rfl, hcodec, rfl, rfl, rfl⟩ := h
  dsimp only at hcodec
  rw [process?, Conduit.Session.process]
  dsimp only
  split
  · exact ⟨_, rfl, rfl, hcodec, rfl, rfl, rfl⟩
  · obtain ⟨codec', hc, hshown⟩ := hcodec.process input room
    rw [hc]
    rcases hother : other.process input room with ⟨error | step, other'⟩ <;>
      rw [hother] at hshown
    · exact ⟨_, rfl, rfl, hshown, rfl, rfl, rfl⟩
    · exact ⟨_, rfl, rfl, hshown, rfl, rfl, rfl⟩

theorem Shows.reset (h : s.Shows p other) :
    s.reset.1 = other.reset.1 ∧ s.reset.2.Shows p other.reset.2 := by
  rw [Session.reset, Conduit.Session.reset, h.poisoned_eq]
  split
  · exact ⟨rfl, h⟩
  · exact ⟨rfl, h.profile_eq, h.codec.reset, rfl, rfl, rfl⟩

theorem Shows.act (h : s.Shows p other) (a : Conduit.Session.Act) :
    ∃ s', s.act? a = some ((other.act a).1, s') ∧ s'.Shows p (other.act a).2 := by
  cases a with
  | call input room =>
    obtain ⟨s', hs', hshown⟩ := h.process input room
    refine ⟨s', ?_, hshown⟩
    rw [act?, hs']
    exact congrArg (fun x => some (x, s')) (hshown.sight_eq _)
  | reset =>
    obtain ⟨hanswer, hshown⟩ := h.reset
    refine ⟨_, ?_, hshown⟩
    have hsight : s.reset.2.sight (s.reset.1.map fun _ => none) = (other.act .reset).1 := by
      rw [hanswer]
      exact hshown.sight_eq _
    exact congrArg (fun x => some (x, s.reset.2)) hsight

theorem Shows.acts (h : s.Shows p other) (acts : List Conduit.Session.Act) :
    ∃ s', replies? act? s acts = some ((replies Conduit.Session.act other acts).1, s') ∧
      s'.Shows p (replies Conduit.Session.act other acts).2 :=
  replies?_of_acts Shows.act h acts

end Session

end Machine

/-- After a reset a session of the portable backend does what a new one does. This holds as well of
the machine, which is reset in the memory that it has. -/
theorem reset_as_new {p : Profile} {s : Session} (hb : p.backend = .portable)
    (hs : Session.start p = .ok s) (before after : List Session.Act)
    (hp : (replies Session.act s before).2.poisoned = false) :
    (replies Session.act s before).2.reset.1 = .ok () ∧
      (replies Session.act (replies Session.act s before).2.reset.2 after).1 =
        (replies Session.act s after).1 ∧
      ∃ m m', replies? Machine.Session.act? (.start p) before =
          some ((replies Session.act s before).1, m) ∧
        m.reset.1 = .ok () ∧
        replies? Machine.Session.act? m.reset.2 after =
          some ((replies Session.act s after).1, m') := by
  obtain rfl := Session.eq_fresh_of_start hs
  have hreset := ((Session.serves_fresh hb).acts before).reset_eq hp
  obtain ⟨m, hm, hshown⟩ := (Machine.Session.shows_fresh hb).acts before
  obtain ⟨hanswer, hagain⟩ := hshown.reset
  rw [hreset] at hanswer hagain ⊢
  obtain ⟨m', hm', -⟩ := hagain.acts after
  exact ⟨rfl, rfl, m, m', hm, hanswer, hm'⟩

/-- Within a block, which the reset breaks off. -/
theorem reset_as_new_within_block :
    ∃ s, Session.start ⟨.portable, .compress, 6, false⟩ = .ok s ∧
      (replies Session.act s [.call [1, 2, 3] 1]).2.poisoned = false ∧
      (replies Session.act s [.call [1, 2, 3] 1]).2.reset.1 = .ok () ∧
      (replies Session.act (replies Session.act s [.call [1, 2, 3] 1]).2.reset.2
        [.call [4] 9, .reset]).1 = (replies Session.act s [.call [4] 9, .reset]).1 ∧
      ∃ m m', replies? Machine.Session.act? (.start ⟨.portable, .compress, 6, false⟩)
          [.call [1, 2, 3] 1] = some ((replies Session.act s [.call [1, 2, 3] 1]).1, m) ∧
        m.reset.1 = .ok () ∧
        replies? Machine.Session.act? m.reset.2 [.call [4] 9, .reset] =
          some ((replies Session.act s [.call [4] 9, .reset]).1, m') :=
  ⟨_, rfl, rfl, reset_as_new rfl rfl [.call [1, 2, 3] 1] [.call [4] 9, .reset] rfl⟩

end Conduit
