import Conduit.Compression.Session
import Conduit.Proofs.Deflate.Retaining
import Conduit.Proofs.Replies

namespace Conduit

open Deflate

namespace Codec

inductive Serves (p : Profile) : Codec → Prop
  | compressor {c : Compressor} (mode : p.mode = .compress) (suits : c.Suits p.level (!p.raw)) :
      Serves p (.compressor c)
  | decompressor {d : Decompressor} (mode : p.mode = .decompress) (framed : d.framed = !p.raw) :
      Serves p (.decompressor d)

variable {p : Profile} {codec : Codec}

theorem start_compress (hb : p.backend = .portable) (hm : p.mode = .compress) :
    start p = .compressor (.start p.level (!p.raw)) := by
  rw [start, hb, hm]

theorem start_decompress (hb : p.backend = .portable) (hm : p.mode = .decompress) :
    start p = .decompressor (.start (!p.raw)) := by
  rw [start, hb, hm]

theorem serves_start (hb : p.backend = .portable) : (start p).Serves p := by
  cases hm : p.mode with
  | compress =>
    rw [start_compress hb hm]
    exact .compressor hm (Compressor.suits_start _ _)
  | decompress =>
    rw [start_decompress hb hm]
    exact .decompressor hm rfl

theorem Serves.reset_eq (h : codec.Serves p) (hb : p.backend = .portable) :
    codec.reset = start p := by
  cases h with
  | compressor mode suits => rw [Codec.reset, start_compress hb mode, suits.reset_eq]
  | decompressor mode framed =>
    rw [Codec.reset, start_decompress hb mode, Decompressor.reset, framed]

theorem Serves.process (h : codec.Serves p) (input : List UInt8) (room : Nat) :
    (codec.process input room).2.Serves p := by
  cases h with
  | compressor mode suits => exact .compressor mode (suits.process input room)
  | decompressor mode framed =>
    exact .decompressor mode ((Decompressor.framed_process _ input room).trans framed)

end Codec

namespace Session

def fresh (p : Profile) : Session :=
  ⟨p, .start p, false, 0, false⟩

inductive Act where
  | call (input : List UInt8) (room : Nat)
  | reset

/-- What a use shows: its answer, which for a call tells what was done, and what the session says of
itself after it. -/
structure Sight where
  answer : Except Error (Option Step)
  finished : Bool
  consumedLast : Nat
  poisoned : Bool
deriving DecidableEq

def sight (s : Session) (answer : Except Error (Option Step)) : Sight :=
  ⟨answer, s.finished, s.consumedLast, s.poisoned⟩

def act (s : Session) : Act → Sight × Session
  | .call input room =>
    let (answer, s) := s.process input room
    (s.sight (answer.map some), s)
  | .reset =>
    let (answer, s) := s.reset
    (s.sight (answer.map fun _ => none), s)

structure Serves (s : Session) (p : Profile) : Prop where
  profile_eq : s.profile = p
  backend_eq : p.backend = .portable
  codec : s.codec.Serves p

variable {s : Session} {p : Profile}

theorem serves_fresh (hb : p.backend = .portable) : (fresh p).Serves p :=
  ⟨rfl, hb, Codec.serves_start hb⟩

theorem eq_fresh_of_start (h : start p = .ok s) : s = fresh p := by
  rw [start] at h
  split at h <;> cases h
  rfl

theorem Serves.process (h : s.Serves p) (input : List UInt8) (room : Nat) :
    (s.process input room).2.Serves p := by
  obtain ⟨profile, codec, finished, consumedLast, poisoned⟩ := s
  have hcodec := h.codec.process input room
  rw [Session.process]
  split
  · exact h
  · dsimp only at hcodec
    rcases hp : codec.process input room with ⟨error | step, codec'⟩ <;>
    · rw [hp] at hcodec
      exact ⟨h.profile_eq, h.backend_eq, hcodec⟩

theorem Serves.reset_eq (h : s.Serves p) (hp : s.poisoned = false) :
    s.reset = (.ok (), fresh p) := by
  rw [Session.reset, if_neg (by simp [hp]), h.codec.reset_eq h.backend_eq, h.profile_eq]
  rfl

theorem Serves.reset (h : s.Serves p) : s.reset.2.Serves p := by
  cases hp : s.poisoned with
  | false =>
    rw [h.reset_eq hp]
    exact serves_fresh h.backend_eq
  | true =>
    rw [Session.reset, if_pos hp]
    exact h

theorem Serves.act (h : s.Serves p) (a : Act) : (s.act a).2.Serves p := by
  cases a with
  | call input room => exact h.process input room
  | reset => exact h.reset

theorem Serves.acts (h : s.Serves p) (acts : List Act) : (replies Session.act s acts).2.Serves p :=
  replies_kept (P := fun s => Serves s p) (fun hs a => hs.act a) h acts

end Session

end Conduit
