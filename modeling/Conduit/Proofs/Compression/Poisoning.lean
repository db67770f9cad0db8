import Conduit.Proofs.Compression.Calling
import Conduit.Proofs.Compression.Keeping

namespace Conduit

variable {s : Session} {l : Line}

theorem Session.process_of_poisoned (hp : s.poisoned = true) (input : List UInt8) (room : Nat) :
    s.process input room = (.error .poisoned, s) := by
  obtain ⟨profile, codec, finished, consumedLast, poisoned⟩ := s
  exact if_pos hp

theorem Session.reset_of_poisoned (hp : s.poisoned = true) : s.reset = (.error .poisoned, s) :=
  if_pos hp

namespace Line

theorem call_of_poisoned (hp : l.session.poisoned = true) (input : List UInt8) :
    l.call input = (.error .poisoned, ⟨l.session, l.sink.ready⟩) := by
  rw [call, Session.process_of_poisoned hp]

theorem close_of_poisoned (hp : l.session.poisoned = true) :
    l.close = (.error .poisoned, ⟨l.session, l.sink.ready⟩) := by
  rw [close, call_of_poisoned hp]

end Line

namespace Session

theorem use_of_poisoned (hp : s.poisoned = true) (use : Use) : (s.use use).2 = s := by
  have hkept : Kept (· = s) := by
    refine ⟨?_, ?_⟩
    · rintro _ rfl input room
      rw [process_of_poisoned hp]
    · rintro _ rfl
      rw [reset_of_poisoned hp]
  exact hkept.use rfl use

theorem replies_of_poisoned (hp : s.poisoned = true) (acts : List Act) :
    replies act s acts = (List.replicate acts.length (s.sight (.error .poisoned)), s) := by
  induction acts with
  | nil => rfl
  | cons a acts ih =>
    have hact : s.act a = (s.sight (.error .poisoned), s) := by
      cases a with
      | call input room =>
        rw [act, process_of_poisoned hp]
        rfl
      | reset =>
        rw [act, reset_of_poisoned hp]
        rfl
    rw [replies_cons, hact]
    dsimp only
    rw [ih]
    rfl

end Session

end Conduit
