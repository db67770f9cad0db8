import Conduit.Hub
import Conduit.Proofs.Compression.Using
import Conduit.Proofs.Replies

namespace Conduit

theorem Line.session_of_call {l l' : Line} {input : List UInt8} {answer : Except Error Step}
    (h : l.call input = (answer, l')) :
    l.session.process input l.sink.ready.room = (answer, l'.session) := by
  rw [Line.call] at h
  rcases hp : l.session.process input l.sink.ready.room with ⟨error | step, session⟩ <;>
  · rw [hp] at h
    cases h
    rfl

namespace Session

/-- Calls and resets keep this property of a session. -/
structure Kept (P : Session → Prop) : Prop where
  process : ∀ {s : Session}, P s → ∀ input room, P (s.process input room).2
  reset : ∀ {s : Session}, P s → P s.reset.2

variable {P : Session → Prop} {s : Session} {l l' : Line}

theorem Kept.call (k : Kept P) (h : P l.session) {input : List UInt8} {answer : Except Error Step}
    (hcall : l.call input = (answer, l')) : P l'.session := by
  have hnext := k.process h input l.sink.ready.room
  rwa [Line.session_of_call hcall] at hnext

theorem Kept.feed (k : Kept P) (h : P l.session) (input : List UInt8) :
    P (l.feed input).2.session := by
  fun_induction Line.feed l input with
  | case1 => exact h
  | case2 l byte rest error l' hcall => exact k.call h hcall
  | case3 l byte rest step l' hcall hpos ih => exact ih (k.call h hcall)
  | case4 l byte rest before step l' hcall hzero hless ih => exact ih (k.call h hcall)
  | case5 l byte rest before step l' hcall => exact k.call h hcall

theorem Kept.drain (k : Kept P) (h : P l.session) : P l.drain.2.session := by
  fun_induction Line.drain l with
  | case1 l error l' hcall => exact k.call h hcall
  | case2 l step l' hcall => exact k.call h hcall
  | case3 l before step l' hcall hf hless ih => exact ih (k.call h hcall)
  | case4 l before step l' hcall => exact k.call h hcall

theorem Kept.close (k : Kept P) (h : P l.session) : P l.close.2.session := by
  rw [Line.close]
  rcases hcall : l.call [] with ⟨error | step, l'⟩
  · exact k.call h hcall
  · dsimp only
    split
    · exact k.call h hcall
    · exact k.drain (k.call h hcall)

theorem Kept.expand (k : Kept P) (h : P l.session) (input : List UInt8) :
    P (l.expand input).2.2.session := by
  fun_induction Line.expand l input with
  | case1 | case5 | case7 =>
    rename_i hcall
    exact k.call h hcall
  | case2 =>
    rename_i hcall _
    exact k.call h hcall
  | case3 | case4 | case6 =>
    rename_i hcall ih
    exact ih (k.call h hcall)

theorem Kept.settle (k : Kept P) (h : P l.session) (result : Except Error Unit) :
    P (settle result l).2 := by
  have hreset := k.reset h
  cases result with
  | error error => exact h
  | ok done =>
    rw [Session.settle]
    rcases hr : l.session.reset with ⟨error | done, session⟩ <;>
    · rw [hr] at hreset
      exact hreset

theorem Kept.compressAll (k : Kept P) (h : P s) (input : List UInt8) (chunk : Nat) :
    P (s.compressAll input chunk).2 := by
  rw [Session.compressAll]
  by_cases hmode : s.profile.mode ≠ .compress
  · rw [if_pos hmode]
    exact h
  · rw [if_neg hmode]
    cases Sink.whole chunk with
    | error error => exact h
    | ok sink =>
      have hfed := k.feed (l := ⟨s, sink⟩) h input
      dsimp only
      rcases hfeed : Line.feed ⟨s, sink⟩ input with ⟨error | done, l⟩ <;> rw [hfeed] at hfed
      · exact hfed
      · exact k.settle (k.close hfed) _

theorem Kept.decompressAll (k : Kept P) (h : P s) (input : List UInt8) (chunk : Nat) :
    P (s.decompressAll input chunk).2 := by
  rw [Session.decompressAll]
  by_cases hmode : s.profile.mode ≠ .decompress
  · rw [if_pos hmode]
    exact h
  · rw [if_neg hmode]
    cases Sink.whole chunk with
    | error error => exact h
    | ok sink => exact k.settle (k.expand (l := ⟨s, sink⟩) h input) _

theorem Kept.use (k : Kept P) (h : P s) (use : Use) : P (s.use use).2 := by
  cases use with
  | process input room => exact k.process h input room
  | reset => exact k.reset h
  | compressAll input chunk => exact k.compressAll h input chunk
  | decompressAll input chunk => exact k.decompressAll h input chunk

theorem Kept.uses (k : Kept P) (h : P s) (uses : List Use) : P (replies Session.use s uses).2 :=
  replies_kept k.use h uses

theorem Kept.act (k : Kept P) (h : P s) (a : Act) : P (s.act a).2 := by
  cases a with
  | call input room => exact k.process h input room
  | reset => exact k.reset h

theorem Kept.acts (k : Kept P) (h : P s) (acts : List Act) : P (replies Session.act s acts).2 :=
  replies_kept k.act h acts

theorem Kept.and (k : Kept P) {Q : Session → Prop} (k' : Kept Q) : Kept fun s => P s ∧ Q s where
  process h input room := ⟨k.process h.1 input room, k'.process h.2 input room⟩
  reset h := ⟨k.reset h.1, k'.reset h.2⟩

theorem kept_serves (p : Profile) : Kept (·.Serves p) where
  process h := h.process
  reset h := h.reset

end Session

end Conduit
