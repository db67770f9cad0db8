import Conduit.Proofs.Compression.Compressing
import Conduit.Proofs.Compression.Poisoning
import Conduit.Proofs.Deflate.Phases
import Conduit.Proofs.Machine.Messages

namespace Conduit

open Deflate

inductive Session.Compresses (s : Session) : Prop
  | poisoned (poisoned : s.poisoned = true)
  | runs {c : Compressor} (runs : s.Runs (.compressor c)) (reached : c.Reached)
      (finished_iff : s.finished = true ↔ c.phase = .ended)

section Compresses

variable {s : Session} {p : Profile}

theorem Session.compresses_fresh (hb : p.backend = .portable) (hm : p.mode = .compress) :
    (fresh p).Compresses := by
  refine .runs (c := .start p.level (!p.raw)) ⟨hb, Codec.start_compress hb hm, rfl⟩
    (.gathers (Compressor.gathers_start _ _)) ?_
  · simp [fresh, Compressor.start]

theorem Session.Compresses.process (h : s.Compresses) (input : List UInt8) (room : Nat) :
    (s.process input room).2.Compresses := by
  cases h with
  | poisoned hp =>
    rw [process_of_poisoned hp]
    exact .poisoned hp
  | @runs c hr hreached hf =>
    cases hc : c.process input room with
    | mk result c' =>
      cases result with
      | error fault =>
        obtain ⟨s', hs⟩ := hr.process_error (Codec.process_compressor_error hc)
        rw [hs]
        exact .poisoned (poisoned_of_process hs)
      | ok step =>
        obtain ⟨s', hs, hr'⟩ := hr.process_ok (Codec.process_compressor hc)
        have hfinished := finished_of_process hs
        rw [hs]
        apply Compresses.runs hr' (hreached.process hc)
        rw [hfinished]
        exact Compressor.finished_of_process hc

theorem Session.Compresses.reset (h : s.Compresses) : s.reset.2.Compresses := by
  cases h with
  | poisoned hp =>
    rw [reset_of_poisoned hp]
    exact .poisoned hp
  | @runs c hr hreached hf =>
    rw [Session.reset, hr.codec_eq]
    simp only [hr.fresh]
    refine .runs (c := c.reset) ⟨hr.backend_eq, rfl, rfl⟩
      (.gathers (Compressor.gathers_start _ _)) ?_
    simp [Compressor.reset, Compressor.start]

theorem Session.kept_compresses : Kept Session.Compresses where
  process h := h.process
  reset h := h.reset

end Compresses

section Answers

variable {s : Session} {l : Line} {c : Compressor} {input out : List UInt8} {chunk : Nat}

/-- All that a message can come to: a complete stream, or a refusal because the session is poisoned
or because there is input although the end was asked for. -/
def Session.Settled (answer : Except Error (List UInt8)) : Prop :=
  (∃ out, answer = .ok out) ∨ answer = .error .poisoned ∨ answer = .error (.fault .inputAfterEnd)

theorem Line.close_of_ended (h : l.Carries (.compressor c) out) (hp : c.phase = .ended) :
    ∃ l' codec rest, l.close = (.ok (), l') ∧ l'.Carries codec rest := by
  obtain ⟨l', hcall, h'⟩ :=
    h.call (Codec.process_compressor (Compressor.process_of_ended hp [] l.sink.ready.room))
  refine ⟨l', _, _, ?_, h'⟩
  rw [Line.close, hcall]
  rfl

theorem Session.Compresses.settled (h : s.Compresses) (hm : s.profile.mode = .compress)
    (hc : chunk ≤ Octets.maxSize) (hf : s.finished = true → input = []) :
    Settled (s.compressAll input chunk).1 := by
  obtain ⟨sink, hsink, hlasts, hout⟩ := Sink.exists_whole hc
  cases h with
  | poisoned hp =>
    apply Or.inr (Or.inl _)
    cases input with
    | nil =>
      have hfeed : Line.feed ⟨s, sink⟩ [] = (.ok (), ⟨s, sink⟩) := by rw [Line.feed]
      exact compressAll_of_close_error hm hsink hfeed (Line.close_of_poisoned hp)
    | cons byte rest =>
      have hfeed : Line.feed ⟨s, sink⟩ (byte :: rest) = (.error .poisoned, ⟨s, sink.ready⟩) := by
        rw [Line.feed, Line.call_of_poisoned hp]
      exact compressAll_of_feed_error hm hsink hfeed
  | @runs c hr hreached hfinished =>
    have hcarries : Line.Carries ⟨s, sink⟩ (.compressor c) [] :=
      ⟨hr, hlasts, congrArg Array.toList hout⟩
    have hfeed : Line.feed ⟨s, sink⟩ [] = (.ok (), ⟨s, sink⟩) := by rw [Line.feed]
    cases hreached with
    | @gathers level framed taken earlier h =>
      rw [← List.append_nil earlier] at h
      obtain ⟨l, c', out, hfeed, hcarries', hgathers⟩ := Line.feed_spec earlier input hcarries h
      obtain ⟨blocks, hwhole, -⟩ := encode_spec level framed (taken ++ input)
      obtain ⟨l', codec, rest, hclose, hl', -⟩ := Line.close_spec earlier hcarries' hgathers hwhole
      exact Or.inl ⟨rest, compressAll_of_close hm hsink hfeed hclose hl'⟩
    | @closes whole earlier h =>
      by_cases hnil : input = []
      · subst hnil
        rw [← List.append_nil earlier] at h
        obtain ⟨step, c', hprocess, hsettles, -⟩ := h.finish sink.ready.room
        obtain ⟨l', codec, rest, hclose, hl', -⟩ :=
          Line.close_of_settles hcarries hprocess hsettles
        exact Or.inl ⟨rest, compressAll_of_close hm hsink hfeed hclose hl'⟩
      · obtain ⟨c', hrefused⟩ := h.refuses hnil sink.ready.room
        obtain ⟨l', hcall, -⟩ := hcarries.call_error (Codec.process_compressor_error hrefused)
        obtain ⟨byte, rest, rfl⟩ := List.exists_cons_of_ne_nil hnil
        have hfeed : Line.feed ⟨s, sink⟩ (byte :: rest) = (.error (.fault .inputAfterEnd), l') := by
          rw [Line.feed, hcall]
          rfl
        exact Or.inr (Or.inr (compressAll_of_feed_error hm hsink hfeed))
    | ended h =>
      obtain rfl := hf (hfinished.mpr h)
      obtain ⟨l', codec, rest, hclose, hl'⟩ := Line.close_of_ended hcarries h
      exact Or.inl ⟨rest, compressAll_of_close hm hsink hfeed hclose hl'⟩

end Answers

/-- Whatever was done with a compressing session, a message comes to an answer after so many calls,
as long as a chunk fits in a buffer and there is no input if the stream is reported as finished. -/
theorem compression_returns {p : Profile} (hb : p.backend = .portable) (hm : p.mode = .compress)
    {uses : List Session.Use} {answers : List (Except Error Reply)} {m : Machine.Session}
    (hrun : Comes (fun calls => replies? (Machine.Session.use? calls) (.start p) uses) (answers, m))
    (input : List UInt8) {chunk : Nat} (hc : chunk ≤ Octets.maxSize)
    (hf : m.finished = true → input = []) :
    ∃ answer m', Comes (fun calls => m.compressAll? calls input chunk) (answer, m') ∧
      Session.Settled answer := by
  have hkept := Machine.Session.kept_shows p Session.kept_compresses
  obtain ⟨n, hn⟩ := hrun
  obtain ⟨s, hshown, hs⟩ := hkept.uses
    ⟨.fresh p, Machine.Session.shows_fresh hb, Session.compresses_fresh hb hm⟩
    (hn n (Nat.le_refl n))
  rw [hshown.finished_eq] at hf
  have hsettled := hs.settled (hshown.profile_eq ▸ hm) hc hf
  have hne : (s.compressAll input chunk).1 ≠ .error .endless := by
    intro hendless
    rw [hendless] at hsettled
    obtain ⟨out, hout⟩ | heq | heq := hsettled
    · cases hout
    · cases heq
    · cases heq
  obtain ⟨m', -, hcomes⟩ := hshown.compressAll input hc hne
  exact ⟨_, m', hcomes, hsettled⟩

/-- A session that was asked for the end without room for it, and is then given more input. -/
theorem compression_returns_while_closing :
    ∃ answers m, Comes (fun calls => replies? (Machine.Session.use? calls)
        (.start ⟨.portable, .compress, 0, true⟩) [.process [97] 4, .process [] 0]) (answers, m) ∧
      m.finished = false ∧
        ∃ answer m', Comes (fun calls => m.compressAll? calls [98] 7) (answer, m') ∧
          Session.Settled answer := by
  have hrun : ∃ answers m, Comes (fun calls => replies? (Machine.Session.use? calls)
      (.start ⟨.portable, .compress, 0, true⟩) [.process [97] 4, .process [] 0]) (answers, m) ∧
        m.finished = false := ⟨_, _, comes_of_eq fun _ => rfl, by decide +kernel⟩
  obtain ⟨answers, m, hrun, hf⟩ := hrun
  exact ⟨answers, m, hrun, hf, compression_returns rfl rfl hrun [98] (by decide) (by simp [hf])⟩

namespace Machine

variable {s : Session} {l : Line} {calls chunk : Nat} {input : List UInt8}

/-- The session compresses, and its stream has ended. -/
def Session.Over (s : Session) : Prop :=
  s.poisoned = false ∧ ∃ c, s.codec = .compressor c ∧ c.phase = .ended

theorem Session.Over.process? (h : s.Over) (input : List UInt8) (room : Nat) :
    ∃ s', s.process? input room = some (.ok .ended, s') ∧ s'.Over := by
  obtain ⟨codec, finished, consumedLast, poisoned⟩ := s
  obtain ⟨hp, c, hc, hended⟩ := h
  dsimp only at hp hc
  subst hp hc
  refine ⟨⟨.compressor c, true, 0, false⟩, ?_, rfl, c, rfl, hended⟩
  simp only [Session.process?, Codec.process?, Compressor.process_of_ended hended]
  rfl

theorem Line.call?_of_over {l' : Line} {answer : Except Error Step} (h : l.session.Over)
    (hcall : l.call? input = some (answer, l')) : answer = .ok .ended ∧ l'.session.Over := by
  simp only [Line.call?, Option.bind_eq_bind, Option.bind_eq_some_iff] at hcall
  obtain ⟨⟨piece, out⟩, -, room, -, ⟨result, session⟩, hprocess, hrest⟩ := hcall
  obtain ⟨s', hended, hover⟩ := h.process? input room
  cases hprocess.symm.trans hended
  simp only [Option.bind_eq_some_iff] at hrest
  obtain ⟨piece', -, hrest⟩ := hrest
  cases hrest
  exact ⟨rfl, hover⟩

theorem Line.feed?_of_over (h : l.session.Over) (byte : UInt8) (more : List UInt8) :
    l.feed? calls (byte :: more) = none := by
  induction calls generalizing l with
  | zero => rfl
  | succ calls ih =>
    rw [Line.feed?]
    cases hcall : l.call? (byte :: more) with
    | none => rfl
    | some answered =>
      obtain ⟨answer, l'⟩ := answered
      obtain ⟨rfl, hover⟩ := Line.call?_of_over h hcall
      exact ih hover

theorem Session.compressAll?_of_over (h : s.Over) (hne : input ≠ []) :
    s.compressAll? calls input chunk = none := by
  obtain ⟨byte, more, rfl⟩ := List.exists_cons_of_ne_nil hne
  obtain ⟨-, c, hc, -⟩ := id h
  rw [Session.compressAll?, hc]
  cases hpiece : Chunk.start? chunk (max chunk 1) with
  | none => rfl
  | some piece =>
    have hfeed : Line.feed? calls ⟨s, piece, #[]⟩ (byte :: more) = none :=
      Line.feed?_of_over h byte more
    simp only [Codec.mode, ne_eq, not_true_eq_false, if_false, Option.bind_eq_bind,
      Option.bind_some, hfeed, Option.bind_none]

end Machine

/-- No message comes to an answer behind the end of a stream. -/
theorem compression_never_returns_behind_end :
    ∃ answers m, Comes (fun calls => replies? (Machine.Session.use? calls)
        (.start ⟨.portable, .compress, 0, true⟩) [.process [] 64]) (answers, m) ∧
      ∀ calls chunk input, input ≠ [] → m.compressAll? calls input chunk = none :=
  ⟨_, _, comes_of_eq fun _ => rfl, fun _ _ _ hne =>
    Machine.Session.compressAll?_of_over ⟨rfl, _, rfl, by decide +kernel⟩ hne⟩

/-- There is no answer for a chunk that does not fit in a buffer. -/
theorem compression_stops_beyond_maxSize :
    ¬ ∃ answer m, Comes (fun calls =>
      (Machine.Session.start ⟨.portable, .compress, 0, true⟩).compressAll? calls [] (2 ^ 63))
      (answer, m) := by
  rintro ⟨answer, m, n, hn⟩
  cases hn n (Nat.le_refl n)

end Conduit
