import Conduit.Proofs.Compression.Beginning
import Conduit.Proofs.Compression.Poisoning
import Conduit.Proofs.Deflate.Sparing

namespace Conduit

open Bits Deflate Relation

/-- What a stream has taken and given out so far. -/
structure Passed where
  taken : List UInt8 := []
  given : List UInt8 := []

namespace Passed

def called (t : Passed) (input : List UInt8) (step : Step) : Passed :=
  ⟨t.taken ++ input.take step.consumed, t.given ++ step.output⟩

theorem called_ended (t : Passed) (input : List UInt8) : t.called input .ended = t := by
  rw [called, Step.ended, List.take_zero, List.append_nil, List.append_nil]

/-- With one more use that was answered like this. A use that fails changes nothing. -/
def after (t : Passed) : Session.Act → Except Error (Option Step) → Passed
  | .call input _, .ok (some step) => t.called input step
  | .reset, .ok _ => {}
  | _, .ok none => t
  | _, .error _ => t

def through : Passed → List Session.Act → List Session.Sight → Passed :=
  follow fun t a sight => t.after a sight.answer

end Passed

section Decompressor

variable {raw : Bool} {t : Passed} {input : List UInt8} {room : Nat} {d d' : Decompressor}
  {step : Step}

/-- The reading of all that was taken has led to where the decompressor is, and to this output. -/
def Deflate.Decompressor.Reads (d : Decompressor) (raw : Bool) (t : Passed) : Prop :=
  ∃ c, ReflTransGen (Leads (!raw)) (opening (!raw) t.taken) c ∧ d.Tracks (!raw) [] c ∧
    c.history.toList = t.given

namespace Deflate.Decompressor

theorem reads_start (raw : Bool) : (start !raw).Reads raw {} :=
  ⟨_, .refl, tracks_start (!raw) [], rfl⟩

theorem Reads.onward (h : d.Reads raw t) (input : List UInt8) :
    ∃ c, ReflTransGen (Leads (!raw)) (opening (!raw) (t.taken ++ input)) c ∧
      d.Tracks (!raw) input c ∧ c.history.toList = t.given := by
  obtain ⟨c, hleads, htracks, hgiven⟩ := h
  obtain ⟨whole, hwhole, hp⟩ := (precedes_opening (!raw) t.taken input).leadsTo hleads
  exact ⟨whole, hwhole, htracks.onward hp, hp.history_eq ▸ hgiven⟩

theorem exists_back {e : Cursor} {bits : List Bool} (consumed : Nat)
    (h : ReflTransGen (Leads (!raw)) (opening (!raw) (t.taken ++ input)) e)
    (hr : e.reader.Holds (bits ++ ofBytes (input.drop consumed))) :
    ∃ c, ReflTransGen (Leads (!raw)) (opening (!raw) (t.taken ++ input.take consumed)) c ∧
      c.Precedes (input.drop consumed) e := by
  have hp := precedes_opening (!raw) (t.taken ++ input.take consumed) (input.drop consumed)
  rw [List.append_assoc, List.take_append_drop] at hp
  apply hp.leadsTo_back h
  rw [hr.available, List.length_append, length_ofBytes]
  exact Nat.le_add_left _ _

inductive Fares (raw : Bool) (t : Passed) (input : List UInt8) (room : Nat) :
    Except DecompressFault Step × Decompressor → Prop
  | finished {step : Step} {d : Decompressor} (finished : step.finished = true)
      (completes : Completes raw (t.called input step).taken (t.called input step).given) :
      Fares raw t input room (.ok step, d)
  | reading {step : Step} {d : Decompressor} (unfinished : step.finished = false)
      (reads : d.Reads raw (t.called input step)) : Fares raw t input room (.ok step, d)
  | failed {fault : DecompressFault} {d : Decompressor} {pause : Pause} {e : Cursor}
      (halts : Halts (!raw) (opening (!raw) (t.taken ++ input)) pause e)
      (reason : pause.fault? = some fault) : Fares raw t input room (.error fault, d)
  | stuck {d : Decompressor} (full : room = 0) : Fares raw t input room (.error .noProgress, d)

theorem Reads.fares (h : d.Reads raw t) (input : List UInt8) (room : Nat) :
    Fares raw t input room (d.process input room) := by
  obtain ⟨c, hleads, htracks, hgiven⟩ := h.onward input
  have hanswers := htracks.answers_any (List.prefix_refl input) id room
  rcases hp : d.process input room with ⟨fault | step, d'⟩
  · rw [hp] at hanswers
    obtain ⟨-, pause, e, hhalts, hreason, -⟩ | ⟨hroom, hstuck⟩ := hanswers
    · exact .failed (.of_leads hleads hhalts) hreason
    · cases hstuck
      exact .stuck hroom
  · rw [hp] at hanswers
    obtain ⟨hconsumed, hanswers⟩ := hanswers.resolve_right (by rintro ⟨-, ⟨⟩⟩)
    cases hf : step.finished with
    | true =>
      rw [if_pos hf] at hanswers
      obtain ⟨e, bits, hhalts, hout, hholds, hlength⟩ := hanswers
      refine .finished hf ?_
      have hwhole : Halts (!raw) (opening (!raw)
          (t.taken ++ input.take step.consumed ++ input.drop step.consumed)) .ended e := by
        rw [List.append_assoc, List.take_append_drop]
        exact .of_leads hleads hhalts
      rw [Passed.called, ← hgiven, ← hout]
      exact completes_of_halts hwhole hholds hlength
    | false =>
      rw [hf, if_neg (by decide)] at hanswers
      obtain ⟨e, hmore, hout, htracks', -⟩ := hanswers
      obtain ⟨bits, hm, -⟩ := htracks'.mirrors
      obtain ⟨c', hc', hp'⟩ := exists_back step.consumed (hleads.trans hmore) hm.whole
      refine .reading hf ⟨c', hc', htracks'.back hp', ?_⟩
      rw [← hp'.history_eq, hout, hgiven]
      rfl

/-- A call that leaves room has read all that it looks at. -/
theorem Reads.starved (h : d.Reads raw t) (hp : d.process input room = (.ok step, d'))
    (hf : step.finished = false) (hroom : step.produced < room) :
    step.consumed = min (appetite room) input.length ∧
      ∃ e, Halts (!raw) (opening (!raw) (t.called input step).taken) .needInput e ∧
        e.history.toList = (t.called input step).given := by
  obtain ⟨c, hleads, htracks, hgiven⟩ := h.onward input
  obtain ⟨hconsumed, whole, bits, hmore, hout, hholds, hungry⟩ := htracks.starved hp hf hroom
  obtain ⟨e, he, hprecedes⟩ := exists_back step.consumed (hleads.trans hmore) hholds
  refine ⟨hconsumed, e, ⟨nofun, e, he, ?_⟩, ?_⟩
  · obtain ⟨bits', hm⟩ := hprecedes
    obtain rfl := List.append_cancel_right (hm.whole.unique hholds)
    apply tick_of_hungry hm.holds
    rwa [← hm.stage, ← hm.history_eq]
  · rw [← hprecedes.history_eq, hout, hgiven]
    rfl

end Deflate.Decompressor

end Decompressor

section Session

variable {p : Profile} {t : Passed} {s : Session}

inductive Session.Past (p : Profile) (t : Passed) (s : Session) : Prop
  | poisoned (poisoned : s.poisoned = true)
  | reading {d : Decompressor} (runs : s.Runs (.decompressor d)) (reads : d.Reads p.raw t)
  | ended {d : Decompressor} (runs : s.Runs (.decompressor d))
      (ended : d.cursor.stage.isEnded = true) (completes : Completes p.raw t.taken t.given)

namespace Session

section Answer

variable {d : Decompressor} {input : List UInt8} {room : Nat} {step : Step}

theorem Runs.answer_eq (h : s.Runs (.decompressor d)) (input : List UInt8) (room : Nat) :
    (s.process input room).1 =
      (d.process input room).1.mapError Codec.decompressError :=
  h.answer input room

theorem Runs.exists_process (h : s.Runs (.decompressor d))
    (hok : (s.process input room).1 = .ok step) :
    ∃ d', d.process input room = (.ok step, d') := by
  rw [h.answer_eq] at hok
  rcases hp : d.process input room with ⟨fault | step', d'⟩ <;> rw [hp] at hok
  · cases hok
  · cases hok
    exact ⟨d', rfl⟩

end Answer

theorem past_fresh (hb : p.backend = .portable) (hm : p.mode = .decompress) :
    (fresh p).Past p {} := by
  obtain ⟨backend, mode, level, raw⟩ := p
  obtain rfl : backend = .portable := hb
  obtain rfl : mode = .decompress := hm
  exact .reading (runs_fresh level raw) (Decompressor.reads_start raw)

theorem Past.call (h : s.Past p t) (input : List UInt8) (room : Nat) :
    (s.process input room).2.Past p
      (t.after (.call input room) ((s.process input room).1.map some)) := by
  cases h with
  | poisoned hpoisoned =>
    rw [process_of_poisoned hpoisoned]
    exact .poisoned hpoisoned
  | @reading d runs reads =>
    have hfares := reads.fares input room
    rcases hp : d.process input room with ⟨fault | step, d'⟩
    · obtain ⟨s', hs⟩ := runs.process_error (Codec.process_decompressor_error hp)
      rw [hs]
      exact .poisoned (poisoned_of_process hs)
    · obtain ⟨s', hs, runs'⟩ := runs.process_ok (Codec.process_decompressor hp)
      rw [hp] at hfares
      rw [hs]
      cases hfares with
      | finished finished completes =>
        exact .ended runs' ((Decompressor.isEnded_of_process hp).trans finished) completes
      | reading unfinished reads' => exact .reading runs' reads'
  | @ended d runs ended completes =>
    have hp := Decompressor.process_of_isEnded ended input room
    obtain ⟨s', hs, runs'⟩ := runs.process_ok (Codec.process_decompressor hp)
    rw [hs]
    change s'.Past p (t.called input .ended)
    rw [Passed.called_ended]
    exact .ended runs' ended completes

theorem Past.completes {input : List UInt8} {room : Nat} {step : Step} (h : s.Past p t)
    (hok : (s.process input room).1 = .ok step) (hf : step.finished = true) :
    Completes p.raw (t.called input step).taken (t.called input step).given := by
  cases h with
  | poisoned poisoned =>
    rw [process_of_poisoned poisoned] at hok
    cases hok
  | reading runs reads =>
    obtain ⟨d', hp⟩ := runs.exists_process hok
    have hfares := reads.fares input room
    rw [hp] at hfares
    cases hfares with
    | finished finished completes => exact completes
    | reading unfinished reads' => cases unfinished.symm.trans hf
  | ended runs ended completes =>
    obtain ⟨d', hp⟩ := runs.exists_process hok
    rw [Decompressor.process_of_isEnded ended] at hp
    cases hp
    rwa [Passed.called_ended]

theorem past_reset (t : Passed) (hs : s.Serves p) (hm : p.mode = .decompress) :
    s.reset.2.Past p (t.after .reset (s.reset.1.map fun _ => none)) := by
  cases hp : s.poisoned with
  | true =>
    rw [reset_of_poisoned hp]
    exact .poisoned hp
  | false =>
    rw [hs.reset_eq hp]
    exact past_fresh hs.backend_eq hm

theorem Past.act (h : s.Past p t) (hs : s.Serves p) (hm : p.mode = .decompress) (a : Act) :
    (s.act a).2.Past p (t.after a (s.act a).1.answer) := by
  cases a with
  | call input room => exact h.call input room
  | reset => exact past_reset t hs hm

theorem Past.acts (h : s.Past p t) (hs : s.Serves p) (hm : p.mode = .decompress)
    (acts : List Act) :
    (replies Session.act s acts).2.Past p (t.through acts (replies Session.act s acts).1) :=
  (follow_replies (R := fun (s : Session) t => s.Past p t ∧ s.Serves p)
    (fun h a => ⟨h.1.act h.2 hm a, h.2.act a⟩) ⟨h, hs⟩ acts).1

end Session

end Session

namespace Machine.Session

variable {p : Profile} {m : Session} {acts : List Conduit.Session.Act}
  {sights : List Conduit.Session.Sight}

theorem exists_past (hb : p.backend = .portable) (hm : p.mode = .decompress)
    (h : replies? act? (.start p) acts = some (sights, m)) :
    ∃ s, m.Shows p s ∧ s.Past p (Passed.through {} acts sights) := by
  obtain ⟨m', hm', hshown⟩ := (shows_fresh hb).acts acts
  cases h.symm.trans hm'
  exact ⟨_, hshown, (Conduit.Session.past_fresh hb hm).acts (Conduit.Session.serves_fresh hb) hm
    acts⟩

end Machine.Session

end Conduit
