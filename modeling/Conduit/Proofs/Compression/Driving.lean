import Conduit.Proofs.Compression.Calling
import Conduit.Proofs.Deflate.Calls

namespace Conduit

open Bits Deflate Relation

def opening (framed : Bool) (input : List UInt8) : Cursor :=
  ⟨BitReader.empty.push input, (Decompressor.start framed).cursor.stage, #[]⟩

theorem tracks_start (framed : Bool) (input : List UInt8) :
    (Decompressor.start framed).Tracks framed input (opening framed input) where
  framed_eq := rfl
  running := by cases framed <;> rfl
  sum_eq := (Adler.update_nil _).symm
  mirrors := by
    refine ⟨[], ⟨BitReader.holds_empty, BitReader.holds_empty.push input, rfl, ?_, Nat.le_refl _,
      rfl, #[], rfl, Or.inl rfl⟩, Or.inl (by decide)⟩
    cases framed <;> exact trivial

/-- The trace of a run agrees with the reading of the whole input, `total` bytes long, from `c`. -/
inductive Trace.Shows (framed : Bool) (c : Cursor) (total : Nat) (t : Trace) : Prop
  | finished {e : Cursor} {bits : List Bool} (halts : Halts framed c .ended e)
      (output : t.output.toList = e.history.toList)
      (holds : e.reader.Holds (bits ++ ofBytes t.left)) (length : bits.length < 8)
      (consumed : t.consumed + t.left.length = total)
      (finished : t.finished = true) (error : t.error? = none)
  | failed {pause : Pause} {e : Cursor} {fault : DecompressFault} (halts : Halts framed c pause e)
      (reason : pause.fault? = some fault) (reported : fault ≠ .flaw (.code .outOfRange))
      (output : t.output.toList <+: e.history.toList)
      (finished : t.finished = false)
      (error : t.error? = some (Codec.decompressError fault))

variable {framed : Bool} {c : Cursor} {total : Nat} {t : Trace} {s : Schedule}

theorem Trace.Shows.over (h : t.Shows framed c total) : t.Over := by
  cases h with
  | finished _ _ _ _ _ hf _ => exact Or.inl hf
  | failed _ _ _ _ _ he =>
    right
    rw [he]
    exact Option.some_ne_none _

theorem Trace.Shows.of_leads {e : Cursor} (h : t.Shows framed e total)
    (hl : ReflTransGen (Leads framed) c e) : t.Shows framed c total := by
  cases h with
  | finished hh ho hr hb hc hf he => exact .finished (.of_leads hl hh) ho hr hb hc hf he
  | failed hh hr hp ho hf he => exact .failed (.of_leads hl hh) hr hp ho hf he

section Run

variable {session : Session} {output : Array UInt8} {made : Array (Nat × Nat)} {left : List UInt8}

theorem Schedule.Feeds.shows (h : s.Feeds) (k : Nat) {d : Decompressor}
    (hd : d.Tracks framed left c) (hr : session.Runs (.decompressor d))
    (ho : output.toList = c.history.toList)
    (ht : (made.toList.map Prod.snd).sum + left.length = total) :
    ∃ t : Trace, t.Shows framed c total ∧ ∃ n, ∀ calls, n ≤ calls →
      (s.run calls k session ⟨output, made, left, false, none⟩).1 = t := by
  induction hm : d.backlog + (8 * maxMatch + 1) * left.length using Nat.strong_induction_on
    generalizing d session left output made k c with
  | _ m ih =>
    have hanswers := hd.answers (s.offered k left) (h.offer_eq_nil k) (h.room k)
    rcases hp : d.process (s.offer k left) (s.room k) with ⟨fault | step, d'⟩
    · rw [hp] at hanswers
      obtain ⟨hfault, pause, e, hhalts, hpause, hprefix⟩ := hanswers
      obtain ⟨session', hsession⟩ := hr.process_error (Codec.process_decompressor_error hp)
      rw [← ho] at hprefix
      refine ⟨⟨output, made, left, false, some (Codec.decompressError fault)⟩,
        .failed hhalts hpause hfault hprefix rfl rfl, 1, fun calls hcalls => ?_⟩
      obtain ⟨calls, rfl⟩ := Nat.exists_eq_add_of_le' hcalls
      rw [h.run_of_error hsession]
    · rw [hp] at hanswers
      obtain ⟨hc, hanswers⟩ := hanswers
      obtain ⟨session', hsession, hr'⟩ := hr.process_ok (Codec.process_decompressor hp)
      have htotal : ((made.push (step.produced, step.consumed)).toList.map Prod.snd).sum +
          (left.drop step.consumed).length = total := by
        rw [Array.toList_push, List.map_append, List.sum_append, List.length_drop,
          List.map_singleton, List.sum_singleton]
        omega
      have houtput : (output ++ step.output).toList = c.history.toList ++ step.output := by
        rw [Array.toList_appendList, ho]
      by_cases hf : step.finished
      · rw [if_pos hf] at hanswers
        obtain ⟨e, bits, hhalts, he, hholds, hbits⟩ := hanswers
        refine ⟨⟨output ++ step.output, made.push (step.produced, step.consumed),
          left.drop step.consumed, true, none⟩, .finished hhalts (houtput.trans he.symm) hholds
          hbits htotal rfl rfl, 1, fun calls hcalls => ?_⟩
        obtain ⟨calls, rfl⟩ := Nat.exists_eq_add_of_le' hcalls
        rw [h.run_of_ok hsession, if_pos hf]
      · rw [if_neg hf] at hanswers
        obtain ⟨e, hleads, he, hd', heffect, hbacklog⟩ := hanswers
        -- every call takes or gives something, and both are paid for
        have hlt : d'.backlog + (8 * maxMatch + 1) * (left.drop step.consumed).length < m := by
          rw [List.length_drop]
          simp only [maxMatch] at hbacklog hm ⊢
          omega
        obtain ⟨t, hshows, n, hn⟩ := ih _ hlt (k + 1) hd' hr' (houtput.trans he.symm) htotal rfl
        refine ⟨t, hshows.of_leads hleads, n + 1, fun calls hcalls => ?_⟩
        obtain ⟨calls, rfl⟩ := Nat.exists_eq_add_of_le' (Nat.le_of_add_left_le hcalls)
        rw [h.run_of_ok hsession, if_neg hf]
        exact hn calls (by omega)

end Run

theorem Schedule.Feeds.ends (h : s.Feeds) (level : Nat) (raw : Bool) (input : List UInt8) :
    ∃ session t, Session.start ⟨.portable, .decompress, level, raw⟩ = .ok session ∧
      s.Ends session input t ∧ t.Shows (!raw) (opening (!raw) input) input.length := by
  have hr : Session.Runs ⟨⟨.portable, .decompress, level, raw⟩, .decompressor (.start !raw),
      false, 0, false⟩ (.decompressor (.start !raw)) := ⟨rfl, rfl, rfl⟩
  have hout : (#[] : Array UInt8).toList = (opening (!raw) input).history.toList := rfl
  have hmade : (((#[] : Array (Nat × Nat)).toList.map Prod.snd).sum + input.length) =
      input.length := Nat.zero_add _
  obtain ⟨t, hshows, hn⟩ := h.shows 0 (tracks_start (!raw) input) hr hout hmade
  exact ⟨_, t, rfl, ⟨hshows.over, hn⟩, hshows⟩

/-- Both runs finish, with the same output and as much input taken, or both fail for the same
reason, and one has given out a beginning of what the other has. -/
inductive Trace.Agrees (t u : Trace) : Prop
  | finished (finished : t.finished = true ∧ u.finished = true) (output : t.output = u.output)
      (consumed : t.consumed = u.consumed)
  | failed {fault : Fault}
      (error : t.error? = some (.fault fault) ∧ u.error? = some (.fault fault))
      (output : t.output.toList <+: u.output.toList ∨ u.output.toList <+: t.output.toList)

theorem decompressError_eq_fault {fault : DecompressFault} (h : fault ≠ .flaw (.code .outOfRange)) :
    ∃ f, Codec.decompressError fault = .fault f := by
  cases fault with
  | noProgress => exact ⟨_, rfl⟩
  | flaw flaw =>
    refine ⟨.flaw flaw, Codec.decompressError_flaw ?_⟩
    rintro rfl
    exact h rfl

theorem Trace.Shows.agrees {u : Trace} (ht : t.Shows framed c total) (hu : u.Shows framed c total) :
    t.Agrees u := by
  cases ht with
  | finished hh ho hr hb hc hf he =>
    cases hu with
    | finished hh' ho' hr' hb' hc' hf' he' =>
      obtain ⟨-, rfl⟩ := hh.unique hh'
      have hlen := congrArg List.length (hr.unique hr')
      simp only [List.length_append, length_ofBytes] at hlen
      exact .finished ⟨hf, hf'⟩ (Array.toList_inj.mp (ho.trans ho'.symm)) (by omega)
    | failed hh' hr' hp' ho' hf' he' =>
      obtain ⟨rfl, -⟩ := hh.unique hh'
      cases hr'
  | failed hh hr hp ho hf he =>
    cases hu with
    | finished hh' ho' hr' hb' hc' hf' he' =>
      obtain ⟨rfl, -⟩ := hh.unique hh'
      cases hr
    | failed hh' hr' hp' ho' hf' he' =>
      obtain ⟨rfl, rfl⟩ := hh.unique hh'
      cases hr.symm.trans hr'
      obtain ⟨f, hfault⟩ := decompressError_eq_fault hp
      rw [hfault] at he he'
      exact .failed ⟨he, he'⟩ (List.prefix_or_prefix_of_prefix ho ho')

/-- What a decompressing session comes to does not depend on how it is driven. -/
theorem decompression_independent_of_calls (input : List UInt8) (raw : Bool) (level : Nat)
    {s u : Schedule} (hs : s.Feeds) (hu : u.Feeds) :
    ∃ session, Session.start ⟨.portable, .decompress, level, raw⟩ = .ok session ∧
      ∃ t v, s.Ends session input t ∧ u.Ends session input v ∧ t.Agrees v := by
  obtain ⟨session, t, hstart, ht, htshows⟩ := hs.ends level raw input
  obtain ⟨session', v, hstart', hv, hvshows⟩ := hu.ends level raw input
  rw [hstart] at hstart'
  cases hstart'
  exact ⟨session, hstart, t, v, ht, hv, htshows.agrees hvshows⟩

/-- One byte a call into room for one, against all at once. -/
theorem decompression_bytewise_as_whole :
    ∃ session, Session.start ⟨.portable, .decompress, 6, true⟩ = .ok session ∧
      ∃ t v, Schedule.Ends ⟨fun _ => some 1, fun _ => 1, true⟩ session [0x03, 0x00] t ∧
        Schedule.Ends ⟨fun _ => none, fun _ => 64, true⟩ session [0x03, 0x00] v ∧ t.Agrees v :=
  decompression_independent_of_calls [0x03, 0x00] true 6
    ⟨⟨by simp, rfl⟩, by simp⟩ ⟨⟨by simp, rfl⟩, by simp⟩

end Conduit
