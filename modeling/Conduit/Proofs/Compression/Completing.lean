import Conduit.Proofs.Compression.Conforming
import Conduit.Proofs.Compression.Using
import Conduit.Proofs.Deflate.Appending
import Conduit.Proofs.Deflate.Stalling

namespace Conduit

open Bits Deflate Relation

/-- With calls enough, the run is over and this is what it has done and the session that it
leaves. -/
def Schedule.Leaves (s : Schedule) (session : Session) (input : List UInt8) (t : Trace)
    (after : Session) : Prop :=
  t.Over ∧ ∃ n, ∀ calls, n ≤ calls → s.run calls 0 session (.start input) = (t, after)

/-- Some schedule reads all of this input as one stream, with this output. -/
def Completes (raw : Bool) (stream out : List UInt8) : Prop :=
  ∃ level session, ∃ (s : Schedule) (t : Trace),
    Session.start ⟨.portable, .decompress, level, raw⟩ = .ok session ∧ s.Feeds ∧
      s.Ends session stream t ∧ t.finished = true ∧ t.consumed = stream.length ∧
      t.output.toList = out

theorem Session.sight_of_process {s s' : Session} {input : List UInt8} {room : Nat} {step : Step}
    (h : s.process input room = (.ok step, s')) (answer : Except Error (Option Step)) :
    s'.sight answer = ⟨answer, step.finished, step.consumed, false⟩ := by
  rw [process] at h
  split at h
  · cases h
  · split at h <;> cases h
    rfl

section Over

variable {s : Schedule} {session : Session} {input : List UInt8} {output : Array UInt8}
  {made : Array (Nat × Nat)} {left : List UInt8} {calls k : Nat}

theorem Trace.not_over (output : Array UInt8) (made : Array (Nat × Nat)) (left : List UInt8) :
    ¬ Trace.Over ⟨output, made, left, false, none⟩ := by
  rintro (h | h)
  · cases h
  · exact h rfl

theorem Schedule.Offers.run_eq_of_over (h : s.Offers)
    (ho : (s.run calls k session ⟨output, made, left, false, none⟩).1.Over) {more : Nat}
    (hm : calls ≤ more) :
    s.run more k session ⟨output, made, left, false, none⟩ =
      s.run calls k session ⟨output, made, left, false, none⟩ := by
  induction calls generalizing k session output made left more with
  | zero => exact absurd ho (Trace.not_over _ _ _)
  | succ calls ih =>
    obtain ⟨more, rfl⟩ := Nat.exists_eq_add_of_le' (Nat.le_of_add_left_le hm)
    rcases hp : session.process (s.offer k left) (s.room k) with ⟨error | step, session'⟩
    · rw [h.run_of_error hp, h.run_of_error hp]
    · rw [h.run_of_ok hp] at ho
      rw [h.run_of_ok hp, h.run_of_ok hp]
      split
      · rfl
      next hf =>
        rw [if_neg hf] at ho
        exact ih ho (Nat.le_of_succ_le_succ hm)

theorem Schedule.Ends.leaves (h : s.Ends session input t) (hs : s.Offers) :
    ∃ after, s.Leaves session input t after := by
  obtain ⟨ho, n, hn⟩ := h
  refine ⟨(s.run n 0 session (.start input)).2, ho, n, fun calls hcalls => ?_⟩
  have hover : (s.run n 0 session (.start input)).1.Over := (hn n (Nat.le_refl n)).symm ▸ ho
  rw [Trace.start] at hover ⊢
  rw [hs.run_eq_of_over hover hcalls, ← hn n (Nat.le_refl n)]
  rfl

theorem Schedule.Ends.unique {t u : Trace} (ht : s.Ends session input t)
    (hu : s.Ends session input u) : t = u := by
  obtain ⟨-, m, hm⟩ := ht
  obtain ⟨-, n, hn⟩ := hu
  rw [← hm (max m n) (Nat.le_max_left m n), ← hn (max m n) (Nat.le_max_right m n)]

inductive Schedule.Last (s : Schedule) (t : Trace) (after : Session) : Prop
  | finished {d : Decompressor} (ended : d.cursor.stage.isEnded = true)
      (runs : after.Runs (.decompressor d)) (finished : t.finished = true)
      (error : t.error? = none)
  | failed {d d' : Decompressor} {k : Nat} {fault : DecompressFault}
      (answer : d.process (s.offer k t.left) (s.room k) = (.error fault, d'))
      (poisoned : after.poisoned = true) (finished : t.finished = false)
      (error : t.error? = some (Codec.decompressError fault))

theorem Schedule.Offers.last (h : s.Offers) {d : Decompressor} (hr : session.Runs (.decompressor d))
    (ho : (s.run calls k session ⟨output, made, left, false, none⟩).1.Over) :
    s.Last (s.run calls k session ⟨output, made, left, false, none⟩).1
      (s.run calls k session ⟨output, made, left, false, none⟩).2 := by
  induction calls generalizing k session output made left d with
  | zero => exact absurd ho (Trace.not_over _ _ _)
  | succ calls ih =>
    rcases hp : d.process (s.offer k left) (s.room k) with ⟨fault | step, d'⟩
    · obtain ⟨session', hsession⟩ := hr.process_error (Codec.process_decompressor_error hp)
      rw [h.run_of_error hsession]
      exact .failed hp (Session.poisoned_of_process hsession) rfl rfl
    · obtain ⟨session', hsession, hr'⟩ := hr.process_ok (Codec.process_decompressor hp)
      rw [h.run_of_ok hsession] at ho ⊢
      split
      next hf => exact .finished ((Decompressor.isEnded_of_process hp).trans hf) hr' rfl rfl
      next hf =>
        rw [if_neg hf] at ho
        exact ih hr' ho

theorem Schedule.Leaves.last {after : Session} (h : s.Leaves session input t after)
    (hs : s.Offers) {d : Decompressor} (hr : session.Runs (.decompressor d)) :
    s.Last t after := by
  obtain ⟨ho, n, hn⟩ := h
  have hrun := hn n (Nat.le_refl n)
  rw [Trace.start] at hrun
  have hover : (s.run n 0 session ⟨#[], #[], input, false, none⟩).1.Over := by rwa [hrun]
  have hlast := hs.last hr hover
  rwa [hrun] at hlast

end Over

theorem Session.Runs.replies_ended {s : Session} {d : Decompressor}
    (h : s.Runs (.decompressor d)) (he : d.cursor.stage.isEnded = true) {acts : List Session.Act}
    (hacts : .reset ∉ acts) :
    (replies Session.act s acts).1 =
      List.replicate acts.length ⟨.ok (some .ended), true, 0, false⟩ := by
  induction acts generalizing s with
  | nil => rfl
  | cons a acts ih =>
    rw [List.mem_cons, not_or] at hacts
    cases a with
    | reset => exact absurd rfl hacts.1
    | call input room =>
      obtain ⟨s', hs', hr⟩ := h.process_ok
        (Codec.process_decompressor (Decompressor.process_of_isEnded he input room))
      have hact : s.act (.call input room) = (⟨.ok (some .ended), true, 0, false⟩, s') := by
        rw [act, hs']
        exact Prod.ext (Session.sight_of_process hs' _) rfl
      rw [replies_cons, hact, ih hr hacts.2, List.length_cons, List.replicate_succ]

section Complete

variable {raw : Bool} {stream out more : List UInt8}

theorem runs_fresh (level : Nat) (raw : Bool) :
    (Session.fresh ⟨.portable, .decompress, level, raw⟩).Runs (.decompressor (.start !raw)) :=
  ⟨rfl, rfl, rfl⟩

/-- What stands behind the input does not change where a reading of it starts. -/
theorem precedes_opening (framed : Bool) (input more : List UInt8) :
    (opening framed input).Precedes more (opening framed (input ++ more)) := by
  apply Cursor.precedes_of_holds _ (BitReader.holds_empty.push input)
  · rw [List.nil_append, ← ofBytes_append]
    exact BitReader.holds_empty.push (input ++ more)
  · cases framed <;> exact trivial

/-- The whole reading of one complete stream ends within its last byte. -/
theorem completes_iff : Completes raw stream out ↔
    ∃ e bits, Halts (!raw) (opening (!raw) stream) .ended e ∧ e.history.toList = out ∧
      e.reader.Holds bits ∧ bits.length < 8 := by
  constructor
  · rintro ⟨level, session, s, t, hstart, hs, hends, hfinished, hconsumed, hout⟩
    obtain ⟨session', t', hstart', hends', hshows⟩ := hs.ends level raw stream
    cases hstart.symm.trans hstart'
    obtain rfl := hends.unique hends'
    cases hshows with
    | finished halts output holds length consumed _ _ =>
      have hleft : t.left = [] := List.length_eq_zero_iff.mp (by omega)
      rw [hleft, ofBytes_nil, List.append_nil] at holds
      exact ⟨_, _, halts, output.symm.trans hout, holds, length⟩
    | failed _ _ _ _ unfinished _ => cases hfinished.symm.trans unfinished
  · rintro ⟨e, bits, hhalts, hout, hholds, hlength⟩
    have hs : Schedule.Feeds ⟨fun _ => none, fun _ => 1, true⟩ := ⟨⟨by simp, rfl⟩, by simp⟩
    obtain ⟨session, t, hstart, hends, hshows⟩ := hs.ends 0 raw stream
    refine ⟨0, session, _, t, hstart, hs, hends, ?_⟩
    cases hshows with
    | finished halts output holds length consumed finished _ =>
      obtain ⟨-, rfl⟩ := hhalts.unique halts
      have hlen := congrArg List.length (hholds.unique holds)
      rw [List.length_append, length_ofBytes] at hlen
      exact ⟨finished, by omega, output.trans hout⟩
    | failed halts reason _ _ _ _ =>
      obtain ⟨rfl, -⟩ := hhalts.unique halts
      cases reason

theorem Trace.Shows.trailing {t : Trace} {e : Cursor} {bits : List Bool} {tail : List UInt8}
    (h : t.Shows (!raw) (opening (!raw) (stream ++ tail)) (stream ++ tail).length)
    (hh : Halts (!raw) (opening (!raw) stream) .ended e) (hr : e.reader.Holds bits)
    (hb : bits.length < 8) :
    t.finished = true ∧ t.error? = none ∧ t.output.toList = e.history.toList ∧
      t.consumed = stream.length ∧ t.left = tail := by
  obtain ⟨e', hh', bits', hm⟩ := (precedes_opening (!raw) stream tail).halts_ended hh
  cases hm.holds.unique hr
  cases h with
  | finished halts output holds length consumed finished error =>
    obtain ⟨-, rfl⟩ := hh'.unique halts
    have hbits := hm.whole.unique holds
    have hlen := congrArg List.length hbits
    rw [List.length_append, List.length_append, length_ofBytes, length_ofBytes] at hlen
    have hleft : t.left = tail := by
      obtain ⟨-, htail⟩ := List.append_inj hbits (by omega)
      exact (ofBytes_inj htail).symm
    rw [hleft, List.length_append] at consumed
    exact ⟨finished, error, output.trans (congrArg Array.toList hm.history_eq), by omega, hleft⟩
  | failed halts reason _ _ _ _ =>
    obtain ⟨rfl, -⟩ := hh'.unique halts
    cases reason

/-- A session takes a stream up to its last byte, and neither what follows nor any later call
matters. -/
theorem nothing_taken_behind_stream (h : Completes raw stream out) (tail : List UInt8) (level : Nat)
    {s : Schedule} (hs : s.Feeds) :
    ∃ session t after, Session.start ⟨.portable, .decompress, level, raw⟩ = .ok session ∧
      s.Leaves session (stream ++ tail) t after ∧ t.finished = true ∧ t.error? = none ∧
      t.output.toList = out ∧ t.consumed = stream.length ∧ t.left = tail ∧
      ∀ acts : List Session.Act, .reset ∉ acts →
        (replies Session.act after acts).1 =
          List.replicate acts.length ⟨.ok (some .ended), true, 0, false⟩ := by
  obtain ⟨e, bits, hhalts, hout, hholds, hlength⟩ := completes_iff.mp h
  obtain ⟨session, t, hstart, hends, hshows⟩ := hs.ends level raw (stream ++ tail)
  obtain ⟨after, hleaves⟩ := hends.leaves hs.toOffers
  obtain ⟨hfinished, herror, houtput, hconsumed, hleft⟩ := hshows.trailing hhalts hholds hlength
  refine ⟨session, t, after, hstart, hleaves, hfinished, herror, houtput.trans hout, hconsumed,
    hleft, fun acts hacts => ?_⟩
  obtain rfl := Session.eq_fresh_of_start hstart
  cases hleaves.last hs.toOffers (runs_fresh level raw) with
  | finished ended runs _ => exact runs.replies_ended ended hacts
  | failed _ _ unfinished _ => cases hfinished.symm.trans unfinished

theorem completes_stream {blocks : List Format.Block} (hne : blocks ≠ [])
    (hlegal : ∀ block ∈ blocks, block.Legal) (he : Format.expand blocks = some out) :
    Completes true (Format.stream blocks) out :=
  completes_iff.mpr (halts_stream hne hlegal he)

theorem completes_stored_pair : Completes true [1, 2, 0, 253, 255, 1, 2] [1, 2] := by
  have hbytes : Format.stream [.stored [1, 2]] = [1, 2, 0, 253, 255, 1, 2] := by decide +kernel
  rw [← hbytes]
  refine completes_stream (by simp) ?_ rfl
  intro block hb
  obtain rfl := List.mem_singleton.mp hb
  exact Nat.le_of_ble_eq_true rfl

/-- One byte a call, with another stream behind. -/
theorem nothing_taken_behind_stored_pair :
    Completes true [1, 2, 0, 253, 255, 1, 2] [1, 2] ∧
      ∃ session t after, Session.start ⟨.portable, .decompress, 0, true⟩ = .ok session ∧
        Schedule.Leaves ⟨fun _ => some 1, fun _ => 1, true⟩ session
          ([1, 2, 0, 253, 255, 1, 2] ++ [3, 0]) t after ∧
        t.finished = true ∧ t.error? = none ∧ t.output.toList = [1, 2] ∧ t.consumed = 7 ∧
        t.left = [3, 0] ∧
        ∀ acts : List Session.Act, .reset ∉ acts →
          (replies Session.act after acts).1 =
            List.replicate acts.length ⟨.ok (some .ended), true, 0, false⟩ :=
  ⟨completes_stored_pair,
    nothing_taken_behind_stream completes_stored_pair [3, 0] 0 ⟨⟨by simp, rfl⟩, by simp⟩⟩

end Complete

end Conduit
