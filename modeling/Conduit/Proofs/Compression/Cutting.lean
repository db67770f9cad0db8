import Conduit.Batch.Decompressor
import Conduit.Proofs.Compression.Completing
import Conduit.Proofs.Compression.Keeping
import Conduit.Proofs.Compression.RoundTrip

namespace Conduit

open Bits Deflate Relation

section Reading

variable {framed : Bool} {cut more : List UInt8} {e d : Cursor} {bits : List Bool} {pause : Pause}

/-- A reading that wants input has given out a beginning of what it would go on to give. -/
theorem prefix_of_needInput {c whole : Cursor} (hp : c.Precedes more whole)
    (hh : Halts framed whole .ended e) (hc : Halts framed c .needInput d) :
    d.history.toList <+: e.history.toList := by
  obtain ⟨-, mid, hl, ht⟩ := hc
  have houtcome := outcome_step framed .start 0 (mid.history.size + 1) mid
  rw [tick] at ht
  rw [ht] at houtcome
  cases houtcome
  obtain ⟨whole', hwhole, hp'⟩ := hp.leadsTo hl
  rw [← hp'.history_eq]
  exact prefix_of_halts (hh.after hwhole)

theorem halts_cut (hh : Halts framed (opening framed (cut ++ more)) .ended e)
    (hr : e.reader.Holds bits) (hb : bits.length < 8) (hne : more ≠ [])
    (hc : Halts framed (opening framed cut) pause d) :
    pause = .needInput ∧ d.history.toList <+: e.history.toList := by
  have hp := precedes_opening framed cut more
  cases pause with
  | full => exact absurd rfl hc.1
  | refused flaw =>
    obtain ⟨e', he'⟩ := hp.halts_refused hc
    cases (hh.unique he').1
  | ended =>
    obtain ⟨e', he', bits', hm⟩ := hp.halts_ended hc
    obtain ⟨-, rfl⟩ := hh.unique he'
    have hlen := congrArg List.length (hr.unique hm.whole)
    have hpos := List.length_pos_iff.mpr hne
    rw [List.length_append, length_ofBytes] at hlen
    omega
  | needInput => exact ⟨rfl, prefix_of_needInput hp hh hc⟩

end Reading

theorem eq_noProgress_of_decompressError {fault : DecompressFault}
    (h : Codec.decompressError fault = .fault (.noProgress .decompress)) :
    fault = .noProgress := by
  cases fault with
  | noProgress => rfl
  | flaw flaw =>
    rw [Codec.decompressError.eq_def] at h
    split at h
    · cases h
    next hf =>
      cases hf
      cases h
    · contradiction

section Run

variable {raw : Bool} {cut more out : List UInt8} {e : Cursor} {bits : List Bool}

/-- A run over a stream that is cut short takes all of it and then fails for want of more. -/
theorem Schedule.Feeds.ends_cut
    (hh : Halts (!raw) (opening (!raw) (cut ++ more)) .ended e) (hr : e.reader.Holds bits)
    (hb : bits.length < 8) (hne : more ≠ []) (level : Nat) {s : Schedule} (hs : s.Feeds) :
    ∃ t, s.Ends (.fresh ⟨.portable, .decompress, level, raw⟩) cut t ∧ t.finished = false ∧
      t.error? = some (.fault (.noProgress .decompress)) ∧ t.left = [] ∧
      t.output.toList <+: e.history.toList := by
  obtain ⟨session, t, hstart, hends, hshows⟩ := hs.ends level raw cut
  obtain rfl := Session.eq_fresh_of_start hstart
  obtain ⟨after, hleaves⟩ := hends.leaves hs.toOffers
  refine ⟨t, hends, ?_⟩
  cases hshows with
  | finished halts _ _ _ _ _ _ =>
    obtain ⟨hpause, -⟩ := halts_cut hh hr hb hne halts
    cases hpause
  | failed halts reason _ output finished error =>
    obtain ⟨rfl, hgrows⟩ := halts_cut hh hr hb hne halts
    cases reason
    refine ⟨finished, error, ?_, output.trans hgrows⟩
    cases hleaves.last hs.toOffers (runs_fresh level raw) with
    | finished _ _ done => cases finished.symm.trans done
    | failed answer _ _ error' =>
      cases eq_noProgress_of_decompressError (Option.some.inj (error'.symm.trans error))
      exact hs.offer_eq_nil _ (Decompressor.input_eq_nil_of_noProgress (hs.room _) answer)

theorem Line.Carries.expand_cut {l : Line} (h : l.Carries (.decompressor (.start !raw)) [])
    (hh : Halts (!raw) (opening (!raw) (cut ++ more)) .ended e) (hr : e.reader.Holds bits)
    (hb : bits.length < 8) (hne : more ≠ []) :
    ∃ l', l.expand cut = (.error (.fault (.noProgress .decompress)), [], l') ∧
      l'.session.poisoned = true := by
  have hexpands := Line.Carries.expands (c := opening (!raw) cut) h (tracks_start (!raw) cut)
  generalize l.expand cut = result at hexpands ⊢
  cases hexpands with
  | whole halts _ =>
    obtain ⟨hpause, -⟩ := halts_cut hh hr hb hne halts
    cases hpause
  | broken halts reason starved poisoned =>
    obtain ⟨rfl, -⟩ := halts_cut hh hr hb hne halts
    cases reason
    rw [starved rfl]
    exact ⟨_, rfl, poisoned⟩

theorem decompressAll_cut (hh : Halts (!raw) (opening (!raw) (cut ++ more)) .ended e)
    (hr : e.reader.Holds bits) (hb : bits.length < 8) (hne : more ≠ []) (level : Nat) {chunk : Nat}
    (hc : chunk ≤ Octets.maxSize) :
    ∃ after, (Session.fresh ⟨.portable, .decompress, level, raw⟩).decompressAll cut chunk =
      (.error (.fault (.noProgress .decompress)), after) ∧ after.poisoned = true := by
  obtain ⟨sink, hsink, hlasts, hout⟩ := Sink.exists_whole hc
  have hcarries : Line.Carries ⟨.fresh ⟨.portable, .decompress, level, raw⟩, sink⟩
      (.decompressor (.start !raw)) [] := ⟨runs_fresh level raw, hlasts, congrArg Array.toList hout⟩
  obtain ⟨l, hexpand, hpoisoned⟩ := hcarries.expand_cut hh hr hb hne
  have hmode : (Session.fresh ⟨.portable, .decompress, level, raw⟩).profile.mode = .decompress :=
    rfl
  refine ⟨l.session, ?_, hpoisoned⟩
  rw [Session.decompressAll, if_neg (not_not_intro hmode), hsink]
  dsimp only
  rw [hexpand]
  rfl

end Run

section Batch

variable {p : Profile}

theorem BatchDecompressor.renew_eq {session : Session} (h : session.Serves p)
    (hp : p.mode = .decompress) : renew session = .ok (.fresh p) := by
  rw [renew]
  split
  · rw [h.profile_eq, Session.start, if_neg (by simp [hp])]
    rfl
  next hpoisoned =>
    rw [h.reset_eq (Bool.not_eq_true _ ▸ hpoisoned)]

theorem BatchDecompressor.decode_leaves (hb : p.backend = .portable) (hp : p.mode = .decompress)
    (size floor : Nat) (batch : List UInt8) :
    (decode ⟨.fresh p, size, floor⟩ batch).2 = ⟨.fresh p, size, floor⟩ := by
  rw [decode]
  split
  · rfl
  next sink _ =>
    have hserves := (Session.kept_serves p).expand (l := ⟨.fresh p, sink⟩)
      (Session.serves_fresh hb) batch
    rw [decodeInto]
    dsimp only
    rw [renew_eq hserves hp]
    dsimp only
    split <;> rfl

theorem BatchDecompressor.decodes_leave (hb : p.backend = .portable) (hp : p.mode = .decompress)
    (size floor : Nat) (batches : List (List UInt8)) :
    batches.foldl (fun d batch => (decode d batch).2) ⟨.fresh p, size, floor⟩ =
      ⟨.fresh p, size, floor⟩ := by
  induction batches with
  | nil => rfl
  | cons batch batches ih => rw [List.foldl_cons, decode_leaves hb hp, ih]

/-- What a batch comes to once it has been expanded, of the bytes that came out and those that were
left. -/
def BatchDecompressor.verdict (result : Except Error Unit) (left out : List UInt8) :
    Except PacketError (List (List UInt8)) :=
  match result with
  | .error error => .error (expandError error left)
  | .ok _ => (Frames.split out).mapError .malformed

theorem BatchDecompressor.decode_of_expand {raw : Bool} {size floor : Nat} {sink : Sink}
    (hsink : Sink.start size floor = .ok sink) {batch left : List UInt8}
    {result : Except Error Unit} {l : Line}
    (h : Line.expand ⟨.fresh ⟨.portable, .decompress, 0, raw⟩, sink⟩ batch = (result, left, l)) :
    (decode ⟨.fresh ⟨.portable, .decompress, 0, raw⟩, size, floor⟩ batch).1 =
      verdict result left l.sink.out.toList := by
  have hserves := (Session.kept_serves _).expand
    (l := ⟨.fresh ⟨.portable, .decompress, 0, raw⟩, sink⟩) (Session.serves_fresh rfl) batch
  rw [h] at hserves
  rw [decode]
  dsimp only
  rw [hsink]
  dsimp only
  rw [decodeInto]
  dsimp only
  rw [h]
  dsimp only
  rw [renew_eq hserves rfl]
  cases result <;> rfl

theorem BatchDecompressor.decode_cut {raw : Bool} {cut more : List UInt8} {e : Cursor}
    {bits : List Bool} (hh : Halts (!raw) (opening (!raw) (cut ++ more)) .ended e)
    (hr : e.reader.Holds bits) (hb : bits.length < 8) (hne : more ≠ []) {size : Nat}
    (hsize : size ≤ Octets.maxSize) (floor : Nat) :
    (decode ⟨.fresh ⟨.portable, .decompress, 0, raw⟩, size, floor⟩ cut).1 =
      .error (.malformed .endedEarly) := by
  obtain ⟨sink, hsink, hlasts, hout⟩ := Sink.exists_start hsize floor
  have hcarries : Line.Carries ⟨.fresh ⟨.portable, .decompress, 0, raw⟩, sink⟩
      (.decompressor (.start !raw)) [] := ⟨runs_fresh 0 raw, hlasts, congrArg Array.toList hout⟩
  obtain ⟨l, hexpand, -⟩ := hcarries.expand_cut hh hr hb hne
  rw [decode_of_expand hsink hexpand]
  rfl

end Batch

/-- However this input is read as a stream, all of it is taken, a beginning of `out` comes of it,
and then it is reported as cut short. -/
structure CutShort (raw : Bool) (cut out : List UInt8) : Prop where
  run (level : Nat) {s : Schedule} (hs : s.Feeds) :
    ∃ session t, Session.start ⟨.portable, .decompress, level, raw⟩ = .ok session ∧
      s.Ends session cut t ∧ t.finished = false ∧
      t.error? = some (.fault (.noProgress .decompress)) ∧ t.left = [] ∧
      t.output.toList <+: out
  decompressAll (level : Nat) {chunk : Nat} (hc : chunk ≤ Octets.maxSize) :
    ∃ session after, Session.start ⟨.portable, .decompress, level, raw⟩ = .ok session ∧
      session.decompressAll cut chunk = (.error (.fault (.noProgress .decompress)), after) ∧
      after.poisoned = true
  decode {size : Nat} (hsize : size ≤ Octets.maxSize) (floor : Nat) (earlier : List (List UInt8)) :
    ∃ d : BatchDecompressor, BatchDecompressor.start .portable raw size floor = .ok d ∧
      ((earlier.foldl (fun d batch => (d.decode batch).2) d).decode cut).1 =
        .error (.malformed .endedEarly)

variable {raw : Bool} {stream out cut : List UInt8}

theorem completes_encode {level : Nat} {input : List UInt8}
    (h : encode level (!raw) input = some stream) : Completes raw stream input :=
  completes_iff.mpr (halts_encode h)

theorem cutShort_of_completes (h : Completes raw stream out) (hgrows : cut <+: stream)
    (hne : cut ≠ stream) : CutShort raw cut out := by
  obtain ⟨more, rfl⟩ := hgrows
  obtain ⟨e, bits, hh, rfl, hr, hb⟩ := completes_iff.mp h
  have hmore : more ≠ [] := fun he => hne (by rw [he, List.append_nil])
  constructor
  · intro level s hs
    obtain ⟨t, ht⟩ := hs.ends_cut hh hr hb hmore level
    exact ⟨_, t, rfl, ht⟩
  · intro level chunk hc
    obtain ⟨after, hafter⟩ := decompressAll_cut hh hr hb hmore level hc
    exact ⟨_, after, rfl, hafter⟩
  · intro size hsize floor earlier
    refine ⟨⟨.fresh ⟨.portable, .decompress, 0, raw⟩, size, floor⟩, rfl, ?_⟩
    rw [BatchDecompressor.decodes_leave rfl rfl, BatchDecompressor.decode_cut hh hr hb hmore hsize]

/-- Streams that are cut short are found to be so, in particular those of the compressor. -/
theorem truncation_reported (raw : Bool) :
    Error.status? (.fault (.noProgress .decompress)) = some (-5) ∧
      (∀ level ≤ Session.maxLevel, ∀ input, ∀ chunk ≤ Octets.maxSize,
        ∃ session stream, Session.start ⟨.portable, .compress, level, raw⟩ = .ok session ∧
          (session.compressAll input chunk).1 = .ok stream ∧ Completes raw stream input) ∧
      ∀ stream out cut, Completes raw stream out → cut <+: stream → cut ≠ stream →
        CutShort raw cut out := by
  refine ⟨rfl, fun level hl input chunk hc => ?_, fun _ _ _ h => cutShort_of_completes h⟩
  obtain ⟨blocks, hwhole, -⟩ := encode_spec level (!raw) input
  exact ⟨.compressing level raw, _, start_compressing hl raw, compressAll_eq hwhole hc,
    completes_encode hwhole⟩

/-- Without its last byte, and without any. -/
theorem truncation_reported_of_stored_pair :
    CutShort true [1, 2, 0, 253, 255, 1] [1, 2] ∧ CutShort true [] [1, 2] :=
  ⟨(truncation_reported true).2.2 _ _ [1, 2, 0, 253, 255, 1] completes_stored_pair (by decide)
      (by decide),
    (truncation_reported true).2.2 _ _ [] completes_stored_pair (by decide) (by decide)⟩

/-- A chunk that does not fit in a buffer is refused whatever the input. -/
theorem truncation_unreported_beyond_maxSize :
    Completes true [1, 2, 0, 253, 255, 1, 2] [1, 2] ∧
      [1, 2, 0, 253] <+: ([1, 2, 0, 253, 255, 1, 2] : List UInt8) ∧
      ∃ session, Session.start ⟨.portable, .decompress, 0, true⟩ = .ok session ∧
        (session.decompressAll [1, 2, 0, 253] (2 ^ 63)).1 ≠
          .error (.fault (.noProgress .decompress)) := by
  refine ⟨completes_stored_pair, by decide, _, rfl, ?_⟩
  intro h
  cases h

end Conduit
