import Conduit.Proofs.Compression.Calling
import Conduit.Proofs.Deflate.Gathering

namespace Conduit

open Deflate

/-- The run has not failed, and if it is over it has handed out all of `whole`. -/
structure Trace.Delivers (t : Trace) (whole : List UInt8) : Prop where
  unfailed : t.error? = none
  complete : t.finished = true → t.output.toList = whole ∧ t.left = []

variable {level : Nat} {framed : Bool} {whole left out input : List UInt8} {c : Compressor}

section Run

variable {s : Schedule} {session : Session} {output : Array UInt8} {made : Array (Nat × Nat)}

theorem Schedule.Offers.delivers (h : s.Offers) (k : Nat)
    (hs : c.Stands level framed whole left output.toList) (hr : session.Runs (.compressor c))
    (calls : Nat) :
    (s.run calls k session ⟨output, made, left, false, none⟩).1.Delivers whole := by
  induction calls generalizing c session left output made k with
  | zero => exact ⟨rfl, fun hf => absurd hf Bool.false_ne_true⟩
  | succ calls ih =>
    obtain ⟨step, c', hprocess, -, hanswers⟩ :=
      hs.process (s.offered k left) (h.offer_eq_nil k) (s.room k)
    obtain ⟨session', hsession, hr'⟩ := hr.process_ok (Codec.process_compressor hprocess)
    rw [← Array.toList_appendList] at hanswers
    rw [h.run_of_ok hsession]
    by_cases hf : step.finished = true
    · rw [if_pos hf] at hanswers ⊢
      refine ⟨rfl, fun _ => ⟨hanswers.2, ?_⟩⟩
      rw [hanswers.1, List.drop_nil]
    · rw [if_neg hf] at hanswers ⊢
      exact ih (k + 1) hanswers.1 hr'

theorem Schedule.Feeds.finishes (h : s.Feeds) (k : Nat)
    (hs : c.Stands level framed whole left output.toList) (hr : session.Runs (.compressor c)) :
    ∃ n, ∀ calls, n ≤ calls →
      (s.run calls k session ⟨output, made, left, false, none⟩).1.finished = true := by
  induction hn : c.toTake left using Nat.strong_induction_on
    generalizing c session left output made k with
  | _ n outer =>
    induction hb : c.backlog using Nat.strong_induction_on
      generalizing c session left output made k with
    | _ b inner =>
      obtain ⟨step, c', hprocess, -, hanswers⟩ :=
        hs.process (s.offered k left) (h.offer_eq_nil k) (s.room k)
      obtain ⟨session', hsession, hr'⟩ := hr.process_ok (Codec.process_compressor hprocess)
      rw [← Array.toList_appendList] at hanswers
      by_cases hf : step.finished = true
      · refine ⟨1, fun calls hcalls => ?_⟩
        obtain ⟨calls, rfl⟩ := Nat.exists_eq_add_of_le' hcalls
        rw [h.run_of_ok hsession, if_pos hf]
      · rw [if_neg hf] at hanswers
        obtain ⟨hs', hless⟩ := hanswers
        have hroom := h.room k
        have hrest : ∃ n, ∀ calls, n ≤ calls → (s.run calls (k + 1) session'
            ⟨output ++ step.output, made.push (step.produced, step.consumed),
              left.drop step.consumed, false, none⟩).1.finished = true := by
          obtain hless | ⟨hsame, hless⟩ := hless
          · exact outer _ (hn ▸ hless) (k + 1) hs' hr' rfl
          · exact inner _ (by omega) (k + 1) hs' hr' (hsame.trans hn) rfl
        obtain ⟨m, hm⟩ := hrest
        refine ⟨m + 1, fun calls hcalls => ?_⟩
        obtain ⟨calls, rfl⟩ := Nat.exists_eq_add_of_le' (Nat.le_of_add_left_le hcalls)
        rw [h.run_of_ok hsession, if_neg hf]
        exact hm calls (by omega)

end Run

namespace Line

variable {l : Line}

/-- All of the input is taken in. What was handed out before this line was set up is `earlier`. -/
theorem feed_spec (earlier input : List UInt8) (h : l.Carries (.compressor c) out)
    (hc : c.Gathers level framed left (earlier ++ out)) :
    ∃ l' c' out', l.feed input = (.ok (), l') ∧ l'.Carries (.compressor c') out' ∧
      c'.Gathers level framed (left ++ input) (earlier ++ out') := by
  fun_induction Line.feed l input generalizing c left out with
  | case1 l =>
    refine ⟨l, c, out, rfl, h, ?_⟩
    rw [List.append_nil]
    exact hc
  | case2 l byte rest error l' hcall =>
    obtain ⟨step, c', hprocess, -⟩ := hc.take (List.cons_ne_nil byte rest) l.sink.ready.room
    obtain ⟨l'', hcall', -⟩ := h.call (Codec.process_compressor hprocess)
    cases hcall.symm.trans hcall'
  | case3 l byte rest step l' hcall hpos ih =>
    obtain ⟨step', c', hprocess, -, hle, hc', -⟩ :=
      hc.take (List.cons_ne_nil byte rest) l.sink.ready.room
    obtain ⟨l'', hcall', h'⟩ := h.call (Codec.process_compressor hprocess)
    cases hcall.symm.trans hcall'
    rw [List.append_assoc] at hc'
    obtain ⟨l₂, c₂, out₂, hfeed, h₂, hc₂⟩ := ih h' hc'
    refine ⟨l₂, c₂, out₂, hfeed, h₂, ?_⟩
    rwa [List.append_assoc, List.take_append_drop] at hc₂
  | case4 l byte rest before step l' hcall hzero hless =>
    rename_i ih
    obtain ⟨step', c', hprocess, -, -, hc', -⟩ :=
      hc.take (List.cons_ne_nil byte rest) l.sink.ready.room
    obtain ⟨l'', hcall', h'⟩ := h.call (Codec.process_compressor hprocess)
    cases hcall.symm.trans hcall'
    rw [Nat.eq_zero_of_not_pos hzero, List.take_zero, List.append_nil, List.append_assoc] at hc'
    exact ih h' hc'
  | case5 l byte rest before step l' hcall hzero =>
    rename_i hmore
    obtain ⟨step', c', hprocess, -, -, hc', hmoves⟩ :=
      hc.take (List.cons_ne_nil byte rest) l.sink.ready.room
    obtain ⟨l'', hcall', h'⟩ := h.call (Codec.process_compressor hprocess)
    cases hcall.symm.trans hcall'
    -- nothing was taken, so something was handed out
    have hroom := h.lasts.room_pos
    have hbefore : before = c.backlog := h.backlog_eq
    have hafter : l'.backlog = c'.backlog := h'.backlog_eq
    omega

theorem drain_spec {earlier : List UInt8} (h : l.Carries (.compressor c) out)
    (hc : c.Closes whole (earlier ++ out)) :
    ∃ l' codec rest, l.drain = (.ok (), l') ∧ l'.Carries codec rest ∧ earlier ++ rest = whole := by
  fun_induction Line.drain l generalizing c out with
  | case1 l error l' hcall =>
    obtain ⟨step, c', hprocess, -⟩ := hc.finish l.sink.ready.room
    obtain ⟨l'', hcall', -⟩ := h.call (Codec.process_compressor hprocess)
    cases hcall.symm.trans hcall'
  | case2 l step l' hcall hf =>
    obtain ⟨step', c', hprocess, ⟨-, hsettles⟩, -⟩ := hc.finish l.sink.ready.room
    obtain ⟨l'', hcall', h'⟩ := h.call (Codec.process_compressor hprocess)
    cases hcall.symm.trans hcall'
    rw [if_pos hf, List.append_assoc] at hsettles
    exact ⟨l', _, _, rfl, h', hsettles⟩
  | case3 l before step l' hcall hf hless =>
    rename_i ih
    obtain ⟨step', c', hprocess, ⟨-, hsettles⟩, -⟩ := hc.finish l.sink.ready.room
    obtain ⟨l'', hcall', h'⟩ := h.call (Codec.process_compressor hprocess)
    cases hcall.symm.trans hcall'
    rw [if_neg hf, List.append_assoc] at hsettles
    exact ih h' hsettles.1
  | case4 l before step l' hcall hf =>
    rename_i hmore
    obtain ⟨step', c', hprocess, -, hmoves⟩ := hc.finish l.sink.ready.room
    obtain ⟨l'', hcall', h'⟩ := h.call (Codec.process_compressor hprocess)
    cases hcall.symm.trans hcall'
    have hroom := h.lasts.room_pos
    have hbefore : before = c.backlog := h.backlog_eq
    have hafter : l'.backlog = c'.backlog := h'.backlog_eq
    have := hmoves (Bool.eq_false_iff.mpr hf)
    omega

theorem close_of_settles {earlier : List UInt8} {c' : Compressor} {step : Step}
    (h : l.Carries (.compressor c) out)
    (hprocess : c.process [] l.sink.ready.room = (.ok step, c'))
    (hsettles : c'.Settles whole (earlier ++ out) step) :
    ∃ l' codec rest, l.close = (.ok (), l') ∧ l'.Carries codec rest ∧ earlier ++ rest = whole := by
  obtain ⟨-, hsettles⟩ := hsettles
  obtain ⟨l', hcall, h'⟩ := h.call (Codec.process_compressor hprocess)
  rw [List.append_assoc] at hsettles
  rw [Line.close, hcall]
  dsimp only
  split
  next hf =>
    rw [if_pos hf] at hsettles
    exact ⟨l', _, _, rfl, h', hsettles⟩
  next hf =>
    rw [if_neg hf] at hsettles
    exact drain_spec h' hsettles.1

theorem close_spec (earlier : List UInt8) (h : l.Carries (.compressor c) out)
    (hc : c.Gathers level framed input (earlier ++ out))
    (hwhole : encode level framed input = some whole) :
    ∃ l' codec rest, l.close = (.ok (), l') ∧ l'.Carries codec rest ∧ earlier ++ rest = whole := by
  obtain ⟨step, c', hprocess, hsettles⟩ := hc.finish hwhole l.sink.ready.room
  exact close_of_settles h hprocess hsettles

end Line

def Session.compressing (level : Nat) (raw : Bool) : Session :=
  ⟨⟨.portable, .compress, level, raw⟩, .compressor (.start level !raw), false, 0, false⟩

theorem start_compressing (hl : level ≤ Session.maxLevel) (raw : Bool) :
    Session.start ⟨.portable, .compress, level, raw⟩ = .ok (.compressing level raw) := by
  rw [Session.start, if_neg fun h => Nat.not_lt.mpr hl h.2]
  rfl

theorem runs_compressing (level : Nat) (raw : Bool) :
    (Session.compressing level raw).Runs (.compressor (.start level !raw)) :=
  ⟨rfl, rfl, rfl⟩

section CompressAll

variable {s : Session} {sink : Sink} {l l' : Line} {codec : Codec} {chunk : Nat}

theorem compressAll_of_feed_error {error : Error} (hm : s.profile.mode = .compress)
    (hsink : Sink.whole chunk = .ok sink) (hfeed : Line.feed ⟨s, sink⟩ input = (.error error, l)) :
    (s.compressAll input chunk).1 = .error error := by
  simp only [Session.compressAll, hm, ne_eq, not_true_eq_false, if_false, hsink, hfeed]

theorem compressAll_of_close_error {error : Error} (hm : s.profile.mode = .compress)
    (hsink : Sink.whole chunk = .ok sink) (hfeed : Line.feed ⟨s, sink⟩ input = (.ok (), l))
    (hclose : l.close = (.error error, l')) : (s.compressAll input chunk).1 = .error error := by
  simp only [Session.compressAll, hm, ne_eq, not_true_eq_false, if_false, hsink, hfeed, hclose,
    Session.settle]

theorem compressAll_of_close (hm : s.profile.mode = .compress)
    (hsink : Sink.whole chunk = .ok sink) (hfeed : Line.feed ⟨s, sink⟩ input = (.ok (), l))
    (hclose : l.close = (.ok (), l')) (h : l'.Carries codec whole) :
    (s.compressAll input chunk).1 = .ok whole := by
  simp only [Session.compressAll, hm, ne_eq, not_true_eq_false, if_false, hsink, hfeed, hclose]
  exact h.settle

end CompressAll

theorem compressAll_eq {raw : Bool} (hwhole : encode level (!raw) input = some whole) {chunk : Nat}
    (hc : chunk ≤ Octets.maxSize) :
    ((Session.compressing level raw).compressAll input chunk).1 = .ok whole := by
  obtain ⟨sink, hsink, hlasts, hout⟩ := Sink.exists_whole hc
  have hcarries : Line.Carries ⟨.compressing level raw, sink⟩ (.compressor (.start level !raw))
      [] := ⟨runs_compressing level raw, hlasts, congrArg Array.toList hout⟩
  obtain ⟨l, c, out, hfeed, h, hgathers⟩ :=
    Line.feed_spec [] input hcarries (Compressor.gathers_start level !raw)
  obtain ⟨l', codec, out, hclose, h', rfl⟩ := Line.close_spec [] h hgathers hwhole
  exact compressAll_of_close rfl hsink hfeed hclose h'

/-- However a compressing session is driven, it makes the stream that a message is compressed to. -/
theorem compression_independent_of_calls (input : List UInt8) {level : Nat}
    (hl : level ≤ Session.maxLevel) (raw : Bool) :
    ∃ session whole, Session.start ⟨.portable, .compress, level, raw⟩ = .ok session ∧
      (∀ chunk ≤ Octets.maxSize, (session.compressAll input chunk).1 = .ok whole) ∧
      ∀ s : Schedule, s.Offers →
        (∀ calls, (s.run calls 0 session (.start input)).1.Delivers whole) ∧
        ((∀ k, 0 < s.room k) →
          ∃ n, ∀ calls, n ≤ calls → (s.run calls 0 session (.start input)).1.finished = true) := by
  obtain ⟨blocks, hwhole, -⟩ := encode_spec level (!raw) input
  have hr := runs_compressing level raw
  have hs := Compressor.stands_start hwhole
  have hfinish (s : Schedule) (h : s.Offers) (hroom : ∀ k, 0 < s.room k) : ∃ n, ∀ calls, n ≤ calls →
      (s.run calls 0 (.compressing level raw) (.start input)).1.finished = true :=
    Schedule.Feeds.finishes ⟨h, hroom⟩ 0 hs hr
  exact ⟨.compressing level raw, _, start_compressing hl raw,
    fun chunk hc => compressAll_eq hwhole hc, fun s h => ⟨h.delivers 0 hs hr, hfinish s h⟩⟩

/-- Three bytes with their frame. -/
theorem compression_independent_of_calls_framed :
    ∃ session whole, Session.start ⟨.portable, .compress, 9, false⟩ = .ok session ∧
      (∀ chunk ≤ Octets.maxSize, (session.compressAll [97, 98, 99] chunk).1 = .ok whole) ∧
      ∀ s : Schedule, s.Offers →
        (∀ calls, (s.run calls 0 session (.start [97, 98, 99])).1.Delivers whole) ∧
        ((∀ k, 0 < s.room k) → ∃ n, ∀ calls, n ≤ calls →
          (s.run calls 0 session (.start [97, 98, 99])).1.finished = true) :=
  compression_independent_of_calls [97, 98, 99] (by decide) false

/-- A chunk that does not fit in a buffer is refused. -/
theorem compression_refused_beyond_maxSize :
    ¬ ∃ session whole, Session.start ⟨.portable, .compress, 6, true⟩ = .ok session ∧
      ∀ chunk, (session.compressAll [] chunk).1 = .ok whole := by
  rintro ⟨session, whole, hstart, h⟩
  cases hstart
  cases h (2 ^ 63)

end Conduit
