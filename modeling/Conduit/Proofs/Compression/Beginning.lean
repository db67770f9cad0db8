import Conduit.Proofs.Compression.Progressing

namespace Conduit

open Bits Deflate

section Complete

variable {raw : Bool} {input stream rest out : List UInt8} {chunk : Nat}

/-- A reading that leaves alone what stands behind a stream has found it complete. -/
theorem completes_of_halts {e : Cursor} {bits : List Bool}
    (hh : Halts (!raw) (opening (!raw) (stream ++ rest)) .ended e)
    (hr : e.reader.Holds (bits ++ ofBytes rest)) (hb : bits.length < 8) :
    Completes raw stream e.history.toList := by
  have hp := precedes_opening (!raw) stream rest
  have he : 8 * rest.length ≤ e.reader.available := by
    rw [hr.available, List.length_append, length_ofBytes]
    exact Nat.le_add_left _ _
  obtain ⟨session, t, -, -, hshows⟩ := (Schedule.feeds_whole 1).ends 0 raw stream
  apply completes_iff.mpr
  cases hshows with
  | finished halts =>
    obtain ⟨-, bits', hm⟩ := hp.halts_alone hh he halts
    refine ⟨_, bits', halts, congrArg Array.toList hm.history_eq.symm, hm.holds, ?_⟩
    have hlen := congrArg List.length (hm.whole.unique hr)
    rw [List.length_append, List.length_append] at hlen
    omega
  | failed halts reason =>
    obtain ⟨rfl, -⟩ := hp.halts_alone hh he halts
    cases reason

/-- A new session answers with output only input that begins with a complete stream. -/
theorem exists_stream_of_decompressAll {level : Nat} (hc : chunk ≤ Octets.maxSize)
    (h : ((Session.fresh ⟨.portable, .decompress, level, raw⟩).decompressAll input chunk).1 =
      .ok out) :
    ∃ stream rest, input = stream ++ rest ∧ Completes raw stream out := by
  have hfresh : Session.Inflates (.fresh ⟨.portable, .decompress, level, raw⟩) (.start !raw) :=
    Session.inflates_fresh rfl rfl
  obtain ⟨t, after, hleaves, hanswer⟩ := hfresh.decompressAll rfl input hc
  have hs := Schedule.feeds_whole chunk
  have hthrifty := hleaves.thrifty hs.toOffers hfresh
  obtain ⟨session, t', hstart, hends, hshows⟩ := hs.ends level raw input
  obtain rfl := Session.eq_fresh_of_start hstart
  obtain ⟨after', hleaves'⟩ := hends.leaves hs.toOffers
  obtain ⟨rfl, -⟩ := hleaves.unique hleaves'
  rw [hanswer, Trace.verdict] at h
  cases hshows with
  | finished halts output holds length consumed finished error =>
    rw [error] at h
    cases h
    have hinput : input.take t.consumed ++ t.left = input := by
      rw [hthrifty.left_eq, List.take_append_drop]
    refine ⟨input.take t.consumed, t.left, hinput.symm, ?_⟩
    rw [output]
    apply completes_of_halts _ holds length
    rwa [hinput]
  | failed halts reason reported output finished error =>
    rw [error] at h
    cases h

theorem decompressAll_of_completes (h : Completes raw stream out) (rest : List UInt8) (level : Nat)
    (hc : chunk ≤ Octets.maxSize) :
    ((Session.fresh ⟨.portable, .decompress, level, raw⟩).decompressAll (stream ++ rest) chunk).1 =
      .ok out := by
  have hfresh : Session.Inflates (.fresh ⟨.portable, .decompress, level, raw⟩) (.start !raw) :=
    Session.inflates_fresh rfl rfl
  obtain ⟨t, after, hleaves, hanswer⟩ := hfresh.decompressAll rfl (stream ++ rest) hc
  obtain ⟨t', after', hleaves', hverdict⟩ :=
    (Schedule.feeds_whole chunk).leaves_of_completes h rest level
  obtain ⟨rfl, -⟩ := hleaves.unique hleaves'
  exact hanswer.trans hverdict

theorem decompressAll_eq_ok_iff (level : Nat) (hc : chunk ≤ Octets.maxSize) :
    ((Session.fresh ⟨.portable, .decompress, level, raw⟩).decompressAll input chunk).1 = .ok out ↔
      ∃ stream rest, input = stream ++ rest ∧ Completes raw stream out := by
  constructor
  · exact exists_stream_of_decompressAll hc
  · rintro ⟨stream, rest, rfl, h⟩
    exact decompressAll_of_completes h rest level hc

theorem not_completes_nil : ¬ Completes raw [] out := by
  intro h
  obtain ⟨e, bits, halts, -⟩ := completes_iff.mp h
  have hneed : Halts (!raw) (opening (!raw) []) .needInput (opening (!raw) []) := by
    cases raw <;> exact ⟨nofun, _, .refl, rfl⟩
  cases (hneed.unique halts).1

end Complete

namespace Machine.Session

def Reached (p : Profile) (m : Session) : Prop :=
  ∃ uses answers, Comes (fun calls => replies? (use? calls) (.start p) uses) (answers, m)

/-- A session is ready for a stream if it is new, if it has just been reset, or if it has just
answered a message with output. -/
inductive Ready (p : Profile) : Session → Prop
  | start : Ready p (.start p)
  | reset {m : Session} (reached : Reached p m) (fresh : m.poisoned = false) : Ready p m.reset.2
  | settled {m m' : Session} {input out : List UInt8} {chunk : Nat} (reached : Reached p m)
      (answer : Comes (fun calls => m.decompressAll? calls input chunk) (.ok out, m')) : Ready p m'

def Stands (p : Profile) (m : Session) : Prop :=
  ∃ s, m.Shows p s ∧ s.Serves p ∧ s.Decompresses

variable {p : Profile} {m m' : Session} {input : List UInt8} {chunk calls : Nat}

theorem kept_stands (p : Profile) : Kept (Stands p) :=
  kept_shows p ((Conduit.Session.kept_serves p).and Conduit.Session.kept_decompresses)

theorem Reached.stands (h : Reached p m) (hb : p.backend = .portable)
    (hm : p.mode = .decompress) : m.Stands p := by
  obtain ⟨uses, answers, n, hn⟩ := h
  apply (kept_stands p).uses _ (hn n (Nat.le_refl n))
  exact ⟨.fresh p, shows_fresh hb, Conduit.Session.serves_fresh hb,
    Conduit.Session.decompresses_fresh hb hm⟩

/-- What a reset leaves stands for a new session, though its memory may not be that of one. -/
theorem Stands.reset (h : m.Stands p) (hp : m.poisoned = false) :
    m.reset.2.Shows p (.fresh p) := by
  obtain ⟨s, hshown, hserves, -⟩ := h
  have hreset := hshown.reset.2
  rwa [hserves.reset_eq (hshown.poisoned_eq ▸ hp)] at hreset

theorem Stands.settled (h : m.Stands p) {out : List UInt8}
    (hall : m.decompressAll? calls input chunk = some (.ok out, m')) :
    m'.Shows p (.fresh p) := by
  obtain ⟨heq, -⟩ | ⟨piece, result, left, l, hexpand, hsettle⟩ := decompressAll?_cases hall
  · cases heq
  · have hl := (kept_stands p).expand (l := ⟨m, piece, #[]⟩) h hexpand
    cases result with
    | error error => cases hsettle
    | ok done =>
      obtain ⟨rfl, collected, hanswer⟩ := settle?_ok hsettle
      cases hp : l.session.poisoned with
      | true =>
        rw [Session.reset, if_pos hp] at hanswer
        cases hanswer
      | false => exact hl.reset hp

theorem Ready.shows (h : Ready p m) (hb : p.backend = .portable) (hm : p.mode = .decompress) :
    m.Shows p (.fresh p) := by
  cases h with
  | start => exact shows_fresh hb
  | reset reached fresh => exact (reached.stands hb hm).reset fresh
  | settled reached answer =>
    obtain ⟨n, hn⟩ := answer
    exact (reached.stands hb hm).settled (hn n (Nat.le_refl n))

theorem answers_iff (h : m.Shows p (.fresh p)) (hb : p.backend = .portable)
    (hm : p.mode = .decompress) (answer : Except Error (List UInt8)) :
    (∃ m', Comes (fun calls => m.decompressAll? calls input chunk) (answer, m')) ↔
      chunk ≤ Octets.maxSize ∧ ((Conduit.Session.fresh p).decompressAll input chunk).1 = answer := by
  by_cases hc : chunk ≤ Octets.maxSize
  · have hne := (Conduit.Session.inflates_fresh hb hm).decompressAll_ne_endless hm input hc
    obtain ⟨m', -, hcomes⟩ := h.decompressAll input hc hne
    constructor
    · rintro ⟨m'', hanswer⟩
      cases hcomes.unique hanswer
      exact ⟨hc, rfl⟩
    · rintro ⟨-, rfl⟩
      exact ⟨m', hcomes⟩
  · constructor
    · rintro ⟨m', n, hn⟩
      have hmode : m.codec.mode = .decompress := h.mode_eq.trans hm
      cases (hn n (Nat.le_refl n)).symm.trans
        (decompressAll?_of_maxSize_lt hmode (Nat.not_le.mp hc))
    · exact fun hall => absurd hall.1 hc

end Machine.Session

/-- After the end of its stream a session takes nothing of a message and answers that it is
empty. -/
theorem Session.Inflates.decompressAll_of_finished {s : Session} {d : Decompressor}
    (h : s.Inflates d) (hm : s.profile.mode = .decompress) (hf : s.finished = true)
    (input : List UInt8) {chunk : Nat} (hc : chunk ≤ Octets.maxSize) :
    (s.decompressAll input chunk).1 = .ok [] := by
  obtain ⟨k, hk, hlasts, hout⟩ := Sink.exists_whole hc
  have hcarries : Line.Carries ⟨s, k⟩ (.decompressor d) [] :=
    ⟨h.toRuns, hlasts, congrArg Array.toList hout⟩
  have hended : d.cursor.stage.isEnded = true := h.finished_eq ▸ hf
  obtain ⟨l, hcall, hl⟩ := hcarries.call
    (Codec.process_decompressor (Decompressor.process_of_isEnded hended input k.ready.room))
  have hexpand : Line.expand ⟨s, k⟩ input = (.ok (), input, l) := by
    rw [Line.expand, hcall]
    rfl
  rw [Session.decompressAll, if_neg (not_not_intro hm), hk]
  dsimp only
  rw [hexpand]
  exact hl.settle

/-- The session takes every message as a new one does, and answers with output just that which
begins with a complete stream. -/
structure Machine.Session.Anew (p : Profile) (m : Machine.Session) : Prop where
  as_new : ∀ (input : List UInt8) (chunk : Nat) (answer : Except Error (List UInt8)),
    (∃ m', Comes (fun calls => m.decompressAll? calls input chunk) (answer, m')) ↔
      ∃ m', Comes (fun calls => (start p).decompressAll? calls input chunk) (answer, m')
  answers : ∀ (input : List UInt8) {chunk : Nat}, chunk ≤ Octets.maxSize →
    ∃ answer m', Comes (fun calls => m.decompressAll? calls input chunk) (answer, m')
  ok_iff : ∀ (input : List UInt8) {chunk : Nat}, chunk ≤ Octets.maxSize → ∀ out,
    (∃ m', Comes (fun calls => m.decompressAll? calls input chunk) (.ok out, m')) ↔
      ∃ stream rest, input = stream ++ rest ∧ Completes p.raw stream out

theorem Machine.Session.anew_of_shows {p : Profile} {m : Machine.Session}
    (h : m.Shows p (.fresh p)) (hb : p.backend = .portable) (hm : p.mode = .decompress) :
    m.Anew p where
  as_new input chunk answer :=
    (answers_iff h hb hm answer).trans (answers_iff (shows_fresh hb) hb hm answer).symm
  answers input {chunk} hc := ⟨_, (answers_iff h hb hm _).mpr ⟨hc, rfl⟩⟩
  ok_iff input {chunk} hc out := by
    obtain ⟨backend, mode, level, raw⟩ := p
    obtain rfl : backend = .portable := hb
    obtain rfl : mode = .decompress := hm
    rw [answers_iff h rfl rfl, and_iff_right hc]
    exact decompressAll_eq_ok_iff level hc

theorem Machine.Session.Reached.decompressAll?_of_finished {p : Profile} {m : Machine.Session}
    (h : Reached p m) (hb : p.backend = .portable) (hm : p.mode = .decompress)
    (hp : m.poisoned = false) (hf : m.finished = true) (input : List UInt8) {chunk : Nat}
    (hc : chunk ≤ Octets.maxSize) :
    ∃ m', Comes (fun calls => m.decompressAll? calls input chunk) (.ok [], m') := by
  obtain ⟨s, hshown, hserves, hdecompresses⟩ := h.stands hb hm
  obtain ⟨d, hd⟩ := hdecompresses.inflates (hshown.poisoned_eq ▸ hp)
  have hmode : s.profile.mode = .decompress := hshown.profile_eq ▸ hm
  have hanswer := hd.decompressAll_of_finished hmode (hshown.finished_eq ▸ hf) input hc
  obtain ⟨m', -, hcomes⟩ := hshown.decompressAll input hc (by rw [hanswer]; nofun)
  rw [hanswer] at hcomes
  exact ⟨m', hcomes⟩

/-- A session that is ready for a stream takes it as a new one does. A session whose stream has
ended, and which has not been reset since, answers that a message is empty, whatever it is. -/
theorem decompression_anew_if_ready {p : Profile} (hb : p.backend = .portable)
    (hm : p.mode = .decompress) :
    (∀ m, Machine.Session.Ready p m → m.Anew p) ∧
      ∀ m, Machine.Session.Reached p m → m.poisoned = false → m.finished = true →
        ∀ (input : List UInt8) {chunk : Nat}, chunk ≤ Octets.maxSize →
          ∃ m', Comes (fun calls => m.decompressAll? calls input chunk) (.ok [], m') := by
  constructor
  · intro m hready
    exact Machine.Session.anew_of_shows (hready.shows hb hm) hb hm
  · intro m hreached hp hf input chunk hc
    exact hreached.decompressAll?_of_finished hb hm hp hf input hc

theorem Machine.Session.exists_reached {p : Profile} (hb : p.backend = .portable)
    (input : List UInt8) (room : Nat) :
    ∃ m, Reached p m ∧ m.Shows p ((Conduit.Session.fresh p).process input room).2 := by
  obtain ⟨m, hm, hshown⟩ := (shows_fresh hb).process input room
  refine ⟨m, ⟨[.process input room], [((Conduit.Session.fresh p).process input room).1.map .step],
    comes_of_eq fun calls => ?_⟩, hshown⟩
  simp only [replies?, use?, hm]
  rfl

theorem Machine.Session.exists_reached_finished :
    ∃ m, Reached ⟨.portable, .decompress, 0, true⟩ m ∧ m.poisoned = false ∧
      m.finished = true := by
  obtain ⟨m, hreached, hshown⟩ :=
    exists_reached (p := ⟨.portable, .decompress, 0, true⟩) rfl [3, 0] 16
  refine ⟨m, hreached, hshown.poisoned_eq.trans ?_, hshown.finished_eq.trans ?_⟩
  · decide +kernel
  · decide +kernel

/-- After a reset within the head of a block, and after the end of an empty stream. -/
theorem decompression_anew_within_head :
    (∃ m, Machine.Session.Reached ⟨.portable, .decompress, 0, true⟩ m ∧ m.poisoned = false ∧
      m.reset.2.Anew ⟨.portable, .decompress, 0, true⟩) ∧
      ∃ m, Machine.Session.Reached ⟨.portable, .decompress, 0, true⟩ m ∧ m.poisoned = false ∧
        m.finished = true ∧
        ∃ m', Comes (fun calls => m.decompressAll? calls [1, 2, 3] 64) (.ok [], m') := by
  constructor
  · have hwithin : ∃ m, Machine.Session.Reached ⟨.portable, .decompress, 0, true⟩ m ∧
        m.poisoned = false := by
      obtain ⟨m, hreached, hshown⟩ :=
        Machine.Session.exists_reached (p := ⟨.portable, .decompress, 0, true⟩) rfl [1] 4
      refine ⟨m, hreached, hshown.poisoned_eq.trans ?_⟩
      decide +kernel
    obtain ⟨m, hreached, hp⟩ := hwithin
    exact ⟨m, hreached, hp, (decompression_anew_if_ready rfl rfl).1 _ (.reset hreached hp)⟩
  · obtain ⟨m, hreached, hp, hf⟩ := Machine.Session.exists_reached_finished
    exact ⟨m, hreached, hp, hf,
      (decompression_anew_if_ready rfl rfl).2 m hreached hp hf [1, 2, 3] (by decide)⟩

/-- A session whose stream has ended swallows a whole stream, and even no input is a stream to
it. -/
theorem decompression_swallows_stream :
    ∃ m, Machine.Session.Reached ⟨.portable, .decompress, 0, true⟩ m ∧ m.poisoned = false ∧
      m.finished = true ∧
      (∃ m', Comes (fun calls => m.decompressAll? calls [1, 2, 0, 253, 255, 1, 2] 64)
        (.ok [], m')) ∧
      (∃ m', Comes (fun calls => (Machine.Session.start
        ⟨.portable, .decompress, 0, true⟩).decompressAll? calls [1, 2, 0, 253, 255, 1, 2] 64)
          (.ok [1, 2], m')) ∧
      (∃ m', Comes (fun calls => m.decompressAll? calls [] 64) (.ok [], m')) ∧
      ¬ ∃ stream rest out, ([] : List UInt8) = stream ++ rest ∧ Completes true stream out := by
  obtain ⟨m, hreached, hp, hf⟩ := Machine.Session.exists_reached_finished
  have hanew : Machine.Session.Anew ⟨.portable, .decompress, 0, true⟩
      (.start ⟨.portable, .decompress, 0, true⟩) :=
    Machine.Session.anew_of_shows (Machine.Session.shows_fresh rfl) rfl rfl
  refine ⟨m, hreached, hp, hf, ?_, ?_, ?_, ?_⟩
  · exact hreached.decompressAll?_of_finished rfl rfl hp hf _ (by decide)
  · apply (hanew.ok_iff _ (by decide) [1, 2]).mpr
    exact ⟨_, [], (List.append_nil _).symm, completes_stored_pair⟩
  · exact hreached.decompressAll?_of_finished rfl rfl hp hf [] (by decide)
  · rintro ⟨stream, rest, out, hnil, hcompletes⟩
    obtain ⟨rfl, -⟩ := List.append_eq_nil_iff.mp hnil.symm
    exact not_completes_nil hcompletes

end Conduit
