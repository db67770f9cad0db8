import Conduit.Proofs.Compression.Reckoning
import Conduit.Proofs.Deflate.Framing

namespace Conduit

open BitParser Bits Deflate Relation

structure Frame where
  method : UInt8
  flags : UInt8
  body : List UInt8
  trailer : List UInt8

namespace Frame

def bytes (f : Frame) : List UInt8 :=
  f.method :: f.flags :: (f.body ++ f.trailer)

/-- Between a header and four more bytes stands a complete stream with this output. -/
structure Encloses (f : Frame) (out : List UInt8) : Prop where
  opens : Opens f.method f.flags
  completes : Completes true f.body out
  length_trailer : f.trailer.length = 4

def States (f : Frame) (out : List UInt8) : Prop :=
  Octets.ofBigEndian f.trailer = Adler.checksum out

end Frame

section Reading

variable {out body tail stream more : List UInt8} {r : BitReader} {f : Frame}

/-- A complete stream is read to its end, whatever stands behind it. -/
theorem leads_completed (h : Completes true body out) (hr : r.Holds (ofBytes (body ++ tail))) :
    ∃ r' fill, ReflTransGen (Leads false) ⟨r, .blockHead, #[]⟩ ⟨r', .ended, out.toArray⟩ ∧
      r'.Holds (fill ++ ofBytes tail) ∧ fill.length < 8 := by
  obtain ⟨e, fill, hhalts, hout, hholds, hfill⟩ := completes_iff.mp h
  rw [ofBytes_append] at hr
  have hprecedes : (opening false body).Precedes tail ⟨r, .blockHead, #[]⟩ :=
    Cursor.precedes_of_holds trivial (BitReader.holds_empty.push body) hr
  obtain ⟨e', ⟨-, mid, hleads, htick⟩, bits, hm⟩ := hprecedes.halts_ended hhalts
  obtain rfl := hholds.unique hm.holds
  have hbare : mid.stage ≠ .trailer := ne_trailer_of_leadsTo hleads nofun
  obtain ⟨hended, rfl⟩ := (stage_of_tick_ended htick).resolve_right hbare
  obtain ⟨r', stage, history⟩ := e'
  obtain rfl : stage = .ended := hended
  have hhistory : history = out.toArray := by
    rw [← hout, ← hm.history_eq]
  exact ⟨r', _, hhistory ▸ hleads, hm.whole, hfill⟩

/-- Reading comes to the trailer with all output made, and there the trailer decides. -/
theorem Frame.Encloses.leads (h : f.Encloses out) (more : List UInt8) :
    ∃ r r', ReflTransGen (Leads true) (opening true (f.bytes ++ more)) ⟨r, .trailer, out.toArray⟩ ∧
      8 * (4 + more.length) ≤ r.available ∧ r'.Holds (ofBytes more) ∧
      (f.States out →
        tick true ⟨r, .trailer, out.toArray⟩ = .stop .ended ⟨r', .ended, out.toArray⟩) ∧
      (¬ f.States out → tick true ⟨r, .trailer, out.toArray⟩ =
        .stop (.refused .dataCheck) ⟨r', .trailer, out.toArray⟩) := by
  have hwhole : f.bytes ++ more = [f.method, f.flags] ++ (f.body ++ (f.trailer ++ more)) := by
    rw [Frame.bytes, List.cons_append, List.cons_append, List.append_assoc]
    rfl
  have hr := BitReader.holds_empty.push (f.bytes ++ more)
  rw [List.nil_append, hwhole, ofBytes_append] at hr
  obtain ⟨r₁, hr₁, hread⟩ := reading_of_yields (h.opens.yields _) hr _
  have hheader : Leads true (opening true (f.bytes ++ more)) ⟨r₁, .blockHead, #[]⟩ :=
    Or.inl ((step_frameHeader true .start 0 _ _ _).trans (hwhole ▸ hread))
  obtain ⟨r₂, fill, hbody, hr₂, hfill⟩ := leads_completed h.completes hr₁
  obtain ⟨r₃, hr₃, htick⟩ := tick_trailer true out.toArray hr₂ hfill h.length_trailer
  have hleads : ReflTransGen (Leads true) ⟨r₁, .blockHead, #[]⟩ ⟨r₂, .trailer, out.toArray⟩ :=
    leadsTo_enclosed hbody
  refine ⟨r₂, r₃, .head hheader hleads, ?_, hr₃, fun hstates => ?_, fun hstates => ?_⟩
  · rw [hr₂.available, List.length_append, length_ofBytes, List.length_append, h.length_trailer]
    omega
  · rw [htick]
    exact if_pos hstates
  · rw [htick]
    exact if_neg hstates

theorem exists_header {e : Cursor} (h : Halts true (opening true stream) .ended e) :
    ∃ method flags data r, stream = method :: flags :: data ∧ Opens method flags ∧
      r.Holds (ofBytes data) ∧ Halts true ⟨r, .blockHead, #[]⟩ .ended e := by
  obtain ⟨hp, mid, hleads, htick⟩ := h
  obtain rfl | ⟨next, hfirst, hrest⟩ := hleads.cases_head
  · obtain ⟨hstage, -⟩ | hstage := stage_of_tick_ended htick <;> cases hstage
  · have hreading : (Cursor.reading ⟨BitReader.empty.push stream, .frameHeader, #[]⟩ readFrameHeader
          fun _ rest => .next ⟨rest, .blockHead, #[]⟩) = .next next ∨
        (Cursor.reading ⟨BitReader.empty.push stream, .frameHeader, #[]⟩ readFrameHeader
          fun _ rest => .next ⟨rest, .blockHead, #[]⟩) = .stop .full next := by
      rw [← step_frameHeader true .start 0 1]
      exact hfirst
    obtain ⟨_, r, hvalue, hnext | hnext⟩ := exists_of_leads hreading <;> cases hnext
    obtain ⟨after, hafter, -, hyields⟩ :=
      incremental_readFrameHeader.yields (BitReader.holds_empty.push stream) hvalue
    have hyields := hyields []
    rw [ofBytes_nil, List.append_nil, List.append_nil, List.nil_append] at hyields
    obtain ⟨method, flags, data, rfl, hopens, rfl⟩ := opens_of_yields hyields
    exact ⟨method, flags, data, r, rfl, hopens, hafter, hp, mid, hrest, htick⟩

/-- A reading within a frame ends at the trailer, where the same without a frame has ended. -/
theorem exists_inside {mid e : Cursor}
    (hleads : ReflTransGen (Leads true) ⟨r, .blockHead, #[]⟩ mid)
    (htick : tick true mid = .stop .ended e) :
    ∃ s history, mid = ⟨s, .trailer, history⟩ ∧
      ReflTransGen (Leads false) ⟨r, .blockHead, #[]⟩ ⟨s, .ended, history⟩ := by
  obtain ⟨⟨s, stage, history⟩, hinside, rfl⟩ :=
    leadsTo_of_enclosed (c := ⟨r, .blockHead, #[]⟩) hleads
  have hbare : stage ≠ .trailer := ne_trailer_of_leadsTo hinside nofun
  have hends := stage_of_tick_ended htick
  cases stage with
  | ended => exact ⟨s, history, rfl, hinside⟩
  | trailer => exact absurd rfl hbare
  | _ => obtain ⟨hends, -⟩ | hends := hends <;> cases hends

theorem exists_body {data trailer : List UInt8} {after rest : List Bool}
    (hsuffix : after <:+ ofBytes data)
    (hdrop : after.drop (after.length % 8) = ofBytes trailer ++ rest) (hrest : rest.length < 8) :
    ∃ body fill, data = body ++ trailer ∧ after = fill ++ ofBytes trailer ∧ fill.length < 8 := by
  have hlengths := congrArg List.length hdrop
  rw [List.length_drop, List.length_append, length_ofBytes] at hlengths
  obtain rfl : rest = [] := List.length_eq_zero_iff.mp (by omega)
  rw [List.append_nil] at hdrop
  have hsplit : after = after.take (after.length % 8) ++ ofBytes trailer := by
    rw [← hdrop, List.take_append_drop]
  have hfill : (after.take (after.length % 8)).length < 8 := by
    rw [List.length_take]
    omega
  generalize after.take (after.length % 8) = fill at hsplit hfill
  subst hsplit
  obtain ⟨front, hfront⟩ := hsuffix
  rw [← List.append_assoc] at hfront
  have hwhole : (front ++ fill).length % 8 = 0 := by
    have hlengths := congrArg List.length hfront
    rw [List.length_append, length_ofBytes, length_ofBytes] at hlengths
    omega
  obtain ⟨body, hbody⟩ := exists_ofBytes hwhole
  refine ⟨body, fill, ofBytes_inj ?_, rfl, hfill⟩
  rw [← hfront, hbody, ofBytes_append]

theorem exists_trailer {data : List UInt8} {e : Cursor} {bits : List Bool}
    (hr : r.Holds (ofBytes data)) (h : Halts true ⟨r, .blockHead, #[]⟩ .ended e)
    (he : e.reader.Holds bits) (hbits : bits.length < 8) :
    ∃ body trailer, data = body ++ trailer ∧ trailer.length = 4 ∧
      Completes true body e.history.toList ∧
      Octets.ofBigEndian trailer = Adler.checksum e.history.toList := by
  obtain ⟨-, mid, hleads, htick⟩ := h
  have hprecedes : (⟨r, .blockHead, #[]⟩ : Cursor).Precedes [] (opening false data) :=
    Cursor.precedes_of_holds trivial hr (by simpa using BitReader.holds_empty.push data)
  obtain ⟨all, after, hall, hafter, hsuffix⟩ := hprecedes.suffix_of_leads hleads
  obtain rfl := hall.unique hr
  obtain ⟨s, history, rfl, hinside⟩ := exists_inside hleads htick
  obtain ⟨hhistory, trailer, rest, hlength, hdrop, hrest, hsum⟩ := trailer_of_tick hafter htick
  obtain rfl := hrest.unique he
  obtain ⟨body, fill, rfl, rfl, hfill⟩ := exists_body hsuffix hdrop hbits
  obtain ⟨e', hhalts, bits, hm⟩ := hprecedes.halts_ended ⟨nofun, _, hinside, rfl⟩
  obtain rfl := hafter.unique hm.holds
  have hwhole := hm.whole
  rw [ofBytes_nil, List.append_nil] at hwhole
  refine ⟨body, trailer, rfl, hlength, ?_, hhistory ▸ hsum⟩
  rw [hhistory, ← congrArg Array.toList hm.history_eq]
  exact completes_of_halts hhalts hwhole hfill

theorem exists_frame (h : Completes false stream out) :
    ∃ f : Frame, stream = f.bytes ∧ f.Encloses out ∧ f.States out := by
  obtain ⟨e, bits, hhalts, rfl, hholds, hbits⟩ := completes_iff.mp h
  obtain ⟨method, flags, data, r, rfl, hopens, hr, hrest⟩ := exists_header hhalts
  obtain ⟨body, trailer, rfl, hlength, hcompletes, hsum⟩ := exists_trailer hr hrest hholds hbits
  exact ⟨⟨method, flags, body, trailer⟩, rfl, ⟨hopens, hcompletes, hlength⟩, hsum⟩

end Reading

section Session

variable {p : Profile} {t : Passed} {s : Session} {f : Frame} {out : List UInt8}

theorem Deflate.Decompressor.Reads.available_lt {d : Decompressor} {raw : Bool}
    (h : d.Reads raw t) {mid e : Cursor} {pause : Pause}
    (hleads : ReflTransGen (Leads (!raw)) (opening (!raw) t.taken) mid)
    (htick : tick (!raw) mid = .stop pause e) (hp : pause ≠ .full) (hneed : pause ≠ .needInput) :
    mid.reader.available < 8 := by
  obtain ⟨c, hc, htracks, -⟩ := h
  obtain ⟨bits, hm, hbits⟩ := htracks.mirrors
  have hwhole := hm.whole
  rw [ofBytes_nil, List.append_nil] at hwhole
  have hrest : ReflTransGen (Leads (!raw)) c mid := by
    obtain hback | hon := hleads.total_of_right_unique (rightUnique_leads _) hc
    · obtain rfl | ⟨next, hnext, -⟩ := hback.cases_head
      · exact .refl
      · exact absurd hnext (not_leads_of_stop hp htick next)
    · exact hon
  obtain hlt | hungry := hbits
  · obtain ⟨whole, -, hprecedes⟩ := (precedes_opening (!raw) t.taken []).leadsTo hc
    apply (hprecedes.available_le_of_leads hrest).trans_lt
    rwa [hwhole.available]
  · -- then the reading stops at once, and for want of input
    have hstop : tick (!raw) c = .stop .needInput c := by
      apply tick_of_hungry hwhole
      rw [hm.stage]
      exact hungry.congr hm.min_size.symm
    obtain rfl | ⟨next, hnext, -⟩ := hrest.cases_head
    · rw [hstop] at htick
      cases htick
      exact absurd rfl hneed
    · exact absurd hnext (not_leads_of_stop (by simp) hstop next)

/-- What a call comes to that is offered the rest of a frame whose trailer states another checksum.
It fails for that, or it leaves some of the frame, or it has no room and fails for that before any
of the trailer was taken. -/
inductive Frame.Refused (f : Frame) (t : Passed) (input : List UInt8) (room : Nat) :
    Except Error Step → Prop
  | refused : Refused f t input room (.error (.fault (.flaw .dataCheck)))
  | left {step : Step} (unfinished : step.finished = false)
      (left : (t.called input step).taken.length < f.bytes.length) :
      Refused f t input room (.ok step)
  | stuck (full : room = 0) (untaken : t.taken.length + 4 ≤ f.bytes.length) :
      Refused f t input room (.error (.fault (.noProgress .decompress)))

theorem Frame.Encloses.halts (h : f.Encloses out) (hsum : ¬ f.States out) (more : List UInt8) :
    ∃ e, Halts true (opening true (f.bytes ++ more)) (.refused .dataCheck) e := by
  obtain ⟨r, r', hleads, -, -, -, hrefused⟩ := h.leads more
  exact ⟨_, nofun, _, hleads, hrefused hsum⟩

/-- Behind a frame with another checksum no stream is complete. -/
theorem Frame.Encloses.not_completes (h : f.Encloses out) (hsum : ¬ f.States out)
    {stream rest more said : List UInt8} (hwhole : f.bytes ++ more = stream ++ rest) :
    ¬ Completes false stream said := by
  intro hcompletes
  obtain ⟨e, hrefused⟩ := h.halts hsum more
  obtain ⟨e', bits, hended, -⟩ := completes_iff.mp hcompletes
  obtain ⟨e'', hended', -⟩ := (precedes_opening true stream rest).halts_ended hended
  rw [hwhole] at hrefused
  cases (hrefused.unique hended').1

theorem Deflate.Decompressor.Reads.length_lt {d : Decompressor} (hd : d.Reads false t)
    (h : f.Encloses out) (hsum : ¬ f.States out) {rest more : List UInt8}
    (hwhole : f.bytes ++ more = t.taken ++ rest) : t.taken.length < f.bytes.length := by
  by_contra hle
  have hall : t.taken <+: f.bytes ++ more := ⟨rest, hwhole.symm⟩
  obtain ⟨tail, htail⟩ :=
    List.prefix_of_prefix_length_le (List.prefix_append f.bytes more) hall (Nat.not_lt.mp hle)
  obtain ⟨r, r', hleads, havailable, -, -, hrefused⟩ := h.leads tail
  rw [htail] at hleads
  have hlt := hd.available_lt hleads (hrefused hsum) (by simp) (by simp)
  dsimp only at hlt
  omega

theorem Deflate.Decompressor.Reads.untaken {d : Decompressor} (hd : d.Reads false t)
    (h : f.Encloses out) {input more : List UInt8} (hwhole : f.bytes ++ more = t.taken ++ input)
    (hstage : d.cursor.stage ≠ .trailer) : t.taken.length + 4 ≤ f.bytes.length := by
  obtain ⟨c, hleads, htracks, -⟩ := hd.onward input
  obtain ⟨r, r', hto, havailable, -⟩ := h.leads more
  rw [hwhole] at hto
  obtain ⟨bits, hm, hbits⟩ := htracks.mirrors
  have hon : ∃ mid, Leads true c mid ∧
      ReflTransGen (Leads true) mid ⟨r, .trailer, out.toArray⟩ := by
    have hbefore : c ≠ ⟨r, .trailer, out.toArray⟩ := by
      rintro rfl
      exact hstage hm.stage.symm
    obtain hon | hback := hleads.total_of_right_unique (rightUnique_leads _) hto
    · exact hon.cases_head.resolve_left hbefore
    · obtain hsame | ⟨next, hnext, -⟩ := hback.cases_head
      · exact absurd hsame.symm hbefore
      · exact absurd hnext (not_leads_of_trailer next)
  obtain ⟨mid, hfirst, hrest⟩ := hon
  obtain ⟨whole, -, hprecedes⟩ := (precedes_opening true (t.taken ++ input) []).leadsTo hleads
  have hlt : r.available < 8 * (input.length + 1) := by
    obtain hlt | hungry := hbits
    · have hle := hprecedes.available_le_of_leads (.head hfirst hrest)
      have hwhole := hm.whole.available
      rw [List.length_append, length_ofBytes] at hwhole
      dsimp only at hle
      omega
    · have hungry' : c.stage.Hungry c.history.size bits := by
        rw [hm.stage]
        exact hungry.congr hm.min_size.symm
      have hlt := available_lt_of_leads hungry' hm.whole hfirst
      obtain ⟨mid', -, hprecedes'⟩ := hprecedes.leads hfirst
      have hle := hprecedes'.available_le_of_leads hrest
      dsimp only at hle
      omega
  have hlengths := congrArg List.length hwhole
  rw [List.length_append, List.length_append] at hlengths
  omega

theorem Deflate.Decompressor.Reads.refused {d : Decompressor} (hd : d.Reads false t)
    (h : f.Encloses out) (hsum : ¬ f.States out) {input more : List UInt8}
    (hwhole : f.bytes ++ more = t.taken ++ input) (room : Nat) :
    f.Refused t input room
      ((d.process input room).1.mapError Codec.decompressError) := by
  obtain ⟨e, hrefused⟩ := h.halts hsum more
  have hcalled (step : Step) :
      f.bytes ++ more = (t.called input step).taken ++ input.drop step.consumed := by
    rw [hwhole, Passed.called, List.append_assoc, List.take_append_drop]
  have hfares := hd.fares input room
  generalize hresult : d.process input room = result at hfares
  cases hfares with
  | @finished step d' finished completes =>
    exact absurd completes (h.not_completes hsum (hcalled step))
  | @reading step d' unfinished reads =>
    exact .left unfinished (reads.length_lt h hsum (hcalled step))
  | failed halts reason =>
    rw [hwhole] at hrefused
    obtain ⟨rfl, -⟩ := hrefused.unique halts
    cases reason
    exact .refused
  | stuck full =>
    refine .stuck full (hd.untaken h hwhole fun hstage => ?_)
    have hnothing := Decompressor.input_eq_nil_of_trailer hstage hresult
    have hlt := hd.length_lt h hsum hwhole
    rw [hnothing, List.append_nil] at hwhole
    have hle := (List.prefix_append f.bytes more).length_le
    rw [hwhole] at hle
    exact absurd hlt (Nat.not_lt.mpr hle)

theorem Machine.Session.replies?_of_poisoned {m : Machine.Session} (h : m.poisoned = true)
    (acts : List Session.Act) :
    replies? act? m acts =
      some (List.replicate acts.length (m.sight (.error .poisoned)), m) := by
  induction acts with
  | nil => rfl
  | cons a acts ih =>
    have hact : m.act? a = some (m.sight (.error .poisoned), m) := by
      cases a with
      | call input room =>
        rw [act?, process?, if_pos h]
        rfl
      | reset =>
        rw [act?, Session.reset, if_pos h]
        rfl
    rw [replies?, hact]
    simp only [Option.bind_eq_bind, Option.bind_some, ih]
    rfl

/-- What is sure of a call of a session with frames through which this has passed since its stream
began, and of all that comes after the call. -/
structure Machine.Session.Checked (t : Passed) (m : Machine.Session) (input : List UInt8)
    (room : Nat) (answer : Except Error Step) (m' : Machine.Session) : Prop where
  /-- The last four bytes of a finished stream state the checksum of all that came out of it. -/
  finished : ∀ step, answer = .ok step → step.finished = true →
    ∃ front trailer, (t.called input step).taken = front ++ trailer ∧ trailer.length = 4 ∧
      Octets.ofBigEndian trailer = Adler.checksum (t.called input step).given
  /-- The last of four bytes that state another checksum is not taken. -/
  refused : m.poisoned = false → ∀ (f : Frame) (out : List UInt8), f.Encloses out →
    ¬ f.States out → f.bytes <+: t.taken ++ input → f.Refused t input room answer
  /-- After a call that fails nothing is reported as finished. -/
  poisoned : ∀ error, answer = .error error → m'.poisoned = true ∧
    ∀ later, replies? act? m' later =
      some (List.replicate later.length (m'.sight (.error .poisoned)), m')

theorem Session.Past.checked {m m' : Machine.Session} {input : List UInt8} {room : Nat}
    (h : s.Past p t) (hraw : p.raw = false) (hm : m.poisoned = s.poisoned)
    (hm' : m'.poisoned = (s.process input room).2.poisoned) :
    Machine.Session.Checked t m input room (s.process input room).1 m' where
  finished step hanswer hf := by
    have hcompletes := h.completes hanswer hf
    rw [hraw] at hcompletes
    obtain ⟨f, hbytes, hencloses, hstates⟩ := exists_frame hcompletes
    exact ⟨f.method :: f.flags :: f.body, f.trailer, hbytes, hencloses.length_trailer, hstates⟩
  refused hp f out hencloses hstates hoffered := by
    rw [hm] at hp
    obtain ⟨more, hmore⟩ := hoffered
    cases h with
    | poisoned poisoned => cases hp.symm.trans poisoned
    | reading runs reads =>
      rw [hraw] at reads
      rw [runs.answer_eq]
      exact reads.refused hencloses hstates hmore room
    | ended runs ended completes =>
      rw [hraw] at completes
      exact absurd completes (hencloses.not_completes hstates hmore)
  poisoned error hanswer := by
    have hp : m'.poisoned = true := by
      rw [hm']
      exact poisoned_of_process (Prod.ext hanswer rfl)
    exact ⟨hp, Machine.Session.replies?_of_poisoned hp⟩

end Session

/-- Whatever is done with a session with frames, its stream is reported as finished only behind the
checksum of all output. Where the trailer states another number, it is refused by the call that
would take the last of it, and all runs over such a frame come to that. -/
theorem trailer_checked {p : Profile} (hb : p.backend = .portable) (hm : p.mode = .decompress)
    (hraw : p.raw = false) :
    (∀ acts input room, ∃ sights m answer m',
      replies? Machine.Session.act? (.start p) acts = some (sights, m) ∧
        m.process? input room = some (answer, m') ∧
        Machine.Session.Checked (Passed.through {} acts sights) m input room answer m') ∧
      (∀ (f : Frame) (out : List UInt8), f.Encloses out → ¬ f.States out → ∀ more {s : Schedule},
        s.Feeds → ∃ session t, Session.start p = .ok session ∧ s.Ends session (f.bytes ++ more) t ∧
          t.finished = false ∧ t.error? = some (.fault (.flaw .dataCheck))) ∧
      (Fault.flaw .dataCheck).status = -3 ∧
      (Fault.flaw .dataCheck).message = "incorrect data check" := by
  refine ⟨?_, ?_, rfl, rfl⟩
  · intro acts input room
    obtain ⟨m, hacts, hshown⟩ := (Machine.Session.shows_fresh hb).acts acts
    obtain ⟨m', hcall, hshown'⟩ := hshown.process input room
    have hpast := (Session.past_fresh hb hm).acts (Session.serves_fresh hb) hm acts
    exact ⟨_, m, _, m', hacts, hcall,
      hpast.checked hraw hshown.poisoned_eq hshown'.poisoned_eq⟩
  · intro f out hencloses hstates more s hs
    obtain ⟨backend, mode, level, raw⟩ := p
    obtain rfl : backend = .portable := hb
    obtain rfl : mode = .decompress := hm
    obtain rfl : raw = false := hraw
    obtain ⟨e, hrefused⟩ := hencloses.halts hstates more
    obtain ⟨session, t, hstart, hends, hshows⟩ := hs.ends level false (f.bytes ++ more)
    refine ⟨session, t, hstart, hends, ?_⟩
    cases hshows with
    | finished halts _ _ _ _ _ _ => cases (hrefused.unique halts).1
    | failed halts reason reported _ finished error =>
      obtain ⟨rfl, -⟩ := hrefused.unique halts
      cases reason
      exact ⟨finished, error⟩

/-- Two stored bytes in a frame that states the checksum zero, cut within its body and byte by
byte. -/
theorem trailer_checked_of_stored_pair :
    (∃ sights m answer m',
      replies? Machine.Session.act? (.start ⟨.portable, .decompress, 0, false⟩)
          [.call [120, 156, 1, 2, 0, 253, 255, 1] 4] = some (sights, m) ∧
        m.process? [2, 0, 0, 0, 0] 4 = some (answer, m') ∧
        Machine.Session.Checked
          (Passed.through {} [.call [120, 156, 1, 2, 0, 253, 255, 1] 4] sights) m
          [2, 0, 0, 0, 0] 4 answer m') ∧
      Frame.Encloses ⟨120, 156, [1, 2, 0, 253, 255, 1, 2], [0, 0, 0, 0]⟩ [1, 2] ∧
      ¬ Frame.States ⟨120, 156, [1, 2, 0, 253, 255, 1, 2], [0, 0, 0, 0]⟩ [1, 2] ∧
      ∃ session t, Session.start ⟨.portable, .decompress, 0, false⟩ = .ok session ∧
        Schedule.Ends ⟨fun _ => some 1, fun _ => 1, true⟩ session
          [120, 156, 1, 2, 0, 253, 255, 1, 2, 0, 0, 0, 0] t ∧
        t.finished = false ∧ t.error? = some (.fault (.flaw .dataCheck)) := by
  have hall := trailer_checked (p := ⟨.portable, .decompress, 0, false⟩) rfl rfl rfl
  have hencloses : Frame.Encloses ⟨120, 156, [1, 2, 0, 253, 255, 1, 2], [0, 0, 0, 0]⟩ [1, 2] :=
    ⟨⟨by decide, by decide, by decide, by decide⟩, completes_stored_pair, rfl⟩
  have hstates :
      ¬ Frame.States ⟨120, 156, [1, 2, 0, 253, 255, 1, 2], [0, 0, 0, 0]⟩ [1, 2] := by
    rw [Frame.States]
    decide
  exact ⟨hall.1 _ _ 4, hencloses, hstates,
    hall.2.1 _ _ hencloses hstates [] ⟨⟨by simp, rfl⟩, by simp⟩⟩

end Conduit
