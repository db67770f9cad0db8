import Conduit.Proofs.Checksum.Textbook
import Conduit.Proofs.Deflate.Sparing
import Conduit.Proofs.Deflate.Stalling

namespace Conduit.Deflate

open BitParser Bits Relation

/-- Two bytes that open a frame: the method with a window that is not too large, and flags that
complete the check and announce no dictionary. -/
structure Opens (method flags : UInt8) : Prop where
  method_mod : method.toNat % 16 = 8
  window_le : method.toNat / 16 ≤ 7
  check_mod : (method.toNat * 256 + flags.toNat) % 31 = 0
  dictionary_mod : flags.toNat / 32 % 2 = 0

section Parsers

variable {bits rest fill : List Bool} {stream trailer : List UInt8} {method flags : UInt8}

theorem Opens.yields (h : Opens method flags) (tail : List Bool) :
    readFrameHeader.Yields (ofBytes [method, flags] ++ tail) () tail := by
  have hbits : ofBytes [method, flags] ++ tail =
      ofNat 8 method.toNat ++ (ofNat 8 flags.toNat ++ tail) := by
    rw [ofBytes_cons, ofBytes_singleton, List.append_assoc]
  have hdictionary := h.dictionary_mod
  rw [hbits]
  refine (yields_ofNat method.toNat_lt).bind ((yields_ofNat flags.toNat_lt).bind ?_)
  rw [if_neg (not_not_intro h.method_mod), if_neg (Nat.not_lt.mpr h.window_le),
    if_neg (not_not_intro h.check_mod), if_neg (by omega)]
  exact yields_pure () tail

def checkHeader (method flags : Nat) : Parser Unit :=
  if method % 16 ≠ 8 then refuse .unknownMethod
  else if 7 < method / 16 then refuse .windowSize
  else if (method * 256 + flags) % 31 ≠ 0 then refuse .headerCheck
  else if flags / 32 % 2 = 1 then refuse .presetDictionary
  else pure ()

theorem readFrameHeader_eq :
    readFrameHeader = (do
      let method ← BitParser.bits 8
      let flags ← BitParser.bits 8
      checkHeader method flags) :=
  rfl

theorem incremental_checkHeader (method flags : Nat) : Incremental (checkHeader method flags) := by
  rw [checkHeader]
  repeat' split
  all_goals first | exact Incremental.refuse _ | exact Incremental.pure ()

theorem opens_of_yields_checkHeader
    (h : (checkHeader method.toNat flags.toNat).Yields bits () rest) :
    Opens method flags ∧ rest = bits := by
  obtain ⟨r, hr⟩ := BitReader.exists_holds bits
  obtain ⟨r', hr', hrest⟩ := h r hr
  rw [checkHeader] at hr'
  by_cases hmethod : method.toNat % 16 = 8
  · rw [if_neg (not_not_intro hmethod)] at hr'
    split at hr'
    · cases hr'
    next hwindow =>
      split at hr'
      · cases hr'
      next hcheck =>
        split at hr'
        · cases hr'
        next hdictionary =>
          cases hr'
          refine ⟨⟨hmethod, Nat.not_lt.mp hwindow, not_not.mp hcheck, ?_⟩, hrest.unique hr⟩
          exact Nat.mod_two_ne_one.mp hdictionary
  · rw [if_pos hmethod] at hr'
    cases hr'

theorem opens_of_yields (h : readFrameHeader.Yields (ofBytes stream) () rest) :
    ∃ method flags body, stream = method :: flags :: body ∧ Opens method flags ∧
      rest = ofBytes body := by
  rw [readFrameHeader_eq] at h
  obtain ⟨method, mid, hmethod, hrest⟩ := Incremental.exists_mid (Incremental.bits 8)
    (fun method => (Incremental.bits 8).bind (incremental_checkHeader method)) h
  obtain ⟨flags, mid', hflags, hchecks⟩ := Incremental.exists_mid (Incremental.bits 8)
    (incremental_checkHeader method) hrest
  obtain ⟨hlt, hstream⟩ := eq_of_yields_bits hmethod
  obtain ⟨hlt', rfl⟩ := eq_of_yields_bits hflags
  rw [← UInt8.toNat_ofNat_of_lt' hlt, ← UInt8.toNat_ofNat_of_lt' hlt'] at hchecks hstream
  obtain ⟨hopens, rfl⟩ := opens_of_yields_checkHeader hchecks
  have hlength := congrArg List.length hstream
  simp only [List.length_append, length_ofBytes, length_ofNat] at hlength
  have hwhole : rest.length % 8 = 0 := by omega
  obtain ⟨body, rfl⟩ := exists_ofBytes hwhole
  refine ⟨_, _, body, ofBytes_inj ?_, hopens, rfl⟩
  rw [hstream, ofBytes_cons, ofBytes_cons]

theorem yields_trailer (hf : fill.length < 8) (ht : trailer.length = 4) (more : List UInt8) :
    readTrailer.Yields (fill ++ ofBytes (trailer ++ more)) (Octets.ofBigEndian trailer)
      (ofBytes more) := by
  have hvalues : ∀ v ∈ trailer.map UInt8.toNat, v < 2 ^ 8 := by
    intro v hv
    obtain ⟨byte, -, rfl⟩ := List.mem_map.mp hv
    exact byte.toNat_lt
  have hbytes : (trailer.map UInt8.toNat).map UInt8.ofNat = trailer := by
    rw [List.map_map]
    exact List.map_id'' (fun _ => UInt8.ofNat_toNat) _
  have hread : (fields 8 4 : Parser (List Nat)).Yields (ofBytes trailer ++ ofBytes more)
      (trailer.map UInt8.toNat) (ofBytes more) := by
    have h : (fields 8 (trailer.map UInt8.toNat).length : Parser (List Nat)).Yields
        ((trailer.map UInt8.toNat).flatMap (ofNat 8) ++ ofBytes more) _ (ofBytes more) :=
      yields_fields hvalues
    rwa [List.flatMap_map, List.length_map, ht] at h
  refine (yields_align hf (by rw [length_ofBytes, Nat.mul_mod_right])).bind ?_
  rw [ofBytes_append]
  refine hread.bind ?_
  rw [hbytes]
  exact yields_pure _ _

theorem trailer_of_yields {value : Nat} (h : readTrailer.Yields bits value rest) :
    ∃ trailer : List UInt8, trailer.length = 4 ∧ value = Octets.ofBigEndian trailer ∧
      bits.drop (bits.length % 8) = ofBytes trailer ++ rest := by
  obtain ⟨⟨⟩, mid, halign, h⟩ := Incremental.exists_mid Incremental.align
    (fun _ => (Incremental.fields 8 4).bind fun _ => Incremental.pure _) h
  obtain ⟨values, mid', hfields, hpure⟩ := Incremental.exists_mid (Incremental.fields 8 4)
    (fun _ => Incremental.pure _) h
  obtain ⟨rfl, rfl⟩ := (yields_pure _ _).det hpure
  obtain ⟨hlength, hvalues, hmid⟩ := Incremental.eq_of_yields_fields hfields
  refine ⟨values.map UInt8.ofNat, by rw [List.length_map, hlength], rfl, ?_⟩
  have hbytes : ofBytes (values.map UInt8.ofNat) = values.flatMap (ofNat 8) := by
    rw [ofBytes, List.flatMap_map]
    exact List.flatMap_congr fun v _ => ofNat_uint8 v
  rw [← eq_of_yields_align halign, hmid, hbytes]

end Parsers

section Enclosed

/-- Within a frame the end of the data is where the trailer begins. -/
def Stage.enclosed : Stage → Stage
  | .ended => .trailer
  | stage => stage

def Cursor.enclosed (c : Cursor) : Cursor :=
  { c with stage := c.stage.enclosed }

def Flow.enclosed : Flow → Flow
  | .next d => .next d.enclosed
  | .stop .full d => .stop .full d.enclosed
  | flow => flow

variable {c d : Cursor}

theorem afterBlock_enclosed (last : Bool) :
    (Stage.afterBlock false last).enclosed = .afterBlock true last := by
  cases last <;> rfl

theorem reading_enclosed {α : Type} (c : Cursor) (p : Parser α) {next next' : α → BitReader → Flow}
    (h : ∀ a rest, next' a rest = (next a rest).enclosed) :
    c.reading p next' = (c.reading p next).enclosed := by
  rw [Cursor.reading, Cursor.reading]
  cases p c.reader with
  | value a rest => exact h a rest
  | short rest => rfl
  | refused flaw rest => rfl

/-- Each step within a frame is the step without. -/
theorem step_enclosed (sum : Adler) (base limit : Nat) (c : Cursor) :
    step true sum base limit c = (step false sum base limit c).enclosed := by
  obtain ⟨reader, stage, history⟩ := c
  cases stage with
  | frameHeader =>
    rw [step_frameHeader, step_frameHeader]
    exact reading_enclosed _ _ fun _ _ => rfl
  | blockHead =>
    rw [step_blockHead, step_blockHead]
    apply reading_enclosed
    rintro ⟨last, _ | _⟩ rest <;> rfl
  | stored last left =>
    rw [step, step]
    split
    · rw [Flow.enclosed, Cursor.enclosed, afterBlock_enclosed]
    · split
      · rfl
      · split <;> rfl
  | tokens last tables =>
    by_cases hroom : history.size < limit
    · rw [step_tokens _ _ _ _ _ _ _ _ hroom, step_tokens _ _ _ _ _ _ _ _ hroom]
      apply reading_enclosed
      rintro (_ | _ | _) rest
      · rw [Flow.enclosed, afterToken, afterToken, Cursor.enclosed, afterBlock_enclosed]
      · rfl
      · rfl
    · rw [step, step, if_pos (Nat.not_lt.mp hroom), if_pos (Nat.not_lt.mp hroom)]
      rfl
  | copying last tables length distance =>
    rw [step, step]
    split
    · rfl
    · split <;> rfl
  | trailer =>
    rw [step_trailer, step_trailer]
    apply reading_enclosed
    intro expected rest
    split <;> rfl
  | ended => rfl

theorem enclosed_of_leads (h : Leads false c d) : c.enclosed = c := by
  obtain ⟨reader, stage, history⟩ := c
  cases stage with
  | ended => obtain h | h := h <;> cases h
  | _ => rfl

theorem leads_enclosed (h : Leads false c d) : Leads true c.enclosed d.enclosed := by
  rw [enclosed_of_leads h, Leads, tick, step_enclosed]
  obtain h | h := h <;> rw [tick] at h <;> rw [h]
  · exact Or.inl rfl
  · exact Or.inr rfl

theorem leadsTo_enclosed (h : ReflTransGen (Leads false) c d) :
    ReflTransGen (Leads true) c.enclosed d.enclosed :=
  h.lift Cursor.enclosed fun _ _ => leads_enclosed

theorem leads_of_enclosed (h : Leads true c.enclosed d) :
    ∃ e, Leads false c e ∧ d = e.enclosed := by
  obtain ⟨reader, stage, history⟩ := c
  by_cases hended : stage = .ended
  · subst hended
    exact absurd h (not_leads_of_trailer d)
  · have hsame : Cursor.enclosed ⟨reader, stage, history⟩ = ⟨reader, stage, history⟩ := by
      cases stage with
      | ended => exact absurd rfl hended
      | _ => rfl
    rw [hsame, Leads, tick, step_enclosed] at h
    generalize hflow : step false _ _ _ _ = flow at h
    cases flow with
    | next e =>
      obtain h | h := h <;> cases h
      exact ⟨e, Or.inl hflow, rfl⟩
    | stop pause e =>
      cases pause with
      | full =>
        obtain h | h := h <;> cases h
        exact ⟨e, Or.inr hflow, rfl⟩
      | _ => obtain h | h := h <;> cases h

theorem leadsTo_of_enclosed (h : ReflTransGen (Leads true) c.enclosed d) :
    ∃ e, ReflTransGen (Leads false) c e ∧ d = e.enclosed := by
  induction h with
  | refl => exact ⟨c, .refl, rfl⟩
  | tail _ hlast ih =>
    obtain ⟨mid, hmid, rfl⟩ := ih
    obtain ⟨e, he, rfl⟩ := leads_of_enclosed hlast
    exact ⟨e, hmid.tail he, rfl⟩

end Enclosed

section Ending

variable {framed : Bool} {c d : Cursor} {r : BitReader} {bits fill : List Bool}
  {history : Array UInt8} {trailer more : List UInt8}

theorem Cursor.reading_cases {α : Type} (c : Cursor) (p : Parser α) (next : α → BitReader → Flow) :
    (∃ a rest, p c.reader = .value a rest ∧ c.reading p next = next a rest) ∨
      c.reading p next = .stop .needInput c ∨
      ∃ flaw rest, c.reading p next = .stop (.refused flaw) { c with reader := rest } := by
  rw [Cursor.reading]
  cases h : p c.reader with
  | value a rest => exact Or.inl ⟨a, rest, rfl, rfl⟩
  | short rest => exact Or.inr (Or.inl rfl)
  | refused flaw rest => exact Or.inr (Or.inr ⟨flaw, rest, rfl⟩)

theorem exists_of_leads {α : Type} {p : Parser α} {next : α → BitReader → Flow}
    (h : c.reading p next = .next d ∨ c.reading p next = .stop .full d) :
    ∃ a rest, p c.reader = .value a rest ∧
      (next a rest = .next d ∨ next a rest = .stop .full d) := by
  obtain ⟨a, rest, hp, hread⟩ | hread | ⟨flaw, rest, hread⟩ := c.reading_cases p next <;>
    rw [hread] at h
  · exact ⟨a, rest, hp, h⟩
  · obtain h | h := h <;> cases h
  · obtain h | h := h <;> cases h

theorem ne_trailer_of_leads (h : Leads false c d) : d.stage ≠ .trailer := by
  have hafter (last : Bool) : Stage.afterBlock false last ≠ .trailer := by
    cases last <;> simp [Stage.afterBlock]
  obtain ⟨reader, stage, history⟩ := c
  cases stage with
  | frameHeader =>
    rw [Leads, tick, step_frameHeader] at h
    obtain ⟨_, rest, -, h | h⟩ := exists_of_leads h <;> cases h
    simp
  | blockHead =>
    rw [Leads, tick, step_blockHead] at h
    obtain ⟨⟨last, _ | _⟩, rest, -, h | h⟩ := exists_of_leads h <;> cases h <;>
      simp [BlockHead.stage]
  | stored last left =>
    rw [Leads, tick, step] at h
    split at h
    · obtain h | h := h <;> cases h
      exact hafter last
    · split at h
      · obtain h | h := h <;> cases h
        simp
      · split at h <;> obtain h | h := h <;> cases h
        simp
  | tokens last tables =>
    rw [Leads, tick, step_tokens _ _ _ _ _ _ _ _ (Nat.lt_succ_self _)] at h
    obtain ⟨_ | _ | _, rest, -, h | h⟩ := exists_of_leads h <;> cases h
    · exact hafter last
    · simp [afterToken]
    · simp [afterToken]
  | copying last tables length distance =>
    rw [Leads, tick, step] at h
    split at h
    · obtain h | h := h <;> cases h
    · split at h <;> obtain h | h := h <;> cases h <;> simp
  | trailer => exact absurd h (not_leads_of_trailer d)
  | ended => obtain h | h := h <;> cases h

theorem ne_trailer_of_leadsTo (h : ReflTransGen (Leads false) c d) (hc : c.stage ≠ .trailer) :
    d.stage ≠ .trailer := by
  obtain rfl | ⟨before, -, hlast⟩ := h.cases_tail
  · exact hc
  · exact ne_trailer_of_leads hlast

theorem tick_trailer (framed : Bool) (history : Array UInt8)
    (hr : r.Holds (fill ++ ofBytes (trailer ++ more))) (hf : fill.length < 8)
    (ht : trailer.length = 4) :
    ∃ r', r'.Holds (ofBytes more) ∧ tick framed ⟨r, .trailer, history⟩ =
      if Octets.ofBigEndian trailer = Adler.checksum history.toList then
        .stop .ended ⟨r', .ended, history⟩
      else .stop (.refused .dataCheck) ⟨r', .trailer, history⟩ := by
  obtain ⟨r', hr', hread⟩ := reading_of_yields (yields_trailer hf ht more) hr _
  have hall : history.extract 0 history.size = history := Array.extract_size
  refine ⟨r', hr', ?_⟩
  rw [tick, step_trailer, hread, hall, Adler.value_update_start]

theorem exists_of_ended {α : Type} {p : Parser α} {next : α → BitReader → Flow}
    (h : c.reading p next = .stop .ended d) :
    ∃ a rest, p c.reader = .value a rest ∧ next a rest = .stop .ended d := by
  obtain ⟨a, rest, hp, hread⟩ | hread | ⟨flaw, rest, hread⟩ := c.reading_cases p next <;>
    rw [hread] at h
  · exact ⟨a, rest, hp, h⟩
  · cases h
  · cases h

theorem trailer_of_tick (hr : r.Holds bits)
    (h : tick framed ⟨r, .trailer, history⟩ = .stop .ended d) :
    d.history = history ∧ ∃ trailer rest, trailer.length = 4 ∧
      bits.drop (bits.length % 8) = ofBytes trailer ++ rest ∧ d.reader.Holds rest ∧
      Octets.ofBigEndian trailer = Adler.checksum history.toList := by
  rw [tick, step_trailer] at h
  obtain ⟨value, rest, hvalue, h⟩ := exists_of_ended h
  split at h
  next hsum =>
    cases h
    obtain ⟨after, hafter, -, hyields⟩ := incremental_readTrailer.yields hr hvalue
    have hyields := hyields []
    rw [ofBytes_nil, List.append_nil, List.append_nil] at hyields
    obtain ⟨trailer, hlength, rfl, hbits⟩ := trailer_of_yields hyields
    have hall : history.extract 0 history.size = history := Array.extract_size
    rw [hall, Adler.value_update_start] at hsum
    exact ⟨rfl, trailer, after, hlength, hbits, hafter, hsum⟩
  next => cases h

/-- A reading ends only behind data without a frame and behind a trailer. -/
theorem stage_of_tick_ended (h : tick framed c = .stop .ended d) :
    (c.stage = .ended ∧ d = c) ∨ c.stage = .trailer := by
  obtain ⟨reader, stage, history⟩ := c
  rw [tick] at h
  cases stage with
  | frameHeader =>
    rw [step_frameHeader] at h
    obtain ⟨_, _, _, h⟩ := exists_of_ended h
    cases h
  | blockHead =>
    rw [step_blockHead] at h
    obtain ⟨_, _, _, h⟩ := exists_of_ended h
    cases h
  | stored last left =>
    rw [step] at h
    split at h
    · cases h
    · split at h
      · cases h
      · split at h <;> cases h
  | tokens last tables =>
    rw [step_tokens _ _ _ _ _ _ _ _ (Nat.lt_succ_self _)] at h
    obtain ⟨_, _, _, h⟩ := exists_of_ended h
    cases h
  | copying last tables length distance =>
    rw [step] at h
    split at h
    · cases h
    · split at h <;> cases h
  | trailer => exact Or.inr rfl
  | ended =>
    cases h
    exact Or.inl ⟨rfl, rfl⟩

theorem exists_stop_of_trailer (framed : Bool) (sum : Adler) (base limit : Nat) (r : BitReader)
    (history : Array UInt8) :
    ∃ pause d, step framed sum base limit ⟨r, .trailer, history⟩ = .stop pause d ∧
      pause ≠ .full := by
  rw [step_trailer]
  obtain ⟨a, rest, -, hread⟩ | hread | ⟨flaw, rest, hread⟩ :=
    Cursor.reading_cases ⟨r, .trailer, history⟩ readTrailer _ <;> rw [hread]
  · split
    · exact ⟨_, _, rfl, by simp⟩
    · exact ⟨_, _, rfl, by simp⟩
  · exact ⟨_, _, rfl, by simp⟩
  · exact ⟨_, _, rfl, by simp⟩

/-- The trailer is read without room, so a call there that has no effect was given nothing. -/
theorem Decompressor.input_eq_nil_of_trailer {dec dec' : Decompressor} {input : List UInt8}
    {room : Nat} (hstage : dec.cursor.stage = .trailer)
    (h : dec.process input room = (.error .noProgress, dec')) : input = [] := by
  have hrunning : dec.cursor.stage.isEnded = false := by
    rw [hstage]
    rfl
  obtain ⟨pause, w, hstep, hfull⟩ := exists_stop_of_trailer dec.framed dec.sum
    (trim dec.cursor.history).size ((trim dec.cursor.history).size + room)
    (dec.cursor.reader.compact.push (input.take (appetite room))) (trim dec.cursor.history)
  have houtcome := hstep ▸ outcome_step _ _ _ _ _
  rw [process_eq_close hrunning, hstage, run_of_stop hstep] at h
  cases houtcome with
  | starved => exact input_eq_nil_of_conclude h
  | full => exact absurd rfl hfull
  | refused => cases h
  | ended _ hended =>
    rw [close, conclude_eq, if_neg] at h
    · cases h
    · simp [giveBack, hended, Stage.isEnded]

end Ending

end Conduit.Deflate
