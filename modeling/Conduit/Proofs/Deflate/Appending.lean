import Conduit.Proofs.Deflate.Calls

namespace Conduit.Deflate

open BitParser Bits Relation

variable {framed : Bool} {more : List UInt8} {c d whole : Cursor} {bits : List Bool}

/-- `whole` is where `c` is, with `more` in its reader behind what that of `c` holds. -/
def Cursor.Precedes (more : List UInt8) (c whole : Cursor) : Prop :=
  ∃ bits, Mirrors [] 0 more bits whole c

theorem Mirrors.history_eq (h : Mirrors [] 0 more bits whole c) : whole.history = c.history := by
  apply Array.toList_inj.mp
  rw [h.output, List.nil_append, List.drop_zero]

theorem Cursor.Precedes.history_eq (h : c.Precedes more whole) : whole.history = c.history :=
  h.elim fun _ hm => hm.history_eq

theorem Cursor.precedes_of_holds {r s : BitReader} {stage : Stage} {history : Array UInt8}
    (hsound : stage.Sound history.size bits) (hr : r.Holds bits)
    (hs : s.Holds (bits ++ ofBytes more)) :
    (⟨r, stage, history⟩ : Cursor).Precedes more ⟨s, stage, history⟩ :=
  ⟨bits, hr, hs, rfl, hsound, Nat.zero_le _, rfl, #[], Array.empty_append.symm, Or.inl rfl⟩

/-- One tick as a call of its own, which starts at `whole` and is offered all that `c` holds. -/
def ticking (framed : Bool) (more : List UInt8) (c whole : Cursor) (bits : List Bool) : Call where
  framed
  origin := whole
  supply := bits
  offered := bits.length
  rest := more
  before := []
  base := 0
  limit := c.history.size + 1
  bound := c.promise + c.history.size

theorem Mirrors.follows_tick (h : Mirrors [] 0 more bits whole c) (framed : Bool) :
    (ticking framed more c whole bits).Follows (tick framed c) := by
  have hat : (ticking framed more c whole bits).At whole c bits :=
    ⟨.refl, h, List.suffix_refl bits, Nat.le_succ _, Nat.le_refl _⟩
  have hspare : (ticking framed more c whole bits).Spare bits := by
    change bits.length < 8 * (bits.length + 1)
    omega
  have hfollows := hat.follows (Or.inl hspare)
  rwa [ticking, Adler.update_nil] at hfollows

namespace Cursor.Precedes

theorem leads (h : c.Precedes more whole) (hl : Leads framed c d) :
    ∃ whole', ReflTransGen (Leads framed) whole whole' ∧ d.Precedes more whole' := by
  obtain ⟨bits, hm⟩ := h
  have hf := hm.follows_tick framed
  obtain hl | hl := hl
  · rw [hl] at hf
    obtain ⟨whole', bits', hat, -⟩ := hf
    exact ⟨whole', hat.leads, bits', hat.mirrors⟩
  · rw [hl] at hf
    obtain ⟨whole', bits', hat, -⟩ := hf
    exact ⟨whole', hat.leads, bits', hat.mirrors⟩

theorem leadsTo (h : c.Precedes more whole) (hl : ReflTransGen (Leads framed) c d) :
    ∃ whole', ReflTransGen (Leads framed) whole whole' ∧ d.Precedes more whole' := by
  induction hl with
  | refl => exact ⟨whole, .refl, h⟩
  | tail _ hl ih =>
    obtain ⟨mid, hmid, hp⟩ := ih
    obtain ⟨whole', hwhole, hp'⟩ := hp.leads hl
    exact ⟨whole', hmid.trans hwhole, hp'⟩

theorem halts_ended (h : c.Precedes more whole) (hh : Halts framed c .ended d) :
    ∃ e, Halts framed whole .ended e ∧ d.Precedes more e := by
  obtain ⟨hp, mid, hl, ht⟩ := hh
  obtain ⟨whole', hwhole, bits, hm⟩ := h.leadsTo hl
  have hf := hm.follows_tick framed
  rw [ht] at hf
  obtain ⟨last, e, bits', hlast, he, hm', -⟩ := hf
  exact ⟨e, ⟨hp, last, hwhole.trans hlast, he⟩, bits', hm'⟩

theorem halts_refused (h : c.Precedes more whole) {flaw : Flaw}
    (hh : Halts framed c (.refused flaw) d) : ∃ e, Halts framed whole (.refused flaw) e := by
  obtain ⟨hp, mid, hl, ht⟩ := hh
  obtain ⟨whole', hwhole, bits, hm⟩ := h.leadsTo hl
  have hf := hm.follows_tick framed
  rw [ht] at hf
  obtain ⟨-, last, e, hlast, he, -⟩ := hf
  exact ⟨e, hp, last, hwhole.trans hlast, he⟩

/-- Where the bits at hand do not suffice, the whole reading passes by. -/
theorem halts_needInput (h : c.Precedes more whole) (hh : Halts framed c .needInput d) :
    ∃ whole' bits, ReflTransGen (Leads framed) whole whole' ∧ Mirrors [] 0 more bits whole' d ∧
      d.stage.Hungry d.history.size bits := by
  obtain ⟨-, mid, hl, ht⟩ := hh
  obtain ⟨whole', hwhole, bits, hm⟩ := h.leadsTo hl
  have hf := hm.follows_tick framed
  rw [ht] at hf
  obtain ⟨last, bits', hat, hungry, -⟩ := hf
  exact ⟨last, bits', hwhole.trans hat.leads, hat.mirrors, hungry⟩

theorem suffix_of_leads (h : c.Precedes more whole) (hl : ReflTransGen (Leads framed) c d) :
    ∃ bits after, c.reader.Holds bits ∧ d.reader.Holds after ∧ after <:+ bits := by
  induction hl with
  | refl =>
    obtain ⟨bits, hm⟩ := h
    exact ⟨bits, bits, hm.holds, hm.holds, List.suffix_refl bits⟩
  | @tail mid d hl hlast ih =>
    obtain ⟨bits, after, hbits, hafter, hsuffix⟩ := ih
    obtain ⟨whole', -, bits', hm⟩ := h.leadsTo hl
    obtain rfl := hafter.unique hm.holds
    have hf := hm.follows_tick framed
    obtain hlast | hlast := hlast <;>
    · rw [hlast] at hf
      obtain ⟨c', after', hat, -⟩ := hf
      exact ⟨bits, after', hbits, hat.mirrors.holds, hat.suffix.trans hsuffix⟩

theorem available_le_of_leads (h : c.Precedes more whole) (hl : ReflTransGen (Leads framed) c d) :
    d.reader.available ≤ c.reader.available := by
  obtain ⟨bits, after, hbits, hafter, hsuffix⟩ := h.suffix_of_leads hl
  rw [hafter.available, hbits.available]
  exact hsuffix.length_le

theorem available_le_of_halts (h : c.Precedes more whole) (hh : Halts framed c .ended d) :
    d.reader.available ≤ c.reader.available := by
  obtain ⟨-, mid, hl, ht⟩ := hh
  obtain ⟨whole', -, bits, hm⟩ := h.leadsTo hl
  have hf := hm.follows_tick framed
  rw [ht] at hf
  obtain ⟨last, e, bits', -, -, hm', hsuffix, -⟩ := hf
  apply le_trans _ (h.available_le_of_leads hl)
  rw [hm'.holds.available, hm.holds.available]
  exact hsuffix.length_le

theorem whole_precedes (h : c.Precedes more whole) : whole.Precedes [] whole := by
  obtain ⟨bits, hm⟩ := h
  apply Cursor.precedes_of_holds _ hm.whole
  · rw [ofBytes_nil, List.append_nil]
    exact hm.whole
  · rw [hm.stage, hm.history_eq]
    exact (sound_append _ _ _ _).mpr hm.sound

end Cursor.Precedes

section Alone

def Flow.Below (bound : Nat) : Flow → Prop
  | .next d | .stop .full d | .stop .ended d => d.reader.available < bound
  | .stop _ _ => True

theorem available_lt_of_starves {α : Type} {p : Parser α} (hp : Incremental p)
    (hs : p.Starves bits) {r rest : BitReader} {a : α} (hr : r.Holds (bits ++ ofBytes more))
    (h : p r = .value a rest) : rest.available < 8 * more.length := by
  obtain ⟨after, hafter, -, hy⟩ := hp.yields hr h
  rw [hafter.available]
  apply hp.length_lt_of_starves hs
  simpa using hy []

theorem below_reading {α : Type} {p : Parser α} (hp : Incremental p) (hs : p.Starves bits)
    (hr : c.reader.Holds (bits ++ ofBytes more)) {next : α → BitReader → Flow}
    (h : ∀ a rest, rest.available < 8 * more.length → (next a rest).Below (8 * more.length)) :
    (c.reading p next).Below (8 * more.length) := by
  rw [Cursor.reading]
  split
  next a rest hvalue => exact h a rest (available_lt_of_starves hp hs hr hvalue)
  · exact trivial
  · exact trivial

theorem below_tick (hungry : c.stage.Hungry c.history.size bits)
    (hr : c.reader.Holds (bits ++ ofBytes more)) : (tick framed c).Below (8 * more.length) := by
  obtain ⟨r, stage, history⟩ := c
  rw [tick]
  cases stage with
  | frameHeader =>
    rw [step_frameHeader]
    exact below_reading incremental_readFrameHeader hungry hr fun _ _ h => h
  | blockHead =>
    rw [step_blockHead]
    exact below_reading incremental_readBlockHead hungry hr fun _ _ h => h
  | stored last left =>
    obtain ⟨hpos, rfl⟩ := hungry
    have havailable := hr.available
    rw [List.nil_append, length_ofBytes] at havailable
    rw [step, if_neg (Nat.ne_of_gt hpos), if_neg (by dsimp only; omega)]
    split
    · exact trivial
    next byte bytes rest hcopy => exact (available_copyBytes hcopy).trans_eq havailable
  | tokens last tables =>
    rw [step_tokens _ _ _ _ _ _ _ _ (Nat.lt_succ_self _)]
    apply below_reading (incremental_readToken tables _) hungry hr
    rintro (_ | _ | _) rest h <;> exact h
  | copying last tables length distance => exact hungry.elim
  | trailer =>
    rw [step_trailer]
    apply below_reading incremental_readTrailer hungry hr
    intro expected rest h
    split
    · exact h
    · exact trivial
  | ended => exact hungry.elim

/-- Where nothing could be done with the bits at hand, the first step touches what stands behind. -/
theorem available_lt_of_leads (hungry : c.stage.Hungry c.history.size bits)
    (hr : c.reader.Holds (bits ++ ofBytes more)) (h : Leads framed c d) :
    d.reader.available < 8 * more.length := by
  have hbelow : (tick framed c).Below (8 * more.length) := below_tick hungry hr
  obtain h | h := h <;> rwa [h] at hbelow

theorem available_lt_of_hungry (hm : Mirrors [] 0 more bits whole d)
    (hungry : d.stage.Hungry d.history.size bits) {e : Cursor}
    (hw : Halts framed whole .ended e) : e.reader.available < 8 * more.length := by
  have hungry' : whole.stage.Hungry whole.history.size bits := by
    rwa [hm.stage, hm.history_eq]
  obtain ⟨hp, last, hl, ht⟩ := hw
  obtain rfl | ⟨mid, hmid, hlast⟩ := hl.cases_head
  · have hbelow : (tick framed whole).Below (8 * more.length) := below_tick hungry' hm.whole
    rwa [ht] at hbelow
  · have hself : whole.Precedes [] whole := Cursor.Precedes.whole_precedes ⟨bits, hm⟩
    obtain ⟨mid', -, hprecedes⟩ := hself.leads hmid
    apply (hprecedes.available_le_of_halts ⟨hp, last, hlast, ht⟩).trans_lt
    exact available_lt_of_leads hungry' hm.whole hmid

theorem Cursor.Precedes.halts_alone (h : c.Precedes more whole) {e : Cursor}
    (hw : Halts framed whole .ended e) (he : 8 * more.length ≤ e.reader.available) {pause : Pause}
    (hc : Halts framed c pause d) : pause = .ended ∧ d.Precedes more e := by
  cases pause with
  | full => exact absurd rfl hc.1
  | refused flaw =>
    obtain ⟨e', he'⟩ := h.halts_refused hc
    cases (hw.unique he').1
  | ended =>
    obtain ⟨e', he', hp⟩ := h.halts_ended hc
    obtain ⟨-, rfl⟩ := hw.unique he'
    exact ⟨rfl, hp⟩
  | needInput =>
    -- where `c` runs short the whole reading touches what stands behind, and that is not given back
    obtain ⟨whole', bits, hl, hm, hungry⟩ := h.halts_needInput hc
    have hlt := available_lt_of_hungry hm hungry (hw.after hl)
    exact absurd he (Nat.not_le.mpr hlt)

end Alone

end Conduit.Deflate
