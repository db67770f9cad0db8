import Conduit.Proofs.Deflate.Appending

namespace Conduit.Deflate

open BitParser Bits Relation

variable {framed : Bool} {more : List UInt8} {c d e whole : Cursor} {bits : List Bool}

/-- Both cursors are at the same place, one of them with `more` in its reader behind what the other
holds. -/
structure Cursor.Abreast (more : List UInt8) (d e : Cursor) : Prop where
  stage : e.stage = d.stage
  history : e.history = d.history
  holds : ∃ bits, d.reader.Holds bits ∧ e.reader.Holds (bits ++ ofBytes more)

section Step

theorem value_of_spared {α : Type} {p : Parser α} (hp : Incremental p) {r s s' : BitReader} {a : α}
    (hr : r.Holds bits) (hs : s.Holds (bits ++ ofBytes more)) (h : p s = .value a s')
    (he : 8 * more.length ≤ s'.available) :
    ∃ r' after, p r = .value a r' ∧ r'.Holds after ∧ s'.Holds (after ++ ofBytes more) := by
  obtain ⟨b, r', t, after, hpr, hps, hr', ht, -⟩ | ⟨r', -, hstarves, -⟩ | ⟨flaw, r', t, -, hps⟩ :=
    hp.beside hr hs
  · rw [h] at hps
    cases hps
    exact ⟨r', after, hpr, hr', ht⟩
  · exact absurd he (Nat.not_le.mpr (available_lt_of_starves hp hstarves hs h))
  · rw [h] at hps
    cases hps

theorem reading_of_spared {α : Type} {p : Parser α} (hp : Incremental p) {stage : Stage}
    {history : Array UInt8} {r s : BitReader} (hr : r.Holds bits)
    (hs : s.Holds (bits ++ ofBytes more)) {next : α → BitReader → Flow}
    (hnext : ∀ a, ∃ stage history, ∀ rest, next a rest = .next ⟨rest, stage, history⟩)
    (h : Cursor.reading ⟨s, stage, history⟩ p next = .next e ∨
      Cursor.reading ⟨s, stage, history⟩ p next = .stop .full e)
    (he : 8 * more.length ≤ e.reader.available) :
    ∃ d, Cursor.reading ⟨r, stage, history⟩ p next = .next d ∧ d.Abreast more e := by
  rw [Cursor.reading] at h
  dsimp only at h
  split at h
  next a s' hvalue =>
    obtain ⟨stage', history', ha⟩ := hnext a
    rw [ha] at h
    obtain h | h := h <;> cases h
    obtain ⟨r', after, hpr, hr', hs'⟩ := value_of_spared hp hr hs hvalue he
    refine ⟨⟨r', stage', history'⟩, ?_, rfl, rfl, after, hr', hs'⟩
    rw [Cursor.reading]
    dsimp only
    rw [hpr]
    exact ha r'
  next => obtain h | h := h <;> cases h
  next => obtain h | h := h <;> cases h

theorem afterToken_eq (framed last : Bool) (tables : Tables) (history : Array UInt8)
    (token : Option Token) :
    ∃ stage history', ∀ rest,
      Flow.next (afterToken framed last tables history rest token) =
        .next ⟨rest, stage, history'⟩ := by
  obtain - | ⟨byte⟩ | ⟨length, distance⟩ := token <;> exact ⟨_, _, fun _ => rfl⟩

theorem leads_stored_of_spared {last : Bool} {left : Nat} {history : Array UInt8}
    {r s : BitReader} {data : List UInt8} (hr : r.Holds (ofBytes data))
    (hs : s.Holds (ofBytes data ++ ofBytes more))
    (h : Leads framed ⟨s, .stored last left, history⟩ e)
    (he : 8 * more.length ≤ e.reader.available) :
    ∃ d, Leads framed ⟨r, .stored last left, history⟩ d ∧ d.Abreast more e := by
  by_cases h0 : left = 0
  · subst h0
    simp only [Leads, tick, step, if_true, reduceCtorEq, or_false] at h
    cases h
    exact ⟨⟨r, .afterBlock framed last, history⟩, Or.inl rfl, rfl, rfl, ofBytes data, hr, hs⟩
  · cases data with
    | nil =>
      -- a byte from behind would have to be taken
      rw [ofBytes_nil, List.nil_append] at hs
      cases more with
      | nil =>
        have ht := tick_stored_nil framed last history h0 hs
        exact absurd h (not_leads_of_stop (by simp) ht e)
      | cons byte more =>
        obtain ⟨s', hs', ht⟩ := tick_stored_cons framed last history hs h0
        obtain rfl := rightUnique_leads framed h (Or.inl ht)
        rw [hs'.available, length_ofBytes, List.length_cons] at he
        omega
    | cons byte data =>
      rw [← ofBytes_append, List.cons_append] at hs
      obtain ⟨s', hs', ht⟩ := tick_stored_cons framed last history hs h0
      obtain ⟨r', hr', ht'⟩ := tick_stored_cons framed last history hr h0
      obtain rfl := rightUnique_leads framed h (Or.inl ht)
      rw [ofBytes_append] at hs'
      exact ⟨_, Or.inl ht', rfl, rfl, ofBytes data, hr', hs'⟩

theorem leads_copying_of_spared {last : Bool} {tables : Tables} {length distance : Nat}
    {history : Array UInt8} {r s : BitReader} (hr : r.Holds bits)
    (hs : s.Holds (bits ++ ofBytes more))
    (h : Leads framed ⟨s, .copying last tables length distance, history⟩ e) :
    ∃ d, Leads framed ⟨r, .copying last tables length distance, history⟩ d ∧
      d.Abreast more e := by
  rw [Leads, tick, step] at h
  dsimp only at h
  split at h
  next => obtain h | h := h <;> cases h
  next after hafter =>
    split at h
    next hlt =>
      obtain h | h := h <;> cases h
      refine ⟨⟨r, .copying last tables _ distance, after⟩, Or.inr ?_, rfl, rfl, bits, hr, hs⟩
      rw [tick, step]
      dsimp only
      rw [hafter]
      exact if_pos hlt
    next hge =>
      obtain h | h := h <;> cases h
      refine ⟨⟨r, .tokens last tables, after⟩, Or.inl ?_, rfl, rfl, bits, hr, hs⟩
      rw [tick, step]
      dsimp only
      rw [hafter]
      exact if_neg hge

theorem not_leads_of_trailer {history : Array UInt8} {s : BitReader} (e : Cursor) :
    ¬ Leads framed ⟨s, .trailer, history⟩ e := by
  intro h
  rw [Leads, tick, step_trailer, Cursor.reading] at h
  split at h
  · split at h <;> obtain h | h := h <;> cases h
  · obtain h | h := h <;> cases h
  · obtain h | h := h <;> cases h

/-- A step that leaves alone what stands behind is made without it, too. -/
theorem leads_of_spared (hm : Mirrors [] 0 more bits whole c) (h : Leads framed whole e)
    (he : 8 * more.length ≤ e.reader.available) : ∃ d, Leads framed c d ∧ d.Abreast more e := by
  obtain ⟨r, stage, history⟩ := c
  obtain ⟨s, stage', history'⟩ := whole
  obtain rfl : stage' = stage := hm.stage
  obtain rfl : history' = history := hm.history_eq
  have hr := hm.holds
  have hs := hm.whole
  cases stage' with
  | frameHeader =>
    rw [Leads, tick, step_frameHeader] at h
    obtain ⟨d, hd, habreast⟩ := reading_of_spared incremental_readFrameHeader hr hs
      (fun _ => ⟨_, _, fun _ => rfl⟩) h he
    refine ⟨d, Or.inl ?_, habreast⟩
    rw [tick, step_frameHeader]
    exact hd
  | blockHead =>
    rw [Leads, tick, step_blockHead] at h
    obtain ⟨d, hd, habreast⟩ := reading_of_spared incremental_readBlockHead hr hs
      (fun _ => ⟨_, _, fun _ => rfl⟩) h he
    refine ⟨d, Or.inl ?_, habreast⟩
    rw [tick, step_blockHead]
    exact hd
  | stored last left =>
    obtain ⟨data, rfl⟩ := exists_ofBytes hm.sound
    exact leads_stored_of_spared hr hs h he
  | tokens last tables =>
    rw [Leads, tick, step_tokens _ _ _ _ _ _ _ _ (Nat.lt_succ_self _)] at h
    obtain ⟨d, hd, habreast⟩ := reading_of_spared (incremental_readToken tables _) hr hs
      (afterToken_eq framed last tables history') h he
    refine ⟨d, Or.inl ?_, habreast⟩
    rw [tick, step_tokens _ _ _ _ _ _ _ _ (Nat.lt_succ_self _)]
    exact hd
  | copying last tables length distance =>
    exact leads_copying_of_spared hr hs h
  | trailer => exact absurd h (not_leads_of_trailer e)
  | ended => obtain h | h := h <;> cases h

end Step

namespace Cursor.Precedes

theorem lead_back (h : c.Precedes more whole) (hl : Leads framed whole e)
    (he : 8 * more.length ≤ e.reader.available) :
    ∃ d, Leads framed c d ∧ d.Precedes more e := by
  obtain ⟨bits, hm⟩ := h
  obtain ⟨d, hd, hstage, hhistory, bits', hr, hs⟩ := leads_of_spared hm hl he
  obtain ⟨whole', -, bits'', hm'⟩ := leads ⟨bits, hm⟩ hd
  obtain rfl := hm'.holds.unique hr
  refine ⟨d, hd, bits'', hr, hs, hstage, hm'.sound, Nat.zero_le _, ?_, #[], ?_, Or.inl rfl⟩
  · rw [hhistory]
    rfl
  · rw [hhistory]
    exact Array.empty_append.symm

theorem leadsTo_back (h : c.Precedes more whole) (hl : ReflTransGen (Leads framed) whole e)
    (he : 8 * more.length ≤ e.reader.available) :
    ∃ d, ReflTransGen (Leads framed) c d ∧ d.Precedes more e := by
  induction hl using ReflTransGen.head_induction_on generalizing c with
  | refl => exact ⟨c, .refl, h⟩
  | @head whole mid hfirst hrest ih =>
    obtain ⟨mid', -, hself⟩ := h.whole_precedes.leads hfirst
    have hmid := hself.available_le_of_leads hrest
    obtain ⟨d, hd, hp⟩ := h.lead_back hfirst (he.trans hmid)
    obtain ⟨d', hd', hp'⟩ := ih hp
    exact ⟨d', .head hd hd', hp'⟩

end Cursor.Precedes

section Rebase

variable {before left left' : List UInt8} {base : Nat} {w : Cursor} {dec : Decompressor}

theorem Mirrors.exchanged (h : Mirrors before base left bits c w) (hstage : d.stage = c.stage)
    (hhistory : d.history = c.history) (hr : d.reader.Holds (bits ++ ofBytes left')) :
    Mirrors before base left' bits d w :=
  { h with
    whole := hr
    stage := hstage.trans h.stage
    output := hhistory ▸ h.output
    history := hhistory ▸ h.history }

namespace Decompressor

theorem Tracks.onward (h : dec.Tracks framed [] c) (hp : c.Precedes more whole) :
    dec.Tracks framed more whole := by
  obtain ⟨bits, hm, hb⟩ := h.mirrors
  obtain ⟨bits', hm'⟩ := hp
  have hhistory := hm'.history_eq
  have hwhole := hm.whole
  rw [ofBytes_nil, List.append_nil] at hwhole
  obtain rfl := hwhole.unique hm'.holds
  refine ⟨h.framed_eq, h.running, by rw [hhistory, h.sum_eq], bits, ?_, hb⟩
  rw [hhistory]
  exact hm.exchanged hm'.stage hhistory hm'.whole

theorem Tracks.back (h : dec.Tracks framed more whole) (hp : c.Precedes more whole) :
    dec.Tracks framed [] c := by
  obtain ⟨bits, hm, hb⟩ := h.mirrors
  obtain ⟨bits', hm'⟩ := hp
  have hhistory := hm'.history_eq
  obtain rfl := List.append_cancel_right (hm.whole.unique hm'.whole)
  refine ⟨h.framed_eq, h.running, by rw [← hhistory, h.sum_eq], bits, ?_, hb⟩
  rw [← hhistory]
  apply hm.exchanged hm'.stage.symm hhistory.symm
  rw [ofBytes_nil, List.append_nil]
  exact hm'.holds

end Decompressor

end Rebase

section Starving

/-- What is of no use is only waited on. -/
theorem tick_of_hungry (hr : c.reader.Holds bits) (hungry : c.stage.Hungry c.history.size bits) :
    tick framed c = .stop .needInput c := by
  have hreading {α : Type} {p : Parser α} (hs : p.Starves bits)
      (next : α → BitReader → Flow) : c.reading p next = .stop .needInput c := by
    obtain ⟨r', hp⟩ := hs _ hr
    rw [Cursor.reading, hp]
  obtain ⟨r, stage, history⟩ := c
  cases stage with
  | frameHeader =>
    rw [tick, step_frameHeader]
    exact hreading hungry _
  | blockHead =>
    rw [tick, step_blockHead]
    exact hreading hungry _
  | stored last left =>
    obtain ⟨hpos, rfl⟩ := hungry
    exact tick_stored_nil framed last history (Nat.ne_of_gt hpos) hr
  | tokens last tables =>
    rw [tick, step_tokens _ _ _ _ _ _ _ _ (Nat.lt_succ_self _)]
    exact hreading hungry _
  | trailer =>
    rw [tick, step_trailer]
    exact hreading hungry _
  | copying => exact hungry.elim
  | ended => exact hungry.elim

namespace Decompressor

variable {dec dec' : Decompressor} {input : List UInt8} {room : Nat} {step : Step}

theorem step_of_conclude {sum : Adler} {base consumed : Nat} {w : Cursor}
    (h : conclude framed sum base consumed w = (.ok step, dec)) :
    step = ⟨w.history.toList.drop base, consumed, w.stage.isEnded⟩ := by
  rw [conclude_eq] at h
  split at h <;> cases h
  rfl

/-- A call that leaves room has taken all that it looks at, and none of it is of use any more. -/
theorem Tracks.starved (h : dec.Tracks framed input c)
    (hp : dec.process input room = (.ok step, dec')) (hf : step.finished = false)
    (hroom : step.produced < room) :
    step.consumed = min (appetite room) input.length ∧
      ∃ e bits, ReflTransGen (Leads framed) c e ∧
        e.history.toList = c.history.toList ++ step.output ∧
        e.reader.Holds (bits ++ ofBytes (input.drop step.consumed)) ∧
        e.stage.Hungry e.history.size bits := by
  rw [process_eq_close h.running] at hp
  have hframed := h.framed_eq
  rw [← List.take_append_drop (appetite room) input] at h
  obtain ⟨bits, hstops⟩ := h.stops (Nat.zero_lt_of_lt hroom)
  generalize run _ _ _ _ _ = stopped at hp hstops
  obtain ⟨pause, w⟩ := stopped
  dsimp only at hstops
  cases pause with
  | refused flaw => cases hp
  | needInput =>
    obtain ⟨e, after, hat, hungry, -⟩ := hstops
    have hleads := hat.leads
    have hm := hat.mirrors
    simp only [call, hframed] at hleads hm
    obtain rfl := step_of_conclude hp
    have hdrop : input.drop (input.take (appetite room)).length = input.drop (appetite room) := by
      obtain hle | hle := Nat.le_total (appetite room) input.length
      · rw [List.length_take_of_le hle]
      · rw [List.take_of_length_le hle, List.drop_length, List.drop_of_length_le hle]
    refine ⟨List.length_take, e, after, hleads, hm.output, ?_, ?_⟩
    · rw [hdrop]
      exact hm.whole
    · rw [hm.stage]
      exact hungry.congr hm.min_size.symm
  | full =>
    -- the call has given out as much as it had room for
    obtain ⟨e, after, hat, -, hfull, -⟩ := hstops
    simp only [call] at hfull
    obtain rfl := step_of_conclude hp
    rw [Step.produced, List.length_drop, Array.length_toList] at hroom
    change w.history.size - _ < room at hroom
    omega
  | ended =>
    obtain ⟨-, -, -, -, -, -, -, -, hw⟩ := hstops
    obtain rfl := step_of_conclude hp
    rw [giveBack, hw] at hf
    cases hf

end Decompressor

end Starving

end Conduit.Deflate
