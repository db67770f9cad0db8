import Conduit.Proofs.Deflate.Mirroring

namespace Conduit.Deflate

open BitParser Bits Relation

def Pause.fault? : Pause → Option DecompressFault
  | .refused flaw => some (.flaw flaw)
  | .needInput => some .noProgress
  | _ => none

namespace Decompressor

/-- Between calls: the output so far is the history of `c`, and `left` is not taken yet. The reader
holds less than a byte, or what is of no use without more. -/
structure Tracks (d : Decompressor) (framed : Bool) (left : List UInt8) (c : Cursor) : Prop where
  framed_eq : d.framed = framed
  running : d.cursor.stage.isEnded = false
  sum_eq : d.sum = Adler.start.update c.history.toList
  mirrors : ∃ bits, Mirrors c.history.toList d.cursor.history.size left bits c d.cursor ∧
    (bits.length < 8 ∨ d.cursor.stage.Hungry d.cursor.history.size bits)

/-- What a call may answer when the whole reading stands at `c`. -/
def Answers (framed : Bool) (left : List UInt8) (c : Cursor) (backlog : Nat) :
    Except DecompressFault Step × Decompressor → Prop
  | (.ok step, d) =>
    step.consumed ≤ left.length ∧
      if step.finished then
        ∃ e bits, Halts framed c .ended e ∧ e.history.toList = c.history.toList ++ step.output ∧
          e.reader.Holds (bits ++ ofBytes (left.drop step.consumed)) ∧ bits.length < 8
      else
        ∃ e, ReflTransGen (Leads framed) c e ∧ e.history.toList = c.history.toList ++ step.output ∧
          d.Tracks framed (left.drop step.consumed) e ∧ 0 < step.output.length + step.consumed ∧
          d.backlog + step.output.length ≤ backlog + 8 * maxMatch * step.consumed
  | (.error fault, _) =>
    fault ≠ .flaw (.code .outOfRange) ∧
      ∃ pause e, Halts framed c pause e ∧ pause.fault? = some fault ∧
        c.history.toList <+: e.history.toList

end Decompressor

variable {framed : Bool} {c w : Cursor} {bits : List Bool} {before left rest data : List UInt8}
  {base reach : Nat} {stage : Stage} {d : Decompressor}

section Trim

theorem trim_spec (history : Array UInt8) :
    ∃ cut : Array UInt8, history = cut ++ Decompressor.trim history ∧
      (cut = #[] ∨ windowSize ≤ (Decompressor.trim history).size) := by
  rw [Decompressor.trim]
  split
  · refine ⟨history.extract 0 (history.size - windowSize), ?_, Or.inr ?_⟩
    · rw [Array.extract_append_extract]
      simp
    · rw [Array.size_extract]
      omega
  · exact ⟨#[], by simp, Or.inl rfl⟩

theorem min_size_trim (history : Array UInt8) :
    min history.size windowSize = min (Decompressor.trim history).size windowSize := by
  obtain ⟨cut, hc, hcut⟩ := trim_spec history
  have hs := congrArg Array.size hc
  rw [Array.size_append] at hs
  obtain rfl | hcut := hcut
  · rw [hs, Array.size_empty, Nat.zero_add]
  · omega

theorem Stage.Sound.congr {reach' : Nat} (h : stage.Sound reach bits)
    (hr : min reach windowSize = min reach' windowSize) : stage.Sound reach' bits := by
  cases stage with
  | copying last tables length distance =>
    obtain ⟨ht, h0, hl, hd, hw, hd'⟩ := h
    exact ⟨ht, h0, hl, hd, hw, by omega⟩
  | _ => exact h

theorem Stage.Hungry.congr {reach' : Nat} (h : stage.Hungry reach bits)
    (hr : min reach windowSize = min reach' windowSize) : stage.Hungry reach' bits := by
  cases stage with
  | tokens last tables =>
    rw [Stage.Hungry] at h ⊢
    rwa [← readToken_congr tables hr]
  | _ => exact h

theorem Stage.Hungry.isEnded_eq (h : stage.Hungry reach bits) : stage.isEnded = false := by
  cases stage with
  | ended => exact h.elim
  | _ => rfl

theorem sound_append (stage : Stage) (reach : Nat) (bits : List Bool) (data : List UInt8) :
    stage.Sound reach (bits ++ ofBytes data) ↔ stage.Sound reach bits := by
  cases stage with
  | stored last left =>
    rw [Stage.Sound, List.length_append, length_ofBytes, Nat.add_mul_mod_self_left, Stage.Sound]
  | _ => exact Iff.rfl

end Trim

theorem Mirrors.begun (h : Mirrors c.history.toList base (data ++ rest) bits c w) :
    Mirrors c.history.toList (Decompressor.trim w.history).size rest (bits ++ ofBytes data) c
      ⟨w.reader.compact.push data, w.stage, Decompressor.trim w.history⟩ where
  holds := h.holds.compact.push data
  whole := by
    rw [List.append_assoc, ← ofBytes_append]
    exact h.whole
  stage := h.stage
  sound := (sound_append _ _ _ _).mpr (h.sound.congr (min_size_trim _))
  base_le := Nat.le_refl _
  output := by simp
  history := by
    obtain ⟨dropped, he, hd⟩ := h.history
    obtain ⟨cut, hc, hcut⟩ := trim_spec w.history
    refine ⟨dropped ++ cut, ?_, ?_⟩
    · rw [Array.append_assoc, ← hc, he]
    · obtain rfl | hcut := hcut
      · refine hd.imp (fun hd => by rw [hd]; rfl) fun hd => ?_
        rwa [Array.empty_append.symm.trans hc.symm]
      · exact Or.inr hcut

theorem Mirrors.settled (h : Mirrors before base rest bits c w) :
    Mirrors c.history.toList w.history.size rest bits c w where
  holds := h.holds
  whole := h.whole
  stage := h.stage
  sound := h.sound
  base_le := Nat.le_refl _
  output := by simp
  history := h.history

section GiveBack

theorem exists_kept {start : List Bool} (hs : bits <:+ start ++ ofBytes data)
    (hl : bits.length < 8 * (data.length + 1)) :
    ∃ kept, bits = kept ++ ofBytes (data.drop (data.length - bits.length / 8)) ∧
      kept.length < 8 := by
  have hd : ofBytes (data.drop (data.length - bits.length / 8)) <:+ start ++ ofBytes data := by
    rw [← drop_ofBytes]
    exact (List.drop_suffix _ _).trans (List.suffix_append _ _)
  obtain ⟨kept, hk⟩ := List.suffix_of_suffix_length_le hd hs (by
    rw [length_ofBytes, List.length_drop]
    omega)
  refine ⟨kept, hk.symm, ?_⟩
  have hlen := congrArg List.length hk
  rw [List.length_append, length_ofBytes, List.length_drop] at hlen
  omega

theorem Mirrors.givenBack {kept : List Bool}
    (h : Mirrors before base rest (kept ++ ofBytes data) c w) :
    Mirrors before base (data ++ rest) kept c
      ⟨w.reader.unpush data.length, w.stage, w.history⟩ where
  holds := h.holds.unpush
  whole := by
    rw [ofBytes_append, ← List.append_assoc]
    exact h.whole
  stage := h.stage
  sound := (sound_append _ _ _ _).mp h.sound
  base_le := h.base_le
  output := h.output
  history := h.history

/-- After the untouched part of the offer has gone back, less than a byte is held. -/
theorem Mirrors.spared {start : List Bool} (h : Mirrors before base rest bits c w)
    (hs : bits <:+ start ++ ofBytes data) (hl : bits.length < 8 * (data.length + 1)) :
    ∃ kept w', Decompressor.giveBack data.length w = (data.length - bits.length / 8, w') ∧
      kept.length < 8 ∧
      Mirrors before base ((data ++ rest).drop (data.length - bits.length / 8)) kept c w' ∧
      w'.stage = w.stage ∧ w'.history = w.history ∧
      w'.promise + 8 * maxMatch * (bits.length / 8) = w.promise := by
  obtain ⟨kept, hk, hlt⟩ := exists_kept hs hl
  have hdrop : (data.drop (data.length - bits.length / 8)).length = bits.length / 8 := by
    rw [List.length_drop]
    omega
  have hmin : min (bits.length / 8) data.length = bits.length / 8 := by omega
  have hm := h
  rw [hk] at hm
  have hm := hm.givenBack
  rw [hdrop, ← List.drop_append_of_le_length (Nat.sub_le _ _)] at hm
  refine ⟨kept, _, ?_, hlt, hm, rfl, rfl, ?_⟩
  · simp only [Decompressor.giveBack, h.holds.untouched, hmin]
  · have hlen := congrArg List.length hk
    rw [List.length_append, length_ofBytes, hdrop] at hlen
    have ha := hm.holds.available
    simp only at ha
    simp only [Cursor.promise, ha, h.holds.available, maxMatch]
    omega

end GiveBack

section Conclude

theorem conclude_eq (framed : Bool) (sum : Adler) (base consumed : Nat) (w : Cursor) :
    Decompressor.conclude framed sum base consumed w =
      if w.history.toList.drop base = [] ∧ consumed = 0 ∧ w.stage.isEnded = false then
        (.error .noProgress, ⟨framed, w, sum.update (w.history.toList.drop base)⟩)
      else (.ok ⟨w.history.toList.drop base, consumed, w.stage.isEnded⟩,
        ⟨framed, w, sum.update (w.history.toList.drop base)⟩) := by
  simp only [Decompressor.conclude, toList_extract_size, Bool.and_eq_true, List.isEmpty_iff,
    beq_iff_eq, Bool.not_eq_true', and_assoc]

theorem answers_conclude {e : Cursor} {consumed backlog : Nat}
    (hleads : ReflTransGen (Leads framed) c e)
    (hm : Mirrors c.history.toList base (left.drop consumed) bits e w)
    (hb : bits.length < 8 ∨ w.stage.Hungry w.history.size bits) (hw : w.stage.isEnded = false)
    (hc : consumed ≤ left.length) (heffect : base + 1 ≤ w.history.size + consumed)
    (hp : w.promise + w.history.size ≤ backlog + 8 * maxMatch * consumed + base) :
    Decompressor.Answers framed left c backlog
      (Decompressor.conclude framed (Adler.start.update c.history.toList) base consumed w) := by
  have hlen : (w.history.toList.drop base).length = w.history.size - base := by simp
  have hbase := hm.base_le
  rw [conclude_eq, if_neg]
  · refine ⟨hc, ?_⟩
    rw [if_neg (by simp [hw])]
    refine ⟨e, hleads, hm.output, ⟨rfl, hw, ?_, bits, hm.settled, hb⟩, ?_, ?_⟩
    · simp only
      rw [hm.output, Adler.update_append_start]
    · simp only [hlen]
      omega
    · simp only [hlen]
      change w.promise + _ ≤ _
      omega
  · rintro ⟨hout, hzero, -⟩
    rw [hout, List.length_nil] at hlen
    omega

end Conclude

namespace Decompressor

theorem backlog_eq (d : Decompressor) : d.backlog = d.cursor.promise := rfl

def close (d : Decompressor) (base offered : Nat) :
    Pause × Cursor → Except DecompressFault Step × Decompressor
  | (.refused flaw, w) =>
    let output := (w.history.extract base w.history.size).toList
    (.error (.flaw flaw), ⟨d.framed, w, sumRefused flaw d.sum output⟩)
  | (.needInput, w) => conclude d.framed d.sum base offered w
  | (.full, w) | (.ended, w) =>
    conclude d.framed d.sum base (giveBack offered w).1 (giveBack offered w).2

theorem process_eq_close (h : d.cursor.stage.isEnded = false) (input : List UInt8) (room : Nat) :
    d.process input room =
      d.close (trim d.cursor.history).size (input.take (appetite room)).length
        (run d.framed d.sum (trim d.cursor.history).size ((trim d.cursor.history).size + room)
          ⟨d.cursor.reader.compact.push (input.take (appetite room)), d.cursor.stage,
            trim d.cursor.history⟩) := by
  rw [process]
  simp only [h, Bool.false_eq_true, if_false]
  obtain ⟨_ | _ | _ | _, w⟩ := run _ _ _ _ _ <;> rfl

def call (d : Decompressor) (c : Cursor) (bits : List Bool) (data rest : List UInt8) (room : Nat) :
    Call where
  framed := d.framed
  origin := c
  supply := bits ++ ofBytes data
  offered := data.length
  rest
  before := c.history.toList
  base := (trim d.cursor.history).size
  limit := (trim d.cursor.history).size + room
  bound := d.backlog + 8 * maxMatch * data.length + (trim d.cursor.history).size

theorem Tracks.stops_of_mirrors (h : d.Tracks framed (data ++ rest) c) {room : Nat}
    (hm : Mirrors c.history.toList d.cursor.history.size (data ++ rest) bits c d.cursor)
    (hb : bits.length < 8 ∨
      (d.cursor.stage.Emits → 0 < room) ∧ d.cursor.stage.Hungry d.cursor.history.size bits) :
    (d.call c bits data rest room).Stops
      (run d.framed d.sum (trim d.cursor.history).size ((trim d.cursor.history).size + room)
        ⟨d.cursor.reader.compact.push data, d.cursor.stage, trim d.cursor.history⟩).2
      (run d.framed d.sum (trim d.cursor.history).size ((trim d.cursor.history).size + room)
        ⟨d.cursor.reader.compact.push data, d.cursor.stage, trim d.cursor.history⟩).1 := by
  have hbegun := hm.begun
  have hat : (d.call c bits data rest room).At c
      ⟨d.cursor.reader.compact.push data, d.cursor.stage, trim d.cursor.history⟩
      (bits ++ ofBytes data) := by
    refine ⟨ReflTransGen.refl, hbegun, List.suffix_refl _, Nat.le_add_right _ _, ?_⟩
    have ha := hbegun.holds.available
    have ha' := hm.holds.available
    simp only [List.length_append, length_ofBytes] at ha
    simp only [call, backlog_eq, Cursor.promise, ha, ha', maxMatch]
    omega
  have hstops := hat.stops (hb.imp (fun hb => ?_) fun hb => ⟨?_, bits, data, rfl, rfl, ?_⟩)
  · rw [h.sum_eq]
    exact hstops
  · rw [Call.Spare, List.length_append, length_ofBytes]
    simp only [call]
    omega
  · intro hemits
    have hroom := hb.1 hemits
    simp only [call]
    omega
  · exact hb.2.congr (min_size_trim _)

theorem Tracks.stops (h : d.Tracks framed (data ++ rest) c) {room : Nat} (hroom : 0 < room) :
    ∃ bits, (d.call c bits data rest room).Stops
      (run d.framed d.sum (trim d.cursor.history).size ((trim d.cursor.history).size + room)
        ⟨d.cursor.reader.compact.push data, d.cursor.stage, trim d.cursor.history⟩).2
      (run d.framed d.sum (trim d.cursor.history).size ((trim d.cursor.history).size + room)
        ⟨d.cursor.reader.compact.push data, d.cursor.stage, trim d.cursor.history⟩).1 := by
  obtain ⟨bits, hm, hb⟩ := h.mirrors
  exact ⟨bits, h.stops_of_mirrors hm (hb.imp_right fun hungry => ⟨fun _ => hroom, hungry⟩)⟩

section Close

variable {room : Nat}

theorem Tracks.answers_refused (h : d.Tracks framed (data ++ rest) c) {flaw : Flaw}
    (hs : (d.call c bits data rest room).Stops w (.refused flaw)) :
    Answers framed (data ++ rest) c d.backlog
      (d.close (trim d.cursor.history).size data.length (.refused flaw, w)) := by
  obtain ⟨hf, e, e', hleads, ht, hpre⟩ := hs
  rw [call, h.framed_eq] at hleads ht
  refine ⟨fun he => hf (DecompressFault.flaw.inj he), .refused flaw, e', ⟨?_, e, hleads, ht⟩, rfl,
    hpre⟩
  intro he
  cases he

theorem Tracks.answers_needInput (h : d.Tracks framed (data ++ rest) c)
    (hne : data = [] → rest = []) (hs : (d.call c bits data rest room).Stops w .needInput) :
    Answers framed (data ++ rest) c d.backlog
      (d.close (trim d.cursor.history).size data.length (.needInput, w)) := by
  have hframed := h.framed_eq
  obtain ⟨e, after, hat, hungry, ht⟩ := hs
  have hleads := hat.leads
  have hm := hat.mirrors
  have hp := hat.promise_le
  have hbase := hm.base_le
  simp only [call, hframed] at hleads hm hp ht hbase
  rw [close, hframed, h.sum_eq]
  by_cases heffect : (trim d.cursor.history).size + 1 ≤ w.history.size + data.length
  · apply answers_conclude hleads (by rwa [List.drop_left]) (Or.inr hungry) hungry.isEnded_eq _
      heffect (by omega)
    rw [List.length_append]
    exact Nat.le_add_right _ _
  · -- nothing was offered and nothing came out, so nothing ever will
    have hdata : data = [] := List.length_eq_zero_iff.mp (by omega)
    have hout : w.history.toList.drop (trim d.cursor.history).size = [] := by
      rw [List.drop_eq_nil_iff, Array.length_toList]
      omega
    rw [conclude_eq, if_pos ⟨hout, List.length_eq_zero_iff.mpr hdata, hungry.isEnded_eq⟩]
    refine ⟨by simp, .needInput, e, ⟨by simp, e, hleads, ht (hne hdata)⟩, rfl, ?_⟩
    exact ⟨_, hm.output.symm⟩

theorem Tracks.answers_or_stuck (h : d.Tracks framed (data ++ rest) c)
    (hs : (d.call c bits data rest room).Stops w .full) :
    Answers framed (data ++ rest) c d.backlog
        (d.close (trim d.cursor.history).size data.length (.full, w)) ∨
      room = 0 ∧ (d.close (trim d.cursor.history).size data.length (.full, w)).1 =
        .error .noProgress := by
  have hframed := h.framed_eq
  obtain ⟨e, after, hat, hspare, hfull, hw⟩ := hs
  have hleads := hat.leads
  have hm := hat.mirrors
  have hp := hat.promise_le
  simp only [call, hframed] at hleads hm hp hfull
  obtain ⟨kept, w', hgive, hkept, hm', hstage, hhistory, hpromise⟩ := hm.spared hat.suffix hspare
  rw [close, hframed, h.sum_eq, hgive]
  rw [Call.Spare] at hspare
  simp only [call] at hspare
  dsimp only
  by_cases heffect : (trim d.cursor.history).size + 1 ≤
      w.history.size + (data.length - after.length / 8)
  · left
    apply answers_conclude hleads hm' (Or.inl hkept) (hstage ▸ hw)
    · rw [List.length_append]
      omega
    · rw [hhistory]
      omega
    · rw [hhistory]
      simp only [maxMatch] at hp hpromise ⊢
      omega
  · right
    refine ⟨by omega, ?_⟩
    have hout : w'.history.toList.drop (trim d.cursor.history).size = [] := by
      rw [hhistory, List.drop_eq_nil_iff, Array.length_toList]
      omega
    rw [conclude_eq, if_pos ⟨hout, by omega, hstage ▸ hw⟩]

theorem Tracks.answers_ended (h : d.Tracks framed (data ++ rest) c)
    (hs : (d.call c bits data rest room).Stops w .ended) :
    Answers framed (data ++ rest) c d.backlog
      (d.close (trim d.cursor.history).size data.length (.ended, w)) := by
  have hframed := h.framed_eq
  obtain ⟨e, e', after, hleads, ht, hm, hsuffix, hspare, hw⟩ := hs
  simp only [call, hframed] at hleads ht hm
  obtain ⟨kept, w', hgive, hkept, hm', hstage, hhistory, -⟩ := hm.spared hsuffix hspare
  have hended : w'.stage.isEnded = true := by rw [hstage, hw, Stage.isEnded]
  rw [close, hframed, h.sum_eq, hgive, conclude_eq, if_neg (by simp [hended])]
  refine ⟨?_, ?_⟩
  · simp only [List.length_append]
    omega
  · rw [if_pos hended]
    exact ⟨e', kept, ⟨by simp, e, hleads, ht⟩, hm'.output, hm'.whole, hkept⟩

theorem Tracks.answers_close (h : d.Tracks framed (data ++ rest) c)
    (hne : data = [] → rest = []) {pause : Pause}
    (hs : (d.call c bits data rest room).Stops w pause) :
    Answers framed (data ++ rest) c d.backlog
        (d.close (trim d.cursor.history).size data.length (pause, w)) ∨
      room = 0 ∧ (d.close (trim d.cursor.history).size data.length (pause, w)).1 =
        .error .noProgress := by
  cases pause with
  | refused flaw => exact Or.inl (h.answers_refused hs)
  | needInput => exact Or.inl (h.answers_needInput hne hs)
  | full => exact h.answers_or_stuck hs
  | ended => exact Or.inl (h.answers_ended hs)

end Close

/-- A stage that looks for room and finds none leaves all of the offer alone. -/
theorem Tracks.stuck (h : d.Tracks framed (data ++ rest) c)
    (hm : Mirrors c.history.toList d.cursor.history.size (data ++ rest) bits c d.cursor)
    (hungry : d.cursor.stage.Hungry d.cursor.history.size bits) (hemits : d.cursor.stage.Emits) :
    (d.close (trim d.cursor.history).size data.length
      (run d.framed d.sum (trim d.cursor.history).size ((trim d.cursor.history).size + 0)
        ⟨d.cursor.reader.compact.push data, d.cursor.stage, trim d.cursor.history⟩)).1 =
      .error .noProgress := by
  obtain ⟨w, hw⟩ : ∃ w : Cursor, w =
      ⟨d.cursor.reader.compact.push data, d.cursor.stage, trim d.cursor.history⟩ := ⟨_, rfl⟩
  have hstep : step d.framed d.sum (trim d.cursor.history).size
      ((trim d.cursor.history).size + 0) w = .stop .full w := by
    rw [hw]
    cases hstage : d.cursor.stage with
    | stored last left =>
      rw [hstage] at hungry
      rw [step, if_neg (Nat.ne_of_gt hungry.1), if_pos (Nat.add_zero _).le]
    | tokens last tables => rw [step, if_pos (Nat.add_zero _).le]
    | copying last tables length distance =>
      rw [hstage] at hungry
      exact hungry.elim
    | _ =>
      rw [hstage] at hemits
      exact hemits.elim
  have huntouched : data.length ≤ w.reader.untouched := by
    rw [hw, hm.begun.holds.untouched, List.length_append, length_ofBytes]
    omega
  have hout : w.history.toList.drop (trim d.cursor.history).size = [] := by
    rw [hw, List.drop_eq_nil_iff, Array.length_toList]
  have hrunning : w.stage.isEnded = false := by
    rw [hw]
    exact h.running
  rw [← hw, run_of_stop hstep, close, giveBack, Nat.min_eq_right huntouched, Nat.sub_self,
    conclude_eq, if_pos ⟨hout, rfl, hrunning⟩]

/-- Every call of a running decompressor answers as it should, or there is no room and the call has
no effect. -/
theorem Tracks.answers_any (h : d.Tracks framed left c) {input : List UInt8} (hin : input <+: left)
    (hne : input = [] → left = []) (room : Nat) :
    Answers framed left c d.backlog (d.process input room) ∨
      room = 0 ∧ (d.process input room).1 = .error .noProgress := by
  rw [process_eq_close h.running]
  obtain ⟨rest, hrest⟩ : ∃ rest, left = input.take (appetite room) ++ rest := by
    obtain ⟨rest, rfl⟩ := hin
    exact ⟨input.drop (appetite room) ++ rest, by rw [← List.append_assoc, List.take_append_drop]⟩
  have hdata : input.take (appetite room) = [] → left = [] := by
    intro he
    obtain he | he := List.take_eq_nil_iff.mp he
    · simp [appetite] at he
    · exact hne he
  generalize input.take (appetite room) = data at hrest hdata ⊢
  subst hrest
  have hrest : data = [] → rest = [] := fun he => (List.append_eq_nil_iff.mp (hdata he)).2
  obtain ⟨bits, hm, hb⟩ := h.mirrors
  by_cases hstuck : bits.length < 8 ∨ (d.cursor.stage.Emits → 0 < room)
  · refine h.answers_close hrest (h.stops_of_mirrors hm ?_)
    obtain hlt | hroom := hstuck
    · exact Or.inl hlt
    · exact hb.imp_right fun hungry => ⟨hroom, hungry⟩
  · obtain ⟨hle, hroom⟩ := not_or.mp hstuck
    obtain ⟨hemits, hzero⟩ := Classical.not_imp.mp hroom
    obtain rfl := Nat.eq_zero_of_not_pos hzero
    exact Or.inr ⟨rfl, h.stuck hm (hb.resolve_left hle) hemits⟩

theorem Tracks.answers (h : d.Tracks framed left c) {input : List UInt8} (hin : input <+: left)
    (hne : input = [] → left = []) {room : Nat} (hroom : 0 < room) :
    Answers framed left c d.backlog (d.process input room) :=
  (h.answers_any hin hne room).resolve_right fun hstuck => Nat.ne_of_gt hroom hstuck.1

end Decompressor

end Conduit.Deflate
