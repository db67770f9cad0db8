import Conduit.Proofs.Deflate.Stalling

namespace Conduit.Deflate

open BitParser

def Cursor.worth (c : Cursor) : Nat :=
  c.promise + c.history.size

/-- If reading does not refuse what it finds, no more than this is there afterwards. -/
def Flow.Within (bound : Nat) : Flow → Prop
  | .next d => d.worth ≤ bound
  | .stop (.refused _) _ => True
  | .stop _ d => d.worth ≤ bound

variable {framed : Bool} {sum : Adler} {base limit : Nat} {c d w : Cursor} {r rest : BitReader}

section Step

theorem consumes_readTrailer : Consumes 0 readTrailer :=
  consumes_align.andThen fun _ => (consumes_fields 8 4).andThen fun _ => consumes_pure _

theorem meets_length (tables : Tables) (reach : Nat) :
    Meets (readToken tables reach)
      (fun t => ∀ length distance, t = some (.copy length distance) → length ≤ maxMatch)
      fun _ => True := by
  apply (Meets.anything _).bind
  intro s _
  split
  · exact Meets.pure (by simp)
  split
  · exact Meets.pure (by simp)
  split
  · exact Meets.refuse trivial
  next least extraBits hclass =>
    apply (Meets.bits _ _).bind
    intro offset ho
    apply (Meets.anything _).bind
    intro d _
    split
    · exact Meets.refuse trivial
    · apply (Meets.anything _).bind
      intro offset' _
      dsimp only
      split
      · exact Meets.refuse trivial
      · apply Meets.pure
        rintro length distance ⟨⟩
        exact (lengthClasses_range hclass ho).2

theorem length_copyBytes_le {bytes : List UInt8} {n : Nat} (h : r.copyBytes n = (bytes, rest)) :
    rest.available + bytes.length ≤ r.available := by
  simp only [BitReader.copyBytes, Prod.mk.injEq] at h
  obtain ⟨hb, rfl⟩ := h
  have hl := congrArg List.length hb
  simp only [Array.length_toList, Array.size_extract] at hl
  simp only [BitReader.available, hb]
  omega

theorem within_reading {α : Type} {p : Parser α} {n bound : Nat} (hp : Consumes n p)
    (hc : c.worth ≤ bound) {next : α → BitReader → Flow}
    (h : ∀ a rest, p c.reader = .value a rest → rest.available + n ≤ c.reader.available →
      (next a rest).Within bound) : (c.reading p next).Within bound := by
  rw [Cursor.reading]
  split
  next a rest hvalue => exact h a rest hvalue (hp _ _ _ hvalue)
  next => exact hc
  next => trivial

theorem promise_afterBlock_eq (framed last : Bool) (r : BitReader) (history : Array UInt8) :
    (⟨r, .afterBlock framed last, history⟩ : Cursor).promise = maxMatch * r.available := by
  cases framed <;> cases last <;> rfl

theorem within_copying (last : Bool) (tables : Tables) (length distance : Nat) (r : BitReader)
    (history : Array UInt8) :
    (step framed sum base limit ⟨r, .copying last tables length distance, history⟩).Within
      (⟨r, .copying last tables length distance, history⟩ : Cursor).worth := by
  rw [step]
  split
  · trivial
  next after hafter =>
    obtain ⟨-, hsize⟩ := extend_spec hafter
    split <;> simp only [Flow.Within, Cursor.worth, Cursor.promise] <;> omega

theorem within_step (framed : Bool) (sum : Adler) (base limit : Nat) (c : Cursor) :
    (step framed sum base limit c).Within c.worth := by
  obtain ⟨r, stage, history⟩ := c
  cases stage with
  | frameHeader =>
    rw [step_frameHeader]
    apply within_reading consumes_readFrameHeader (Nat.le_refl _)
    intro a rest hvalue hrest
    simp only [Flow.Within, Cursor.worth, Cursor.promise, maxMatch] at hrest ⊢
    omega
  | blockHead =>
    rw [step_blockHead]
    apply within_reading consumes_readBlockHead (Nat.le_refl _)
    rintro ⟨last, head⟩ rest hvalue hrest
    cases head <;>
    · simp only [Flow.Within, Cursor.worth, Cursor.promise, BlockHead.stage, maxMatch] at hrest ⊢
      omega
  | stored last left =>
    rw [step]
    split
    · simp only [Flow.Within, Cursor.worth, promise_afterBlock_eq]
      exact Nat.le_refl _
    split
    · exact Nat.le_refl _
    split
    · exact Nat.le_refl _
    next byte bytes rest hcopy =>
      have hle := length_copyBytes_le hcopy
      simp only [Flow.Within, Cursor.worth, Cursor.promise, size_append_list, maxMatch] at hle ⊢
      omega
  | tokens last tables =>
    by_cases hroom : history.size < limit
    · rw [step_tokens _ _ _ _ _ _ _ _ hroom]
      apply within_reading (consumes_readToken tables history.size) (Nat.le_refl _)
      rintro token rest hvalue hrest
      obtain - | ⟨byte⟩ | ⟨length, distance⟩ := token
      · simp only [afterToken, Flow.Within, Cursor.worth, promise_afterBlock_eq] at hrest ⊢
        simp only [Cursor.promise, maxMatch]
        omega
      · simp only [afterToken, Flow.Within, Cursor.worth, Cursor.promise, Array.size_push,
          maxMatch] at hrest ⊢
        omega
      · have hlength := (meets_length tables history.size r).1 _ _ hvalue length distance rfl
        simp only [afterToken, Flow.Within, Cursor.worth, Cursor.promise, maxMatch]
          at hrest hlength ⊢
        omega
    · rw [step, if_pos (Nat.not_lt.mp hroom)]
      exact Nat.le_refl _
  | copying last tables length distance => exact within_copying _ _ _ _ _ _
  | trailer =>
    rw [step_trailer]
    apply within_reading consumes_readTrailer (Nat.le_refl _)
    intro expected rest hvalue hrest
    split
    · simp only [Flow.Within, Cursor.worth, Cursor.promise, maxMatch] at hrest ⊢
      omega
    · trivial
  | ended => exact Nat.le_refl _

end Step

section Call

theorem Outcome.size_le (h : Outcome limit c (.next d)) : c.history.size ≤ d.history.size := by
  cases h with
  | next grows => simpa using grows.length_le

theorem Outcome.size_le_of_stop {pause : Pause} (h : Outcome limit c (.stop pause w))
    (hp : ∀ flaw, pause ≠ .refused flaw) : c.history.size ≤ w.history.size := by
  cases h with
  | starved => exact Nat.le_refl _
  | full grows => simpa using grows.length_le
  | refused flaw => exact absurd rfl (hp flaw)
  | ended history => rw [history]

/-- A reading that refuses nothing gives out no more than it uses up. -/
theorem worth_le_of_run {pause : Pause} (h : run framed sum base limit c = (pause, w))
    (hp : ∀ flaw, pause ≠ .refused flaw) :
    c.history.size ≤ w.history.size ∧ w.worth ≤ c.worth := by
  induction hn : c.work using Nat.strong_induction_on generalizing c with
  | _ n ih =>
    have hwithin := within_step framed sum base limit c
    have houtcome := outcome_step framed sum base limit c
    rw [run] at h
    split at h
    next d hd =>
      rw [hd] at hwithin houtcome
      obtain ⟨hsize, hworth⟩ := ih d.work (hn ▸ work_lt_of_step hd) h rfl
      exact ⟨houtcome.size_le.trans hsize, hworth.trans hwithin⟩
    next pause d hd =>
      cases h
      rw [hd] at hwithin houtcome
      refine ⟨houtcome.size_le_of_stop hp, ?_⟩
      cases pause with
      | refused flaw => exact absurd rfl (hp flaw)
      | _ => exact hwithin

theorem available_compact_le (r : BitReader) : r.compact.available ≤ r.available := by
  obtain ⟨buffer, position⟩ := r
  rw [BitReader.compact]
  split
  · exact Nat.le_refl _
  · simp only [BitReader.available, Array.size_extract]
    omega

theorem available_push_le (r : BitReader) (data : List UInt8) :
    (r.push data).available ≤ r.available + 8 * data.length := by
  simp only [BitReader.push, BitReader.available, size_append_list]
  omega

theorem promise_giveBack (offered : Nat) (c : Cursor) :
    (Decompressor.giveBack offered c).2.promise + 8 * maxMatch * offered =
      c.promise + 8 * maxMatch * (Decompressor.giveBack offered c).1 := by
  obtain ⟨⟨buffer, position⟩, stage, history⟩ := c
  simp only [Decompressor.giveBack, Cursor.promise, BitReader.unpush, BitReader.available,
    BitReader.untouched, Array.take_eq_extract, Array.size_extract, maxMatch]
  omega

theorem Decompressor.backlog_conclude {step : Step} {d' : Decompressor} {consumed : Nat}
    (h : conclude framed sum base consumed w = (.ok step, d')) :
    d'.backlog = w.promise ∧ step.output.length = w.history.size - base ∧
      step.consumed = consumed := by
  rw [conclude_eq] at h
  split at h <;> cases h
  refine ⟨rfl, ?_, rfl⟩
  rw [List.length_drop, Array.length_toList]

def Decompressor.begun (d : Decompressor) (data : List UInt8) : Cursor :=
  ⟨d.cursor.reader.compact.push data, d.cursor.stage, trim d.cursor.history⟩

theorem Decompressor.worth_begun_le (d : Decompressor) (data : List UInt8) :
    (d.begun data).worth ≤
      d.backlog + 8 * maxMatch * data.length + (trim d.cursor.history).size := by
  have hpush := available_push_le d.cursor.reader.compact data
  have hcompact := available_compact_le d.cursor.reader
  simp only [begun, Cursor.worth, backlog_eq, Cursor.promise, maxMatch]
  omega

/-- What comes out of a call is paid for by what was at hand and by the input that it takes. -/
theorem Decompressor.backlog_process {d d' : Decompressor} {input : List UInt8} {room : Nat}
    {step : Step} (h : d.process input room = (.ok step, d')) :
    d'.backlog + step.output.length ≤ d.backlog + 8 * maxMatch * step.consumed := by
  cases hended : d.cursor.stage.isEnded with
  | true =>
    rw [process_of_isEnded hended] at h
    cases h
    exact Nat.le_refl _
  | false =>
    rw [process_eq_close hended] at h
    generalize hdata : input.take (appetite room) = data at h
    have hstart := worth_begun_le d data
    rcases hrun : run d.framed d.sum (trim d.cursor.history).size
      ((trim d.cursor.history).size + room) (d.begun data) with ⟨pause, w⟩
    rw [begun] at hrun
    rw [hrun] at h
    cases pause with
    | refused flaw => cases h
    | needInput =>
      obtain ⟨hsize, hworth⟩ := worth_le_of_run hrun (by rintro flaw ⟨⟩)
      obtain ⟨hbacklog, hlength, hconsumed⟩ := backlog_conclude h
      rw [Cursor.worth] at hworth
      rw [begun] at hstart
      rw [hbacklog, hlength, hconsumed]
      dsimp only at hsize
      omega
    | full | ended =>
      obtain ⟨hsize, hworth⟩ := worth_le_of_run hrun (by rintro flaw ⟨⟩)
      obtain ⟨hbacklog, hlength, hconsumed⟩ := backlog_conclude h
      have hgiven := promise_giveBack data.length w
      rw [Cursor.worth] at hworth
      rw [begun] at hstart
      have hhistory : (giveBack data.length w).2.history = w.history := rfl
      rw [hbacklog, hlength, hconsumed, hhistory]
      dsimp only at hsize
      omega

end Call

end Conduit.Deflate
