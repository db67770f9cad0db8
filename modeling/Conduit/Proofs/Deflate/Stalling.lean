import Conduit.Proofs.Deflate.Calls
import Conduit.Proofs.Deflate.Outcomes

namespace Conduit.Deflate.Decompressor

variable {d d' : Decompressor} {input : List UInt8} {room : Nat}

theorem input_eq_nil_of_conclude {framed : Bool} {sum : Adler} {base : Nat} {w : Cursor}
    (h : conclude framed sum base (input.take (appetite room)).length w =
      (.error .noProgress, d')) : input = [] := by
  rw [conclude_eq] at h
  split at h
  next hnone =>
    obtain ⟨-, hlength, -⟩ := hnone
    obtain hzero | hnil := List.take_eq_nil_iff.mp (List.length_eq_zero_iff.mp hlength)
    · simp [appetite] at hzero
    · exact hnil
  · cases h

/-- With room for output, a call that can do nothing was given nothing. -/
theorem input_eq_nil_of_noProgress (hroom : 0 < room)
    (h : d.process input room = (.error .noProgress, d')) : input = [] := by
  have hrunning : d.cursor.stage.isEnded = false := by
    by_contra hended
    rw [Bool.not_eq_false] at hended
    simp [process, hended] at h
  rw [process_eq_close hrunning] at h
  rcases hrun : run d.framed d.sum (trim d.cursor.history).size
    ((trim d.cursor.history).size + room)
    ⟨d.cursor.reader.compact.push (input.take (appetite room)), d.cursor.stage,
      trim d.cursor.history⟩ with ⟨pause, w⟩
  obtain ⟨last, hstep⟩ := exists_step_of_run hrun
  have houtcome := hstep ▸ outcome_step _ _ _ _ last
  rw [hrun] at h
  cases houtcome with
  | refused => cases h
  | starved =>
    rw [close] at h
    exact input_eq_nil_of_conclude h
  | full _ hfull =>
    rw [close, conclude_eq] at h
    split at h
    next hnone =>
      obtain ⟨hout, -⟩ := hnone
      simp only [giveBack, List.drop_eq_nil_iff, Array.length_toList] at hout
      omega
    · cases h
  | ended _ hended =>
    rw [close, conclude_eq, if_neg] at h
    · cases h
    · simp [giveBack, hended, Stage.isEnded]

theorem isEnded_of_process {step : Step} (h : d.process input room = (.ok step, d')) :
    d'.cursor.stage.isEnded = step.finished := by
  cases hended : d.cursor.stage.isEnded with
  | true =>
    simp only [process, hended, if_true, Prod.mk.injEq, Except.ok.injEq] at h
    obtain ⟨rfl, rfl⟩ := h
    exact hended
  | false =>
    rw [process_eq_close hended] at h
    generalize run _ _ _ _ _ = stopped at h
    obtain ⟨pause, w⟩ := stopped
    cases pause with
    | refused flaw => cases h
    | _ =>
      rw [close, conclude_eq] at h
      split at h <;> cases h
      rfl

/-- A call that is answered takes or gives something, or reports the end of the stream. -/
theorem moves_of_process {step : Step} (h : d.process input room = (.ok step, d')) :
    step.finished = true ∨ 0 < step.produced + step.consumed := by
  cases hended : d.cursor.stage.isEnded with
  | true =>
    simp only [process, hended, if_true, Prod.mk.injEq, Except.ok.injEq] at h
    exact Or.inl (h.1 ▸ rfl)
  | false =>
    rw [process_eq_close hended] at h
    generalize run _ _ _ _ _ = stopped at h
    obtain ⟨pause, w⟩ := stopped
    cases pause with
    | refused flaw => cases h
    | _ =>
      rw [close, conclude_eq] at h
      split at h <;> cases h
      next hsome =>
        by_contra hnone
        obtain ⟨hrunning, hzero⟩ := not_or.mp hnone
        simp only [Step.produced, Nat.not_lt, Nat.le_zero_eq, Nat.add_eq_zero_iff] at hzero
        exact hsome ⟨List.length_eq_zero_iff.mp hzero.1, hzero.2, Bool.not_eq_true _ ▸ hrunning⟩

theorem process_of_isEnded (h : d.cursor.stage.isEnded = true) (input : List UInt8) (room : Nat) :
    d.process input room = (.ok .ended, d) := by
  simp only [process, h, if_true]

end Conduit.Deflate.Decompressor
