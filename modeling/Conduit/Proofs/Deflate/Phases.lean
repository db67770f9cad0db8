import Conduit.Proofs.Deflate.Gathering

namespace Conduit.Deflate.Compressor

variable {c c' : Compressor} {input output : List UInt8} {room : Nat} {step : Step}

section Report

theorem phase_of_gather {n : Nat} (h : c.gather input = (.ok n, c')) : c'.phase = c.phase := by
  rw [gather] at h
  split at h
  · split at h <;> cases h
    rfl
  · cases h
    rfl

theorem phase_of_close (h : c.close = (.ok (), c')) : c'.phase = .draining := by
  rw [close] at h
  split at h <;> cases h
  rfl

theorem finished_of_settle (hp : c.phase ≠ .ended) (h : c.settle output = (step, c')) :
    step.finished = true ↔ c'.phase = .ended := by
  rw [settle] at h
  split at h <;> cases h
  · simp
  · simp [hp]

theorem finished_of_finish (hp : c.phase ≠ .ended) (h : c.finish output room = (.ok step, c')) :
    step.finished = true ↔ c'.phase = .ended := by
  rw [finish] at h
  split at h
  · split at h
    · cases h
    next hclose =>
      have hdraining := phase_of_close hclose
      cases h
      apply finished_of_settle _ rfl
      simp [hdraining]
  · cases h
    exact finished_of_settle hp rfl

theorem finished_of_take (hp : c.phase ≠ .ended) (h : c.take output input room = (.ok step, c')) :
    step.finished = true ↔ c'.phase = .ended := by
  rw [take] at h
  split at h
  · cases h
  · split at h
    · cases h
      simp [hp]
    · split at h
      · cases h
      next hgather =>
        cases h
        simp [phase_of_gather hgather, hp]

theorem finished_of_process (h : c.process input room = (.ok step, c')) :
    step.finished = true ↔ c'.phase = .ended := by
  by_cases hp : c.phase = .ended
  · rw [process, hp] at h
    cases h
    simp [Step.ended, hp]
  · rw [process] at h
    split at h
    · contradiction
    · have hdrained : (c.drain room).2.phase ≠ .ended := hp
      dsimp only at h
      split at h
      · exact finished_of_finish hdrained h
      · exact finished_of_take hdrained h

end Report

inductive Reached (c : Compressor) : Prop
  | gathers {level : Nat} {framed : Bool} {input out : List UInt8}
    (gathers : c.Gathers level framed input out)
  | closes {whole out : List UInt8} (closes : c.Closes whole out)
  | ended (phase_eq : c.phase = .ended)

theorem process_of_ended (h : c.phase = .ended) (input : List UInt8) (room : Nat) :
    c.process input room = (.ok .ended, c) := by
  rw [process, h]

theorem Closes.refuses {whole out : List UInt8} (h : c.Closes whole out) (hne : input ≠ [])
    (room : Nat) : ∃ c', c.process input room = (.error .inputAfterEnd, c') := by
  obtain ⟨output, c₁, hdrain, h₁, -, -⟩ := h.drain room
  obtain ⟨byte, rest, rfl⟩ := List.exists_cons_of_ne_nil hne
  refine ⟨c₁, ?_⟩
  rw [process, h.phase_eq]
  dsimp only
  rw [hdrain]
  dsimp only
  rw [take, h₁.phase_eq]

theorem Reached.process (h : c.Reached) (hprocess : c.process input room = (.ok step, c')) :
    c'.Reached := by
  by_cases hf : step.finished = true
  · exact .ended ((finished_of_process hprocess).mp hf)
  · cases h with
    | @gathers level framed taken out h =>
      by_cases hne : input = []
      · subst hne
        obtain ⟨blocks, hwhole, -⟩ := encode_spec level framed taken
        obtain ⟨step', c'', hfinish, -, hsettles⟩ := h.finish hwhole room
        cases hprocess.symm.trans hfinish
        rw [if_neg hf] at hsettles
        exact .closes hsettles.1
      · obtain ⟨step', c'', htake, -, -, h', -⟩ := h.take hne room
        cases hprocess.symm.trans htake
        exact .gathers h'
    | closes h =>
      by_cases hne : input = []
      · subst hne
        obtain ⟨step', c'', hfinish, ⟨-, hsettles⟩, -⟩ := h.finish room
        cases hprocess.symm.trans hfinish
        rw [if_neg hf] at hsettles
        exact .closes hsettles.1
      · obtain ⟨c'', hrefused⟩ := h.refuses hne room
        cases hprocess.symm.trans hrefused
    | ended h =>
      cases hprocess.symm.trans (process_of_ended h input room)
      exact .ended h

end Conduit.Deflate.Compressor
