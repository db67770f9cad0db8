import Conduit.Proofs.Deflate.Tokenising

namespace Conduit

namespace Bits

def whole (bits : List Bool) : List UInt8 :=
  (pack bits).take (bits.length / 8)

theorem whole_ofBytes_append (bytes : List UInt8) (bits : List Bool) :
    whole (ofBytes bytes ++ bits) = bytes ++ whole bits := by
  have hlen : (ofBytes bytes ++ bits).length / 8 = bytes.length + bits.length / 8 := by
    rw [List.length_append, length_ofBytes]
    omega
  rw [whole, whole, pack_ofBytes_append, hlen, List.take_length_add_append]

theorem length_whole (bits : List Bool) : (whole bits).length = bits.length / 8 := by
  have hpack := congrArg List.length (ofBytes_pack bits)
  obtain ⟨fill, -, hpad⟩ := exists_fill bits
  rw [length_ofBytes, hpad, List.length_append] at hpack
  rw [whole, List.length_take]
  omega

end Bits

namespace Deflate

open Bits

/-- What has been encoded of a stream that has taken this input: its front and its blocks, as far as
their bytes are complete, and once the end has been asked for all of it. -/
def encoded (level : Nat) (framed asked : Bool) (taken : List UInt8) : List UInt8 :=
  if asked then (encode level framed taken).getD []
  else ((Draft.ofInput level taken).map fun d =>
    whole (appendBlocks (ofBytes (front level framed)) false d.blocks)).getD []

namespace Compressor

variable {c c' : Compressor} {level room : Nat} {framed : Bool}
  {input taken out all : List UInt8} {step : Step}

/-- What waits in a compressor is what it has encoded and not handed out. -/
theorem Gathers.encoded_eq (h : c.Gathers level framed taken out) :
    ∃ waiting, encoded level framed false taken = out ++ waiting ∧ waiting.length = c.backlog := by
  obtain ⟨d, bits, hd, -, -, hw, hbits⟩ := h.draft
  refine ⟨whole bits, ?_, ?_⟩
  · rw [encoded, if_neg Bool.false_ne_true, hd, Option.map_some, Option.getD_some, ← hbits,
      whole_ofBytes_append]
  · rw [length_whole, backlog, hw.waitingCount]

theorem Closes.exists_append (h : c.Closes all out) : ∃ waiting, all = out ++ waiting := by
  obtain ⟨bits, -, hbits⟩ := h.rest
  refine ⟨whole bits, ?_⟩
  have hwhole := whole_ofBytes_append all []
  rw [List.append_nil, ← hbits, whole_ofBytes_append] at hwhole
  exact (List.append_nil all).symm.trans hwhole.symm

theorem consumed_of_gather {n : Nat} (h : c.gather input = (.ok n, c')) :
    n = min (blockSize - c.window.pending) input.length := by
  rw [gather_eq_absorb] at h
  split at h
  · split at h <;> cases h
    exact List.length_take
  · cases h
    exact List.length_take

/-- A call takes input up to the next block boundary if there is room for all that waits, and else
takes none. -/
theorem Gathers.consumed_eq (h : c.Gathers level framed taken out) (hne : input ≠ [])
    (hprocess : c.process input room = (.ok step, c')) :
    step.consumed = if c.backlog ≤ room then
      min (blockSize - taken.length % blockSize) input.length else 0 := by
  obtain ⟨d, bits, hd, hwindow, -⟩ := h.draft
  obtain ⟨output, c₁, hdrain, h₁, hlen, hbacklog⟩ := h.drain room
  have hpending : c₁.window.pending = taken.length % blockSize := by
    have hc₁ : (c.drain room).2 = c₁ := congrArg Prod.snd hdrain
    subst hc₁
    exact (congrArg Window.pending hwindow).trans (Draft.pending_ofInput hd)
  rw [process_ne_nil h.phase_eq hne, hdrain] at hprocess
  dsimp only at hprocess
  rw [Compressor.take, h₁.phase_eq] at hprocess
  dsimp only at hprocess
  split at hprocess
  next hwait =>
    cases hprocess
    rw [if_neg (by omega)]
  next h0 =>
    split at hprocess
    next => cases hprocess
    next n c₂ hgather =>
      cases hprocess
      rw [if_pos (by omega), ← hpending]
      exact consumed_of_gather hgather

theorem Settles.finished_iff (h : c.Settles all out step) :
    step.finished = true ↔ out ++ step.output = all := by
  obtain ⟨-, h⟩ := h
  by_cases hf : step.finished = true
  · rw [if_pos hf] at h
    exact iff_of_true hf h
  · rw [if_neg hf] at h
    obtain ⟨hcloses, hpos⟩ := h
    obtain ⟨bits, hw, hbits⟩ := hcloses.rest
    refine iff_of_false hf ?_
    rintro rfl
    have hnil : bits = [] := List.append_cancel_left (hbits.trans (List.append_nil _).symm)
    subst hnil
    rw [backlog, hw.waitingCount] at hpos
    exact absurd hpos (by decide)

end Compressor

end Deflate

end Conduit
