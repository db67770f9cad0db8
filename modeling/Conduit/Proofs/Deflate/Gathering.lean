import Conduit.Proofs.Checksum.Splitting
import Conduit.Proofs.Deflate.Drafting

namespace Conduit.Deflate

open Bits

namespace Compressor

/-- The compressor has taken in `input` and handed out `out`, and the end has not been asked for. -/
structure Gathers (c : Compressor) (level : Nat) (framed : Bool) (input out : List UInt8) :
    Prop where
  level_eq : c.level = level
  framed_eq : c.framed = framed
  phase_eq : c.phase = .gathering
  sum_eq : c.sum = Adler.start.update input
  draft : ∃ d bits, Draft.ofInput level input = some d ∧ c.window = d.window ∧
    c.chains = d.chains ∧ c.writer.Wrote bits ∧
    ofBytes out ++ bits = appendBlocks (ofBytes (front level framed)) false d.blocks

/-- All that is left to do is to hand out the rest of `whole`. -/
structure Closes (c : Compressor) (whole out : List UInt8) : Prop where
  phase_eq : c.phase = .draining
  rest : ∃ bits, c.writer.Wrote bits ∧ ofBytes out ++ bits = ofBytes whole

variable {c : Compressor} {level : Nat} {framed : Bool} {input out whole : List UInt8}
  {bits : List Bool}

theorem gathers_start (level : Nat) (framed : Bool) :
    (start level framed).Gathers level framed [] [] where
  level_eq := rfl
  framed_eq := rfl
  phase_eq := rfl
  sum_eq := (Adler.update_nil _).symm
  draft := by
    refine ⟨{}, ofBytes (front level framed), rfl, rfl, rfl, ?_, rfl⟩
    rw [start, front]
    split
    · exact BitWriter.wrote_empty.putBytes rfl _
    · exact BitWriter.wrote_empty

section Drain

theorem drain_spec (hw : c.writer.Wrote bits) (room : Nat) :
    ∃ output w rest, c.drain room = (output, { c with writer := w }) ∧ w.Wrote rest ∧
      bits = ofBytes output ++ rest ∧ output.length = min room c.backlog ∧
      w.waitingCount + output.length = c.backlog := by
  obtain ⟨rest, hout, hrest, hbits⟩ := hw.drain room
  have hlen := congrArg List.length hbits
  rw [List.length_append, length_ofBytes] at hlen
  have hwaiting : c.writer.waiting.length = c.backlog := by
    rw [BitWriter.waiting, List.length_drop, Array.length_toList, backlog, BitWriter.waitingCount]
  have htake : (c.writer.waiting.take room).length = min room c.backlog := by
    rw [List.length_take, hwaiting]
  refine ⟨c.writer.waiting.take room, (c.writer.drain room).2, rest, ?_, hrest, hbits, htake, ?_⟩
  · rw [← hout]
    rfl
  · rw [hrest.waitingCount, backlog, hw.waitingCount]
    omega

theorem Gathers.drain (h : c.Gathers level framed input out) (room : Nat) :
    ∃ output c', c.drain room = (output, c') ∧ c'.Gathers level framed input (out ++ output) ∧
      output.length = min room c.backlog ∧ c'.backlog + output.length = c.backlog := by
  obtain ⟨d, bits, hd, hwindow, hchains, hw, hbits⟩ := h.draft
  obtain ⟨output, w, rest, hdrain, hrest, rfl, hlen, hbacklog⟩ := drain_spec hw room
  refine ⟨output, { c with writer := w }, hdrain, ?_, hlen, hbacklog⟩
  refine ⟨h.level_eq, h.framed_eq, h.phase_eq, h.sum_eq, d, rest, hd, hwindow, hchains, hrest, ?_⟩
  rw [ofBytes_append, List.append_assoc, hbits]

theorem Closes.drain (h : c.Closes whole out) (room : Nat) :
    ∃ output c', c.drain room = (output, c') ∧ c'.Closes whole (out ++ output) ∧
      output.length = min room c.backlog ∧ c'.backlog + output.length = c.backlog := by
  obtain ⟨bits, hw, hbits⟩ := h.rest
  obtain ⟨output, w, rest, hdrain, hrest, rfl, hlen, hbacklog⟩ := drain_spec hw room
  refine ⟨output, { c with writer := w }, hdrain, ⟨h.phase_eq, rest, hrest, ?_⟩, hlen, hbacklog⟩
  rw [ofBytes_append, List.append_assoc, hbits]

end Drain

section Take

theorem appendBlocks_cut {d d' : Draft} {n : Nat} {new : List Format.Block} {front : List Bool}
    (h : Draft.Cuts level n d d' new)
    (hbits : ofBytes out ++ bits = appendBlocks front false d.blocks) (last : Bool) :
    ofBytes out ++ appendBlocks bits last new = appendBlocks front last d'.blocks := by
  rw [h.blocks_eq, appendBlocks_append h.nonempty, ← hbits, appendBlocks_ofBytes]

theorem gather_eq (level : Nat) (framed : Bool) (d : Draft) (writer : BitWriter) (sum : Adler)
    (more : List UInt8) {taken : List UInt8}
    (htaken : taken = more.take (blockSize - d.window.pending)) :
    gather ⟨level, framed, d.window, d.chains, writer, sum, .gathering⟩ more =
      if (d.extend taken).window.pending = blockSize then
        match writeNext level (d.extend taken).window (d.extend taken).chains writer blockSize
          false with
        | none => (.error .outOfRange, start level framed)
        | some (window, chains, writer) =>
          (.ok taken.length, ⟨level, framed, window, chains, writer, sum.update taken, .gathering⟩)
      else (.ok taken.length, ⟨level, framed, (d.extend taken).window, d.chains, writer,
        sum.update taken, .gathering⟩) := by
  subst htaken
  rfl

/-- What fits in the next block is added to a draft, and the block is cut when it is full. -/
theorem ofInput_extend {d : Draft} (hd : Draft.ofInput level input = some d)
    (hsound : d.Sound input) {taken : List UInt8} (hne : taken ≠ [])
    (hfits : d.window.pending + taken.length ≤ blockSize) :
    Draft.ofInput level (input ++ taken) =
      if (d.extend taken).window.pending = blockSize then (d.extend taken).cut level blockSize
      else some (d.extend taken) := by
  rw [Draft.ofInput_append, hd, Option.bind_some, Draft.pending_extend d taken hsound.cursor_le]
  exact Draft.foldlM_absorb level hsound.cursor_le hne hfits

theorem Gathers.gather (h : c.Gathers level framed input out) {more : List UInt8}
    (hne : more ≠ []) :
    ∃ n c', c.gather more = (.ok n, c') ∧ 0 < n ∧ n ≤ more.length ∧
      c'.Gathers level framed (input ++ more.take n) out := by
  obtain ⟨d, bits, hd, hwindow, hchains, hw, hbits⟩ := h.draft
  obtain ⟨level', framed', window, chains, writer, sum, phase⟩ := c
  obtain ⟨rfl, rfl, rfl, rfl, -⟩ := h
  dsimp only at hwindow hchains hw
  subst hwindow hchains
  obtain ⟨d', hd', hsound, hp⟩ := Draft.ofInput_spec level' input
  cases hd.symm.trans hd'
  obtain ⟨taken, htaken⟩ : ∃ taken, taken = more.take (blockSize - d.window.pending) := ⟨_, rfl⟩
  have hlen : taken.length = min (blockSize - d.window.pending) more.length := by
    rw [htaken, List.length_take]
  have hpos := List.length_pos_iff.mpr hne
  have htake : more.take taken.length = taken := by
    rw [hlen, ← List.take_take, List.take_length, ← htaken]
  have hdraft := ofInput_extend hd hsound (List.length_pos_iff.mp (by omega : 0 < taken.length))
    (by omega)
  rw [gather_eq level' framed' d writer _ more htaken, ← Adler.update_append_start]
  refine ⟨taken.length, ?_⟩
  rw [htake]
  split
  next hfull =>
    rw [if_pos hfull] at hdraft
    have hn := (hsound.extend taken).cursor_add_pending.le
    rw [hfull] at hn
    obtain ⟨d', new, hcuts, -⟩ := Draft.cut_spec level' (hsound.extend taken) hn
    obtain ⟨w', hwrite, hw'⟩ := hcuts.writes false hw
    rw [hwrite]
    have hcut := hdraft.trans hcuts.cut_eq
    exact ⟨_, rfl, by omega, by omega, rfl, rfl, rfl, rfl, d', _, hcut, rfl, rfl, hw',
      appendBlocks_cut hcuts hbits false⟩
  next hpart =>
    rw [if_neg hpart] at hdraft
    exact ⟨_, rfl, by omega, by omega, rfl, rfl, rfl, rfl, d.extend taken, bits, hdraft, rfl, rfl,
      hw, hbits⟩

theorem Gathers.take (h : c.Gathers level framed input out) {more : List UInt8} (hne : more ≠ [])
    (room : Nat) :
    ∃ step c', c.process more room = (.ok step, c') ∧ step.finished = false ∧
      step.consumed ≤ more.length ∧
      c'.Gathers level framed (input ++ more.take step.consumed) (out ++ step.output) ∧
      (0 < step.consumed ∨ step.consumed = 0 ∧ c'.backlog + room = c.backlog) := by
  obtain ⟨output, c₁, hdrain, h₁, hlen, hbacklog⟩ := h.drain room
  obtain ⟨byte, rest, rfl⟩ := List.exists_cons_of_ne_nil hne
  have hprocess : c.process (byte :: rest) room = c₁.take output (byte :: rest) room := by
    rw [process, h.phase_eq]
    dsimp only
    rw [hdrain]
  rw [hprocess, Compressor.take, h₁.phase_eq]
  dsimp only
  split
  next hwait =>
    refine ⟨_, c₁, rfl, rfl, Nat.zero_le _, ?_, Or.inr ⟨rfl, by omega⟩⟩
    rw [List.take_zero, List.append_nil]
    exact h₁
  next =>
    obtain ⟨n, c₂, hgather, hpos, hn, h₂⟩ := h₁.gather hne
    obtain ⟨output', c₃, hdrain', h₃, -, -⟩ := h₂.drain (room - output.length)
    rw [hgather]
    dsimp only
    rw [hdrain']
    refine ⟨_, c₃, rfl, rfl, hn, ?_, Or.inl hpos⟩
    rw [← List.append_assoc]
    exact h₃

end Take

section Finish

theorem Gathers.close (h : c.Gathers level framed input out)
    (hwhole : encode level framed input = some whole) :
    ∃ c', c.close = (.ok (), c') ∧ c'.Closes whole out := by
  obtain ⟨d, bits, hd, hwindow, hchains, hw, hbits⟩ := h.draft
  obtain ⟨level', framed', window, chains, writer, sum, phase⟩ := c
  obtain ⟨rfl, rfl, rfl, rfl, -⟩ := h
  dsimp only at hd hwindow hchains hw hbits hwhole
  subst hwindow hchains
  obtain ⟨d', hd', hsound, hp⟩ := Draft.ofInput_spec level' input
  cases hd.symm.trans hd'
  obtain ⟨d', new, hcuts, -⟩ := Draft.cut_spec level' hsound hsound.cursor_add_pending.le
  obtain ⟨w', hwrite, hw'⟩ := hcuts.writes true hw
  have hstream := appendBlocks_cut hcuts hbits true
  rw [appendBlocks_true (ofBytes _)] at hstream
  have hpad : ofBytes out ++ pad (appendBlocks bits true new) =
      ofBytes (pack (Format.streamBits (ofBytes (front level' framed')) d'.blocks)) := by
    rw [ofBytes_pack, ← hstream, pad_ofBytes_append]
  cases hwhole.symm.trans (encode_of_cuts hd hcuts framed')
  rw [Compressor.close]
  dsimp only
  rw [hwrite]
  refine ⟨_, rfl, rfl, pad (appendBlocks bits true new) ++ ofBytes (back framed' input), ?_, ?_⟩
  · cases framed' with
    | false =>
      have hnone : ofBytes (back false input) = [] := rfl
      rw [hnone, List.append_nil]
      exact hw'.align
    | true => exact hw'.align.putBytes (length_pad_mod _) _
  · rw [← List.append_assoc, hpad, ofBytes_append]

/-- A call with empty input, seen from the output handed out before it. -/
def Settles (c : Compressor) (whole out : List UInt8) (step : Step) : Prop :=
  step.consumed = 0 ∧
    if step.finished = true then out ++ step.output = whole
    else c.Closes whole (out ++ step.output) ∧ 0 < c.backlog

theorem Closes.settle (h : c.Closes whole (out ++ output)) :
    ∃ step c', c.settle output = (step, c') ∧ c'.Settles whole out step ∧ step.output = output ∧
      c'.backlog = c.backlog := by
  obtain ⟨bits, hw, hbits⟩ := h.rest
  rw [Compressor.settle]
  split
  next h0 =>
    refine ⟨_, _, rfl, ⟨rfl, ?_⟩, rfl, rfl⟩
    rw [if_pos rfl]
    have hlen := congrArg List.length hbits
    rw [List.length_append, length_ofBytes, length_ofBytes] at hlen
    rw [backlog, hw.waitingCount] at h0
    have hnil : bits = [] := List.length_eq_zero_iff.mp (by omega)
    rw [hnil, List.append_nil] at hbits
    exact ofBytes_inj hbits
  next hpos =>
    exact ⟨_, _, rfl, ⟨rfl, h, Nat.pos_of_ne_zero hpos⟩, rfl, rfl⟩

theorem Gathers.finish (h : c.Gathers level framed input out)
    (hwhole : encode level framed input = some whole) (room : Nat) :
    ∃ step c', c.process [] room = (.ok step, c') ∧ c'.Settles whole out step := by
  obtain ⟨output, c₁, hdrain, h₁, -, -⟩ := h.drain room
  obtain ⟨c₂, hclose, h₂⟩ := h₁.close hwhole
  obtain ⟨output', c₃, hdrain', h₃, -, -⟩ := h₂.drain (room - output.length)
  rw [List.append_assoc] at h₃
  obtain ⟨step, c₄, hsettle, h₄, -, -⟩ := h₃.settle
  refine ⟨step, c₄, ?_, h₄⟩
  rw [process, h.phase_eq]
  dsimp only
  rw [hdrain]
  dsimp only
  rw [Compressor.finish, h₁.phase_eq]
  dsimp only
  rw [hclose]
  dsimp only
  rw [hdrain']
  dsimp only
  rw [hsettle]

theorem Closes.finish (h : c.Closes whole out) (room : Nat) :
    ∃ step c', c.process [] room = (.ok step, c') ∧ c'.Settles whole out step ∧
      (step.finished = false → c'.backlog + room = c.backlog) := by
  obtain ⟨output, c₁, hdrain, h₁, hlen, hbacklog⟩ := h.drain room
  obtain ⟨step, c₂, hsettle, h₂, houtput, hbacklog'⟩ := h₁.settle
  refine ⟨step, c₂, ?_, h₂, ?_⟩
  · rw [process, h.phase_eq]
    dsimp only
    rw [hdrain]
    dsimp only
    rw [Compressor.finish, h₁.phase_eq]
    dsimp only
    rw [hsettle]
  · intro hf
    obtain ⟨-, h₂⟩ := h₂
    rw [hf, if_neg Bool.false_ne_true] at h₂
    omega

end Finish

/-- `left` is not taken yet, and `out` has been handed out of `whole`, the stream for all of the
input. -/
inductive Stands (c : Compressor) (level : Nat) (framed : Bool) (whole left out : List UInt8) : Prop
  | gathers {input : List UInt8} (gathers : c.Gathers level framed input out)
      (encode_eq : encode level framed (input ++ left) = some whole)
  | closes (closes : c.Closes whole out) (left_nil : left = [])

theorem stands_start (hwhole : encode level framed input = some whole) :
    (start level framed).Stands level framed whole input [] :=
  .gathers (gathers_start level framed) hwhole

/-- How much there is to do before output is only handed out. -/
def toTake (c : Compressor) (left : List UInt8) : Nat :=
  left.length + if c.phase = .gathering then 1 else 0

/-- What a call answers, and that it takes something or hands out all that there is room for. -/
def Answers (c : Compressor) (level : Nat) (framed : Bool) (whole left out : List UInt8)
    (room : Nat) (step : Step) (c' : Compressor) : Prop :=
  step.consumed ≤ left.length ∧
    if step.finished = true then left = [] ∧ out ++ step.output = whole
    else
      c'.Stands level framed whole (left.drop step.consumed) (out ++ step.output) ∧
        (c'.toTake (left.drop step.consumed) < c.toTake left ∨
          c'.toTake (left.drop step.consumed) = c.toTake left ∧ c'.backlog + room = c.backlog)

theorem Settles.answers {c' : Compressor} {step : Step} {room : Nat}
    (h : c'.Settles whole out step)
    (hless : step.finished = false → c'.toTake [] < c.toTake [] ∨
      c'.toTake [] = c.toTake [] ∧ c'.backlog + room = c.backlog) :
    c.Answers level framed whole [] out room step c' := by
  obtain ⟨hc, h⟩ := h
  rw [Answers, hc]
  refine ⟨Nat.le_refl 0, ?_⟩
  split
  next hf =>
    rw [if_pos hf] at h
    exact ⟨rfl, h⟩
  next hf =>
    rw [if_neg hf] at h
    exact ⟨.closes h.1 rfl, hless (Bool.eq_false_iff.mpr hf)⟩

/-- Every call that offers some of what is left answers as it should. -/
theorem Stands.process {left : List UInt8} (h : c.Stands level framed whole left out)
    {offer : List UInt8} (hoffer : offer <+: left) (hne : offer = [] → left = []) (room : Nat) :
    ∃ step c', c.process offer room = (.ok step, c') ∧
      c.Answers level framed whole left out room step c' := by
  cases h with
  | @gathers input h hwhole =>
    by_cases hnil : offer = []
    · cases hne hnil
      subst hnil
      rw [List.append_nil] at hwhole
      obtain ⟨step, c', hprocess, hsettles⟩ := h.finish hwhole room
      refine ⟨step, c', hprocess, hsettles.answers fun hf => Or.inl ?_⟩
      obtain ⟨-, hsettles⟩ := hsettles
      rw [hf, if_neg Bool.false_ne_true] at hsettles
      rw [toTake, toTake, h.phase_eq, hsettles.1.phase_eq]
      decide
    · obtain ⟨step, c', hprocess, hf, hc, h', hmoves⟩ := h.take hnil room
      obtain ⟨rest, rfl⟩ := hoffer
      have htake : offer.take step.consumed ++ (offer ++ rest).drop step.consumed =
          offer ++ rest := by
        rw [List.drop_append_of_le_length hc, ← List.append_assoc, List.take_append_drop]
      refine ⟨step, c', hprocess, ?_, ?_⟩
      · rw [List.length_append]
        exact Nat.le_add_right_of_le hc
      rw [hf, if_neg Bool.false_ne_true]
      refine ⟨.gathers h' (by rw [List.append_assoc, htake, hwhole]), ?_⟩
      rw [toTake, toTake, h.phase_eq, h'.phase_eq, List.length_drop, List.length_append]
      omega
  | closes h hnil =>
    subst hnil
    cases List.prefix_nil.mp hoffer
    obtain ⟨step, c', hprocess, hsettles, hless⟩ := h.finish room
    refine ⟨step, c', hprocess, hsettles.answers fun hf => Or.inr ⟨?_, hless hf⟩⟩
    obtain ⟨-, hsettles⟩ := hsettles
    rw [hf, if_neg Bool.false_ne_true] at hsettles
    rw [toTake, toTake, h.phase_eq, hsettles.1.phase_eq]

end Compressor

end Conduit.Deflate
