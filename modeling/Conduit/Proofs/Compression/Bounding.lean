import Conduit.Proofs.Compression.Compressing
import Conduit.Proofs.Deflate.Costs
import Conduit.Proofs.Deflate.Tokenising

namespace Conduit

open Bits

namespace Deflate

section Draft

variable {level n : Nat} {d d' : Draft} {new : List Format.Block} {input : List UInt8}

/-- No block takes more than it would take to store its data. -/
theorem Draft.Cuts.length_le (h : Cuts level n d d' new) (hd : d.Sound input)
    (hn : d.window.cursor + n ≤ d.window.bytes.size) (bits : List Bool) (last : Bool) :
    (appendBlocks bits last new).length ≤ bits.length + storedCost n := by
  obtain ⟨⟨bytes, base, cursor⟩, chains, blocks⟩ := d
  have hcut := h.cut_eq
  have hblocks := h.blocks_eq
  dsimp only at hn hblocks
  have hdata : (bytes.extract cursor (cursor + n)).toList.length = n := by
    rw [Array.length_toList, Array.size_extract]
    omega
  rw [cut] at hcut
  by_cases h0 : level = 0
  · rw [if_pos h0] at hcut
    cases hcut
    have hpieces := length_appendBlocks_pieces bits last (bytes.extract cursor (cursor + n)).toList
    rwa [List.append_cancel_left hblocks, hdata] at hpieces
  · obtain ⟨tokens, chains', htokens, -, hcovers⟩ :=
      tokenize_spec (.ofLevel level) base hd.sized hn (Nat.le_add_right _ _) #[]
    have hlist : ((#[] : Array Token) ++ tokens).toList = tokens := by simp
    rw [if_neg h0, htokens] at hcut
    dsimp only at hcut
    cases hcut
    obtain ⟨more, hmore, hcosts⟩ := exists_costs hcovers.within bits last
      (bytes.extract cursor (cursor + n)).toList
    rw [hlist] at hblocks
    rw [← List.append_cancel_left hblocks, hmore, List.length_append]
    have hle := hcosts.le.trans (min_le_left _ _)
    rw [hdata] at hle
    exact Nat.add_le_add_left hle _

theorem Draft.length_ofInput (h : ofInput level input = some d) (bits : List Bool) :
    (appendBlocks bits false d.blocks).length ≤
      bits.length + storedCost blockSize * (input.length / blockSize) := by
  induction input using List.reverseRecOn generalizing d with
  | nil =>
    cases h
    exact Nat.le_add_right _ _
  | append_singleton input byte ih =>
    obtain ⟨d₀, hd₀, hsound, hp⟩ := ofInput_spec level input
    have hle := ih hd₀
    have hmod := pending_ofInput hd₀
    rw [ofInput_concat, hd₀, Option.bind_some] at h
    rw [List.length_append, List.length_singleton]
    obtain ⟨hd, -, hlt⟩ | ⟨d', new, hd, hcuts, hfull, hone, -⟩ := absorb_cases level hsound hp byte
    · cases hd.symm.trans h
      have hdiv : (input.length + 1) / blockSize = input.length / blockSize := by
        rw [blockSize] at hmod hlt ⊢
        omega
      rwa [hdiv]
    · cases hd.symm.trans h
      have hdiv : (input.length + 1) / blockSize = input.length / blockSize + 1 := by
        rw [blockSize] at hmod hone ⊢
        omega
      have hext := hsound.extend [byte]
      have hn := hext.cursor_add_pending.le
      rw [hfull] at hn
      have hblock := hcuts.length_le hext hn (appendBlocks bits false d₀.blocks) false
      rw [hcuts.blocks_eq, appendBlocks_append hcuts.nonempty, hdiv, Nat.mul_succ]
      exact hblock.trans (by omega)

theorem exists_encode_length_le (level : Nat) (framed : Bool) (input : List UInt8) :
    ∃ whole, encode level framed input = some whole ∧
      whole.length ≤ input.length + 11 * (input.length / 65536) + 6 + if framed then 6 else 0 := by
  obtain ⟨d, hd, hsound, hp⟩ := Draft.ofInput_spec level input
  have hn := hsound.cursor_add_pending.le
  obtain ⟨d', new, hcuts, -⟩ := Draft.cut_spec level hsound hn
  refine ⟨_, encode_of_cuts hd hcuts framed, ?_⟩
  have hblocks := Draft.length_ofInput hd (ofBytes (front level framed))
  have hlast := hcuts.length_le hsound hn
    (appendBlocks (ofBytes (front level framed)) false d.blocks) true
  have hpending := Draft.pending_ofInput hd
  have hstream : Format.streamBits (ofBytes (front level framed)) d'.blocks =
      appendBlocks (appendBlocks (ofBytes (front level framed)) false d.blocks) true new := by
    rw [← appendBlocks_true, hcuts.blocks_eq, appendBlocks_append hcuts.nonempty]
  have hpack := length_pack_le (Format.streamBits (ofBytes (front level framed)) d'.blocks)
  have hfront : (front level framed).length = if framed then 2 else 0 := by
    cases framed <;> rfl
  have hback : (back framed input).length = if framed then 4 else 0 := by
    cases framed <;> rfl
  have hmod := Nat.div_add_mod input.length blockSize
  rw [hstream] at hpack ⊢
  rw [length_ofBytes, hfront, storedCost_blockSize] at hblocks
  rw [storedCost_of_lt hp, hpending] at hlast
  rw [List.length_append, hback]
  rw [blockSize] at hblocks hlast hmod
  -- the last block, what fills its last byte and a frame come to no more than is granted
  cases framed <;> simp only [if_true, if_false, Bool.false_eq_true] at hblocks ⊢ <;> omega

end Draft

section Portion

variable {level : Nat} {p : Portion} {tokens : List Token}

theorem Faithful.within {before data : List UInt8} (h : Faithful before data tokens) :
    ∀ token ∈ tokens, token.Within windowSize := by
  intro token hm
  cases token with
  | literal byte => trivial
  | copy length distance =>
    obtain ⟨earlier, later, hsplit⟩ := List.append_of_mem hm
    obtain ⟨hmin, hmax, hpos, hnear, -⟩ := h.copies earlier length distance later hsplit
    have hle : distance ≤ windowSize := Nat.le_succ_of_le hnear
    exact ⟨hmin, hmax, hpos, hle, hle⟩

theorem writeNext_of_tokenize? {tokens : Array Token} {chains : Chains} (hl : level ≠ 0)
    (h : p.tokenize? level = some (tokens, chains)) (w : BitWriter) (last : Bool) :
    ∃ window, Compressor.writeNext level p.window p.chains w p.window.pending last =
      some (window, chains, writeBlock w tokens.toList p.data last) := by
  have hdata : (p.window.bytes.extract p.window.cursor
      (p.window.cursor + p.window.pending)).toList = p.data := by
    rw [Array.toList_extract, List.extract_eq_take_drop, Nat.add_sub_cancel_left]
    apply List.take_of_length_le
    exact p.window.length_rest.le
  rw [Portion.tokenize?] at h
  rw [Compressor.writeNext, if_neg hl, h]
  dsimp only
  rw [hdata]
  exact ⟨_, rfl⟩

/-- Behind what waits in `w`, the block of the portion takes as many bits as its tokens cost, be it
the last one or not. -/
def Portion.WrittenAtCost (p : Portion) (level : Nat) (w : BitWriter) : Prop :=
  ∃ tokens chains, p.tokenize? level = some (tokens, chains) ∧ ∀ last, ∃ window new,
    Compressor.writeNext level p.window p.chains w p.window.pending last =
        some (window, chains, writeBlock w tokens.toList p.data last) ∧
      (writeBlock w tokens.toList p.data last).Wrote (w.written ++ new) ∧
      Costs tokens.toList p.data.length new.length

open Compressor in
/-- Whatever calls came before, a call that writes a block pays what the block costs. -/
theorem Compressor.Ledger.Sound.writtenAtCost {framed : Bool} {l : Ledger} {input : List UInt8}
    {room : Nat} (h : l.Sound level framed) (hl : level ≠ 0)
    (hp : l.compressor.portion? input room = some p) :
    p.WrittenAtCost level (l.compressor.drain room).2.writer := by
  obtain ⟨out, hgathers, hsplit⟩ := h.gathers (phase_of_portion hp)
  obtain ⟨d, more, hd, rfl, hmore⟩ := hgathers.draft_of_portion hsplit hp
  obtain ⟨tokens, chains, htokens, hfaithful⟩ := hd.faithful hmore level
  obtain ⟨output, c', hdrain, hdrained, -⟩ := hgathers.drain room
  obtain ⟨-, bits, -, -, -, hw, -⟩ := hdrained.draft
  rw [hdrain]
  refine ⟨tokens, chains, htokens, fun last => ?_⟩
  obtain ⟨window, hwrite⟩ := writeNext_of_tokenize? hl htokens c'.writer last
  have hwrote := wrote_block hw hfaithful.within (Portion.data ⟨d.window, d.chains⟩) last
  obtain ⟨new, hnew, hcosts⟩ := exists_costs hfaithful.within bits last
    (Portion.data ⟨d.window, d.chains⟩)
  rw [hnew, ← hw.written_eq] at hwrote
  exact ⟨window, new, hwrite, hwrote, hcosts⟩

end Portion

end Deflate

open Deflate Compressor

/-- A session and the stream that it makes of a message, however it is driven. -/
def Session.Makes (session : Session) (input whole : List UInt8) : Prop :=
  (∀ chunk ≤ Octets.maxSize, (session.compressAll input chunk).1 = .ok whole) ∧
    ∀ s : Schedule, s.Offers → ∀ calls, (s.run calls 0 session (.start input)).1.Delivers whole

theorem exists_makes (level : Nat) (raw : Bool) (input : List UInt8) :
    ∃ whole, (Session.compressing level raw).Makes input whole ∧
      whole.length ≤ input.length + 11 * (input.length / 65536) + 6 + if raw then 0 else 6 := by
  obtain ⟨whole, hwhole, hle⟩ := exists_encode_length_le level (!raw) input
  refine ⟨whole, ⟨fun chunk hc => compressAll_eq hwhole hc, fun s h calls => ?_⟩, ?_⟩
  · exact h.delivers 0 (stands_start hwhole) (runs_compressing level raw) calls
  · cases raw <;> exact hle

/-- Whatever calls and resets came before, what is split off next is written at its cost, which is
the least of the three. So no stream is much longer than its message. -/
theorem compression_bounded :
    (∀ (level : Nat) (framed : Bool) (acts : List Act) (input : List UInt8) (room : Nat)
      (p : Portion), level ≠ 0 →
        (Ledger.run level framed acts).compressor.portion? input room = some p →
        p.WrittenAtCost level ((Ledger.run level framed acts).compressor.drain room).2.writer) ∧
      ∀ (level : Nat) (raw : Bool) (input : List UInt8), level ≤ Session.maxLevel →
        ∃ session whole, Session.start ⟨.portable, .compress, level, raw⟩ = .ok session ∧
          session.Makes input whole ∧
          whole.length ≤
            input.length + 11 * (input.length / 65536) + 6 + if raw then 0 else 6 := by
  constructor
  · intro level framed acts input room p hl hp
    exact (Ledger.sound_run level framed acts).writtenAtCost hl hp
  · intro level raw input hl
    obtain ⟨whole, hmakes, hle⟩ := exists_makes level raw input
    exact ⟨_, whole, start_compressing hl raw, hmakes, hle⟩

/-- A block that repeats a triple of bytes, behind a stream that was given up, and the stream of a
single byte. -/
theorem compression_bounded_of_triples :
    Portion.WrittenAtCost ⟨⟨#[1, 2, 3, 1, 2, 3, 1, 2, 3], 0, 0⟩, .empty⟩ 1
        ((Ledger.run 1 true [.process [5, 6, 7, 8] 9, .reset,
          .process [1, 2, 3, 1, 2, 3, 1, 2, 3] 9]).compressor.drain 4).2.writer ∧
      ∃ session whole, Session.start ⟨.portable, .compress, 0, false⟩ = .ok session ∧
        session.Makes [7] whole ∧ whole.length ≤ 1 + 11 * (1 / 65536) + 6 + 6 :=
  ⟨compression_bounded.1 1 true [.process [5, 6, 7, 8] 9, .reset,
      .process [1, 2, 3, 1, 2, 3, 1, 2, 3] 9] [] 4 _ (by decide) rfl,
    compression_bounded.2 0 false [7] (by decide)⟩

end Conduit
