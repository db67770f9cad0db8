import Conduit.Proofs.Deflate.Blocks
import Conduit.Proofs.Deflate.Headers
import Conduit.Proofs.Deflate.Weights

namespace Conduit.Deflate

open Bits
open Huffman (length_codeBits)

namespace Tally

variable {t : Tally} {token : Token} {tokens : List Token}

def bits (t : Tally) (literals distances : List Nat) : Nat :=
  weighted t.literals.toList literals + weighted t.distances.toList distances + t.extraBits

theorem bits_empty (literals distances : List Nat) :
    empty.bits literals distances = literals.getD endOfBlock 0 := by
  have hlt : endOfBlock < (List.replicate literalSymbols 0).length := by
    rw [List.length_replicate]
    decide
  have hone : (List.replicate literalSymbols 0).set endOfBlock 1 =
      (List.replicate literalSymbols 0).modify endOfBlock (· + 1) := by
    rw [List.modify_eq_set, List.getElem?_eq_getElem hlt, List.getElem_replicate]
    rfl
  rw [bits, empty, Array.toList_setIfInBounds, Array.toList_replicate, Array.toList_replicate,
    hone, weighted_modify hlt, weighted_replicate_zero, weighted_replicate_zero]
  simp only [Nat.zero_add, Nat.add_zero]

theorem bits_add (hl : t.literals.size = literalSymbols) (hd : t.distances.size = distanceSymbols)
    (h : token.Within windowSize) (literals distances : List Nat) :
    (t.add token).bits literals distances =
      t.bits literals distances + (token.item.bits literals distances).length := by
  have hlt := literalSymbol_lt h
  have hlt' := distanceSymbol_lt h
  rw [← hl, ← Array.length_toList] at hlt
  rw [← hd, ← Array.length_toList] at hlt'
  obtain ⟨literalCounts, distanceCounts, extraBits⟩ := t
  cases token with
  | literal byte =>
    have hliteral := weighted_modify hlt literals
    simp only [Token.item, Format.Item.literalSymbol] at hliteral
    simp only [bits, add, Array.toList_modify, hliteral, Token.item, Format.Item.bits,
      length_codeBits]
    omega
  | copy length distance =>
    obtain ⟨hmin, hmax, hd0, hdw, -⟩ := h
    have hliteral := weighted_modify hlt literals
    have hdistance := weighted_modify (hlt' _ rfl) distances
    simp only [Token.item, Format.Item.literalSymbol] at hliteral hdistance
    simp only [bits, add, Array.toList_modify, hliteral, hdistance, Token.item, Format.Item.bits,
      Format.lengthClasses_eq, Format.distanceClasses_eq, (isFor_lengthSlot hmin hmax).extraBits,
      (isFor_distanceSlot hd0 hdw).extraBits, List.length_append, length_codeBits, length_ofNat]
    omega

theorem bits_foldl (hl : t.literals.size = literalSymbols)
    (hd : t.distances.size = distanceSymbols) (h : ∀ token ∈ tokens, token.Within windowSize)
    (literals distances : List Nat) :
    (tokens.foldl add t).bits literals distances = t.bits literals distances +
      ((tokens.map Token.item).flatMap (Format.Item.bits literals distances)).length := by
  induction tokens generalizing t with
  | nil => rfl
  | cons token tokens ih =>
    have hadd := within_add t token
    have hrest := ih (hadd.literals_size.trans hl) (hadd.distances_size.trans hd)
      fun u hu => h u (List.mem_cons_of_mem token hu)
    rw [List.foldl_cons, hrest, bits_add hl hd (h token List.mem_cons_self), List.map_cons,
      List.flatMap_cons, List.length_append, Nat.add_assoc]

/-- What is counted of tokens takes the bits of their body. -/
theorem bits_ofTokens (h : ∀ token ∈ tokens, token.Within windowSize)
    (literals distances : List Nat) :
    (ofTokens tokens).bits literals distances =
      (Format.Block.body literals distances (tokens.map Token.item)).length := by
  obtain ⟨hl, hd⟩ := size_empty
  rw [ofTokens, bits_foldl hl hd h, bits_empty, Format.Block.body, List.length_append,
    length_codeBits, Nat.add_comm, endOfBlock]

theorem fixedCost_eq (t : Tally) :
    fixedCost t = 3 + t.bits fixedLiteralLengths fixedDistanceLengths := by
  rw [fixedCost, bits, Nat.add_assoc, Nat.add_assoc, Nat.add_assoc]

theorem dynamicCost_eq (h : Header) (t : Tally) :
    dynamicCost h t = h.cost + t.bits h.literalLengths h.distanceLengths := by
  rw [dynamicCost, bits, Nat.add_assoc, Nat.add_assoc, Nat.add_assoc]

end Tally

section Prefix

theorem prefix_append (bits : List Bool) (last : Bool) (block : Format.Block) :
    bits <+: block.append bits last := by
  cases block with
  | stored data =>
    rw [Format.Block.append, pad]
    simp only [List.append_assoc]
    exact List.prefix_append bits _
  | fixed items => exact List.prefix_append bits _
  | coded head items => exact List.prefix_append bits _

theorem prefix_appendBlocks (bits : List Bool) (last : Bool) (blocks : List Format.Block) :
    bits <+: appendBlocks bits last blocks := by
  induction blocks generalizing bits with
  | nil => exact List.prefix_rfl
  | cons block blocks ih =>
    cases blocks with
    | nil => exact prefix_append bits last block
    | cons next blocks => exact (prefix_append bits false block).trans (ih _)

end Prefix

section Stored

theorem length_pad_le (bits : List Bool) : (pad bits).length ≤ bits.length + 7 := by
  obtain ⟨fill, hfill, hpad⟩ := exists_fill bits
  rw [hpad, List.length_append]
  omega

theorem length_pack_le (bits : List Bool) : 8 * (pack bits).length ≤ bits.length + 7 := by
  have hlen := congrArg List.length (ofBytes_pack bits)
  rw [length_ofBytes] at hlen
  rw [hlen]
  exact length_pad_le bits

theorem length_append_stored (bits : List Bool) (last : Bool) (data : List UInt8) :
    ((Format.Block.stored data).append bits last).length ≤ bits.length + 42 + 8 * data.length := by
  have hpad := length_pad_le (bits ++ last :: ofNat 2 0)
  rw [Format.Block.append]
  simp only [List.length_append, List.length_cons, length_ofNat, length_ofBytes] at hpad ⊢
  omega

/-- Data are cut into no more pieces than their cost allows for. -/
theorem length_appendBlocks_pieces (bits : List Bool) (last : Bool) (data : List UInt8) :
    (appendBlocks bits last (pieces data)).length ≤ bits.length + storedCost data.length := by
  fun_induction pieces data generalizing bits with
  | case1 data hdrop =>
    have hle := List.drop_eq_nil_iff.mp hdrop
    have hpiece := length_append_stored bits last (data.take maxStored)
    rw [List.take_of_length_le hle] at hpiece ⊢
    rw [appendBlocks, storedCost]
    omega
  | case2 data byte rest hdrop ih =>
    have hlen := congrArg List.length hdrop
    rw [List.length_drop] at hlen
    have hpos : 0 < (byte :: rest).length := Nat.succ_pos _
    have hpiece := length_append_stored bits false (data.take maxStored)
    have hrest := ih ((Format.Block.stored (data.take maxStored)).append bits false)
    rw [List.length_take] at hpiece
    rw [appendBlocks_cons _ (pieces_ne_nil _)]
    rw [storedCost] at hrest ⊢
    simp only [maxStored] at hlen hpiece hrest ⊢
    omega

theorem storedCost_blockSize : storedCost blockSize = 8 * blockSize + 84 := rfl

theorem storedCost_of_lt {n : Nat} (h : n < blockSize) : storedCost n = 8 * n + 42 := by
  rw [blockSize] at h
  rw [storedCost, maxStored]
  omega

end Stored

/-- What a block takes that is written for these tokens of `size` bytes: the cost of the kind that
is chosen if that has codes, and never more than any of the costs. -/
structure Costs (tokens : List Token) (size taken : Nat) : Prop where
  fixed : kindOf tokens size = .fixed → taken = fixedCost (Tally.ofTokens tokens)
  dynamic : kindOf tokens size = .dynamic →
    taken = dynamicCost (headerOf tokens) (Tally.ofTokens tokens)
  le : taken ≤ min (storedCost size)
    (min (fixedCost (Tally.ofTokens tokens)) (dynamicCost (headerOf tokens) (Tally.ofTokens tokens)))

def BlockKind.among (stored fixed dynamic : Nat) : BlockKind → Nat
  | .stored => stored
  | .fixed => fixed
  | .dynamic => dynamic

theorem among_cheapest (stored fixed dynamic : Nat) :
    (cheapest stored fixed dynamic).among stored fixed dynamic =
      min stored (min fixed dynamic) := by
  rw [cheapest]
  split_ifs <;> dsimp only [BlockKind.among] <;> omega

section Chosen

variable {tokens : List Token}

theorem length_append_fixed (h : ∀ token ∈ tokens, token.Within windowSize) (bits : List Bool)
    (last : Bool) :
    ((Format.Block.fixed (tokens.map Token.item)).append bits last).length =
      bits.length + fixedCost (Tally.ofTokens tokens) := by
  rw [Tally.fixedCost_eq, Tally.bits_ofTokens h, Format.Block.append, Format.fixedLiterals_eq,
    Format.fixedDistances_eq]
  simp only [List.length_append, List.length_cons, length_ofNat]
  omega

theorem length_append_coded (h : ∀ token ∈ tokens, token.Within windowSize) (bits : List Bool)
    (last : Bool) :
    ((Format.Block.coded (headerOf tokens).toHead (tokens.map Token.item)).append bits last).length =
      bits.length + dynamicCost (headerOf tokens) (Tally.ofTokens tokens) := by
  obtain ⟨hsig, hsig'⟩ := significant_headerOf tokens
  have hcost := Header.cost_eq (legal_headerOf tokens)
  have hbody : Format.Block.body (headerOf tokens).toHead.literals
      (headerOf tokens).toHead.distances (tokens.map Token.item) =
      Format.Block.body (headerOf tokens).literalLengths (headerOf tokens).distanceLengths
        (tokens.map Token.item) := body_take hsig hsig' _
  rw [Tally.dynamicCost_eq, Tally.bits_ofTokens h, ← hcost, Format.Block.append, hbody]
  simp only [List.length_append, List.length_cons, length_ofNat]
  omega

/-- The blocks that are chosen take what was expected of their kind. -/
theorem exists_costs (h : ∀ token ∈ tokens, token.Within windowSize) (bits : List Bool)
    (last : Bool) (data : List UInt8) :
    ∃ new, appendBlocks bits last (blocksAs tokens data (kindOf tokens data.length)) =
      bits ++ new ∧ Costs tokens data.length new.length := by
  obtain ⟨new, hnew⟩ :=
    prefix_appendBlocks bits last (blocksAs tokens data (kindOf tokens data.length))
  refine ⟨new, hnew.symm, ?_⟩
  have hlen := congrArg List.length hnew
  have hmin := among_cheapest (storedCost data.length) (fixedCost (Tally.ofTokens tokens))
    (dynamicCost (headerOf tokens) (Tally.ofTokens tokens))
  rw [← kindOf] at hmin
  rw [List.length_append] at hlen
  cases hkind : kindOf tokens data.length with
  | fixed =>
    have hfixed := length_append_fixed h bits last
    rw [hkind] at hlen hmin
    have htaken : new.length = fixedCost (Tally.ofTokens tokens) :=
      Nat.add_left_cancel (hlen.trans hfixed)
    exact ⟨fun _ => htaken, fun hd => absurd (hkind.symm.trans hd) (by decide),
      htaken.trans_le hmin.le⟩
  | dynamic =>
    have hcoded := length_append_coded h bits last
    rw [hkind] at hlen hmin
    have htaken : new.length = dynamicCost (headerOf tokens) (Tally.ofTokens tokens) :=
      Nat.add_left_cancel (hlen.trans hcoded)
    exact ⟨fun hf => absurd (hkind.symm.trans hf) (by decide), fun _ => htaken,
      htaken.trans_le hmin.le⟩
  | stored =>
    have hstored := length_appendBlocks_pieces bits last data
    rw [hkind] at hlen hmin
    have htaken : new.length ≤ storedCost data.length :=
      Nat.le_of_add_le_add_left (hlen.trans_le hstored)
    exact ⟨fun hf => absurd (hkind.symm.trans hf) (by decide),
      fun hd => absurd (hkind.symm.trans hd) (by decide), htaken.trans hmin.le⟩

end Chosen

end Conduit.Deflate
