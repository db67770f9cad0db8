import Conduit.Proofs.Deflate.Accepting
import Conduit.Proofs.Deflate.Items

namespace Conduit.Deflate

open Bits
open Huffman (Feasible Suits codeBits codeNumber CodeBook)

/-- The bits of blocks behind others. Unlike a stream they may be followed by more. -/
def appendBlocks (before : List Bool) (last : Bool) : List Format.Block → List Bool
  | [] => before
  | [block] => block.append before last
  | block :: blocks => appendBlocks (block.append before false) last blocks

/-- These blocks are legal, and add `data` to the output `before`. -/
structure Adds (blocks : List Format.Block) (before data : List UInt8) : Prop where
  legal : ∀ block ∈ blocks, block.Legal
  expands : blocks.foldlM Format.Block.expand before = some (before ++ data)

section Append

variable {blocks blocks' : List Format.Block} {last : Bool} {bits before : List Bool}
  {out : List UInt8}

theorem appendBlocks_cons (block : Format.Block) (hne : blocks ≠ []) :
    appendBlocks bits last (block :: blocks) =
      appendBlocks (block.append bits false) last blocks := by
  cases blocks with
  | nil => exact absurd rfl hne
  | cons next blocks => rfl

theorem appendBlocks_append (hne : blocks' ≠ []) :
    appendBlocks bits last (blocks ++ blocks') =
      appendBlocks (appendBlocks bits false blocks) last blocks' := by
  induction blocks generalizing bits with
  | nil => rfl
  | cons block blocks ih =>
    rw [List.cons_append, appendBlocks_cons block (by simp [hne]), ih]
    cases blocks <;> rfl

theorem appendBlocks_true (bits : List Bool) (blocks : List Format.Block) :
    appendBlocks bits true blocks = Format.streamBits bits blocks := by
  induction blocks generalizing bits with
  | nil => rfl
  | cons block blocks ih =>
    cases blocks with
    | nil => rfl
    | cons next blocks => exact ih (block.append bits false)

theorem append_ofBytes (out : List UInt8) (bits : List Bool) (last : Bool) (block : Format.Block) :
    block.append (ofBytes out ++ bits) last = ofBytes out ++ block.append bits last := by
  cases block with
  | stored data =>
    simp only [Format.Block.append, List.append_assoc, pad_ofBytes_append]
  | fixed items => exact List.append_assoc _ _ _
  | coded head items => exact List.append_assoc _ _ _

theorem appendBlocks_ofBytes (out : List UInt8) (bits : List Bool) (last : Bool)
    (blocks : List Format.Block) :
    appendBlocks (ofBytes out ++ bits) last blocks =
      ofBytes out ++ appendBlocks bits last blocks := by
  induction blocks generalizing bits with
  | nil => rfl
  | cons block blocks ih =>
    cases blocks with
    | nil => exact append_ofBytes out bits last block
    | cons next blocks =>
      rw [appendBlocks_cons block (by simp), appendBlocks_cons block (by simp), append_ofBytes, ih]

theorem adds_nil (out : List UInt8) : Adds [] out [] :=
  ⟨by simp, by rw [List.append_nil]; rfl⟩

theorem Adds.append {said data : List UInt8} (h : Adds blocks out said)
    (h' : Adds blocks' (out ++ said) data) : Adds (blocks ++ blocks') out (said ++ data) where
  legal block hb := by
    obtain hb | hb := List.mem_append.mp hb
    · exact h.legal block hb
    · exact h'.legal block hb
  expands := by
    rw [List.foldlM_append, h.expands]
    exact h'.expands.trans (congrArg some (List.append_assoc _ _ _))

end Append

section Stored

variable {w : BitWriter} {bits : List Bool}

theorem ofBytes_littleEndian (width n : Nat) :
    ofBytes (Octets.littleEndian width n) = ofNat (8 * width) n := by
  induction width generalizing n with
  | zero => rfl
  | succ width ih =>
    rw [Octets.littleEndian, ofBytes_cons, ofNat_uint8, ih, Nat.mul_succ, Nat.add_comm, ofNat_add]
    rfl

theorem wrote_finalBit (hw : w.Wrote bits) (last : Bool) :
    (w.put (finalBit last) 1).Wrote (bits ++ [last]) := by
  have h := hw.put (finalBit last) 1
  cases last <;> exact h

theorem wrote_piece (hw : w.Wrote bits) (data : List UInt8) (last : Bool) :
    (writePiece w data last).Wrote ((Format.Block.stored data).append bits last) := by
  have hhead := ((wrote_finalBit hw last).put 0 2).align
  rw [List.append_assoc] at hhead
  have hpad := length_pad_mod (bits ++ ([last] ++ ofNat 2 0))
  have hlength := hhead.putBytes hpad (Octets.littleEndian 2 data.length)
  rw [ofBytes_littleEndian] at hlength
  have hcomplement := hlength.putBytes (by rw [List.length_append, length_ofNat]; omega)
    (Octets.littleEndian 2 (maxStored - data.length))
  rw [ofBytes_littleEndian] at hcomplement
  exact hcomplement.putBytes
    (by simp only [List.length_append, length_ofNat] at hpad ⊢; omega) data

def pieces (data : List UInt8) : List Format.Block :=
  match _h : data.drop maxStored with
  | [] => [.stored (data.take maxStored)]
  | byte :: rest => .stored (data.take maxStored) :: pieces (byte :: rest)
termination_by data.length
decreasing_by
  have := congrArg List.length _h
  simp only [List.length_drop, List.length_cons, maxStored] at this ⊢
  omega

theorem adds_stored (before : List UInt8) {data : List UInt8} (h : data.length ≤ maxStored) :
    Adds [.stored data] before data where
  legal block hb := by
    rw [List.mem_singleton.mp hb]
    exact h
  expands := rfl

theorem adds_pieces (before data : List UInt8) : Adds (pieces data) before data := by
  have hfirst (data : List UInt8) : (data.take maxStored).length ≤ maxStored :=
    List.length_take_le _ _
  fun_induction pieces data generalizing before with
  | case1 data hdrop =>
    have h := adds_stored before (hfirst data)
    rwa [List.take_of_length_le (List.drop_eq_nil_iff.mp hdrop)] at h ⊢
  | case2 data byte rest hdrop ih =>
    have h := (adds_stored before (hfirst data)).append (ih _)
    rwa [← hdrop, List.take_append_drop, hdrop] at h

theorem pieces_ne_nil (data : List UInt8) : pieces data ≠ [] := by
  fun_induction pieces data with
  | case1 data hdrop => exact List.cons_ne_nil _ _
  | case2 data byte rest hdrop ih => exact List.cons_ne_nil _ _

theorem wrote_stored (hw : w.Wrote bits) (data : List UInt8) (last : Bool) :
    (writeStored w data last).Wrote (appendBlocks bits last (pieces data)) := by
  fun_induction pieces data generalizing w bits with
  | case1 data hdrop =>
    rw [writeStored]
    split
    next => exact wrote_piece hw _ last
    next hd => cases hdrop.symm.trans hd
  | case2 data byte rest hdrop ih =>
    rw [writeStored]
    split
    next hd => cases hdrop.symm.trans hd
    next hd =>
      cases hdrop.symm.trans hd
      rw [appendBlocks_cons _ (pieces_ne_nil _)]
      exact ih (wrote_piece hw _ false)

end Stored

section Chosen

variable {w : BitWriter} {bits : List Bool} {tokens : List Token} {literals : List Nat}

theorem getD_take_significant {n : Nat} (hn : significant literals ≤ n) (i : Nat) :
    (literals.take n).getD i 0 = literals.getD i 0 := by
  by_cases hi : i < n
  · exact getD_take hi
  · have hzero : literals.getD i 0 = 0 := by
      rw [List.getD_eq_getElem?_getD]
      cases hl : literals[i]? with
      | none => rfl
      | some length =>
        apply drop_significant hn
        rw [List.mem_iff_getElem?]
        exact ⟨i - n, by rw [List.getElem?_drop, Nat.add_sub_cancel' (by omega), hl]; rfl⟩
    rw [hzero, List.getD_eq_getElem?_getD, List.getElem?_eq_none]
    · rfl
    · rw [List.length_take]
      omega

/-- Trailing symbols without codes do not matter for those of the others. -/
theorem codeBits_take {n : Nat} (hn : significant literals ≤ n) :
    codeBits (literals.take n) = codeBits literals := by
  funext symbol
  -- symbols without a code come before no other
  have hfilter (own : Nat) :
      (literals.take n).zipIdx.filter (fun p => Huffman.comesBefore p.1 p.2 own symbol) =
        literals.zipIdx.filter fun p => Huffman.comesBefore p.1 p.2 own symbol := by
    conv_rhs => rw [← List.take_append_drop n literals]
    rw [List.zipIdx_append, List.filter_append, List.self_eq_append_right, List.filter_eq_nil_iff]
    intro p hm
    have hz := drop_significant hn p.1 (List.fst_mem_of_mem_zipIdx hm)
    simp [Huffman.comesBefore, hz]
  have hnumber : codeNumber (literals.take n) symbol = codeNumber literals symbol := by
    rw [codeNumber, codeNumber, getD_take_significant hn]
    dsimp only
    rw [hfilter]
  rw [codeBits, codeBits, getD_take_significant hn, hnumber]

def headerOf (tokens : List Token) : Header :=
  .ofFrequencies (Tally.ofTokens tokens).literals.toList (Tally.ofTokens tokens).distances.toList

def kindOf (tokens : List Token) (size : Nat) : BlockKind :=
  cheapest (storedCost size) (fixedCost (Tally.ofTokens tokens))
    (dynamicCost (headerOf tokens) (Tally.ofTokens tokens))

/-- The blocks of a kind for `data`, whose tokens these are. -/
def blocksAs (tokens : List Token) (data : List UInt8) : BlockKind → List Format.Block
  | .stored => pieces data
  | .fixed => [.fixed (tokens.map Token.item)]
  | .dynamic => [.coded (headerOf tokens).toHead (tokens.map Token.item)]

theorem legal_item {token : Token} {distances : List Nat} (h : token.Within windowSize)
    (hl : 0 < literals.getD token.item.literalSymbol 0)
    (hd : ∀ symbol ∈ token.item.distanceSymbol?, 0 < distances.getD symbol 0) :
    token.item.Legal literals distances :=
  ⟨by rw [token?_item h]; rfl, hl, hd⟩

theorem getD_pos {lengths : List Nat} (h : ∀ length ∈ lengths, 0 < length) {symbol : Nat}
    (hs : symbol < lengths.length) : 0 < lengths.getD symbol 0 := by
  rw [List.getD_eq_getElem?_getD, List.getElem?_eq_getElem hs]
  exact h _ (List.getElem_mem hs)

theorem fixedLiteralLengths_pos : ∀ length ∈ fixedLiteralLengths, 0 < length := by
  decide +kernel

theorem literalSymbols_le : literalSymbols ≤ fixedLiteralLengths.length := by
  rw [fixedLiteralLengths]
  simp only [List.length_append, List.length_replicate]
  decide

theorem legal_fixed {token : Token} (h : token.Within windowSize) :
    token.item.Legal fixedLiteralLengths fixedDistanceLengths := by
  refine legal_item h (getD_pos fixedLiteralLengths_pos ?_) fun s hs =>
    getD_pos (by simp [fixedDistanceLengths]) ?_
  · exact (literalSymbol_lt h).trans_le literalSymbols_le
  · exact (distanceSymbol_lt h s hs).trans_le (by decide)

theorem length_ofTokens (tokens : List Token) :
    (Tally.ofTokens tokens).literals.toList.length = literalSymbols ∧
      (Tally.ofTokens tokens).distances.toList.length = distanceSymbols := by
  have hwithin := Tally.within_foldl .empty tokens
  obtain ⟨hl, hd⟩ := Tally.size_empty
  exact ⟨Array.length_toList.trans (hwithin.literals_size.trans hl),
    Array.length_toList.trans (hwithin.distances_size.trans hd)⟩

theorem legal_headerOf (tokens : List Token) : (headerOf tokens).toHead.Legal :=
  legal_toHead (length_ofTokens tokens).1 (length_ofTokens tokens).2
    (Tally.endOfBlock_counted tokens)

theorem suits_headerOf (tokens : List Token) :
    Suits (headerOf tokens).literalLengths (Tally.ofTokens tokens).literals.toList
        Huffman.maxLength ∧
      Suits (headerOf tokens).distanceLengths (Tally.ofTokens tokens).distances.toList
        Huffman.maxLength :=
  ⟨suits_literals (length_ofTokens tokens).1, suits_distances (length_ofTokens tokens).2⟩

theorem significant_headerOf (tokens : List Token) :
    significant (headerOf tokens).literalLengths ≤ (headerOf tokens).literalCount ∧
      significant (headerOf tokens).distanceLengths ≤ (headerOf tokens).distanceCount :=
  ⟨Nat.le_max_left _ _, Nat.le_max_left _ _⟩

theorem legal_coded (h : ∀ token ∈ tokens, token.Within windowSize) {token : Token}
    (hm : token ∈ tokens) :
    token.item.Legal (headerOf tokens).toHead.literals (headerOf tokens).toHead.distances := by
  obtain ⟨hl, hd⟩ := suits_headerOf tokens
  obtain ⟨hsig, hsig'⟩ := significant_headerOf tokens
  obtain ⟨hcount, hcount'⟩ :=
    Tally.counts_foldl Tally.size_empty.1 Tally.size_empty.2 h token hm
  apply legal_item (h token hm)
  · rw [Header.toHead]
    dsimp only
    rw [getD_take_significant hsig]
    exact hl.pos _ hcount
  · intro s hs
    rw [Header.toHead]
    dsimp only
    rw [getD_take_significant hsig']
    exact hd.pos s (hcount' s hs)

theorem expands_items (h : ∀ token ∈ tokens, token.Within windowSize) {out after : List UInt8}
    (he : expandAll out tokens = some after) :
    ((tokens.map Token.item).mapM Format.Item.token?).bind (expandAll out) = some after := by
  rw [mapM_token?_item h]
  exact he

/-- The blocks say what their tokens stand for. -/
theorem adds_blocksAs {bytes : Array UInt8} {i stop : Nat} (h : Covers bytes i stop tokens)
    {data : List UInt8} (hd : bytes.toList.take i ++ data = bytes.toList.take stop)
    (before : List UInt8) (kind : BlockKind) :
    Adds (blocksAs tokens data kind) (before ++ bytes.toList.take i) data := by
  have he := h.expands before
  rw [← hd, ← List.append_assoc] at he
  have he := expands_items h.within he
  cases kind with
  | stored => exact adds_pieces _ data
  | fixed =>
    refine ⟨fun block hb => ?_, ?_⟩
    · rw [List.mem_singleton.mp hb, Format.Block.Legal, Format.fixedLiterals_eq,
        Format.fixedDistances_eq]
      intro item hi
      obtain ⟨token, ht, rfl⟩ := List.mem_map.mp hi
      exact legal_fixed (h.within token ht)
    · rw [blocksAs, List.foldlM_cons, Format.Block.expand, he]
      rfl
  | dynamic =>
    refine ⟨fun block hb => ?_, ?_⟩
    · rw [List.mem_singleton.mp hb]
      refine ⟨legal_headerOf tokens, fun item hi => ?_⟩
      obtain ⟨token, ht, rfl⟩ := List.mem_map.mp hi
      exact legal_coded h.within ht
    · rw [blocksAs, List.foldlM_cons, Format.Block.expand, he]
      rfl

theorem blocksAs_ne_nil (tokens : List Token) (data : List UInt8) (kind : BlockKind) :
    blocksAs tokens data kind ≠ [] := by
  cases kind with
  | stored => exact pieces_ne_nil data
  | fixed => exact List.cons_ne_nil _ _
  | dynamic => exact List.cons_ne_nil _ _

theorem wrote_fixed (hw : w.Wrote bits) (h : ∀ token ∈ tokens, token.Within windowSize)
    (last : Bool) :
    (writeTokens fixedLiteralBook fixedDistanceBook ((w.put (finalBit last) 1).put 1 2)
      tokens).Wrote ((Format.Block.fixed (tokens.map Token.item)).append bits last) := by
  have hbody := wrote_tokens feasible_fixedLiteralLengths feasible_fixedDistanceLengths
    literalSymbols_le (by decide) h ((wrote_finalBit hw last).put 1 2)
  rw [List.append_assoc, List.append_assoc] at hbody
  rw [Format.Block.append, Format.fixedLiterals_eq, Format.fixedDistances_eq]
  exact hbody

theorem body_take {distances : List Nat} {n m : Nat} (hn : significant literals ≤ n)
    (hm : significant distances ≤ m) (items : List Format.Item) :
    Format.Block.body (literals.take n) (distances.take m) items =
      Format.Block.body literals distances items := by
  have hitem : Format.Item.bits (literals.take n) (distances.take m) =
      Format.Item.bits literals distances := by
    funext item
    cases item with
    | literal byte => rw [Format.Item.bits, Format.Item.bits, codeBits_take hn]
    | copy length distance =>
      rw [Format.Item.bits, Format.Item.bits, codeBits_take hn, codeBits_take hm]
  rw [Format.Block.body, Format.Block.body, hitem, codeBits_take hn]

theorem wrote_coded (hw : w.Wrote bits) (h : ∀ token ∈ tokens, token.Within windowSize)
    (last : Bool) :
    (writeTokens (.ofLengths (headerOf tokens).literalLengths)
      (.ofLengths (headerOf tokens).distanceLengths)
      ((headerOf tokens).write ((w.put (finalBit last) 1).put 2 2)) tokens).Wrote
      ((Format.Block.coded (headerOf tokens).toHead (tokens.map Token.item)).append bits last) := by
  obtain ⟨hl, hd⟩ := suits_headerOf tokens
  have hlength := length_ofTokens tokens
  have hhead := wrote_header (legal_headerOf tokens) ((wrote_finalBit hw last).put 2 2)
    (literalCount_le hlength.1) (distanceCount_le hlength.2)
  have hbody := wrote_tokens (hl.feasible (Nat.le_refl _)) (hd.feasible (Nat.le_refl _))
    (length_literalLengths hlength.1).ge (length_distanceLengths hlength.2).ge h hhead
  rw [← body_take (significant_headerOf tokens).1 (significant_headerOf tokens).2,
    List.append_assoc, List.append_assoc, List.append_assoc,
    ← List.append_assoc (ofNat 2 2)] at hbody
  exact hbody

theorem wrote_block (hw : w.Wrote bits) (h : ∀ token ∈ tokens, token.Within windowSize)
    (data : List UInt8) (last : Bool) :
    (writeBlock w tokens data last).Wrote
      (appendBlocks bits last (blocksAs tokens data (kindOf tokens data.length))) := by
  change (writeAs (headerOf tokens) w tokens data last (kindOf tokens data.length)).Wrote _
  cases kindOf tokens data.length with
  | stored => exact wrote_stored hw data last
  | fixed => exact wrote_fixed hw h last
  | dynamic => exact wrote_coded hw h last

end Chosen

end Conduit.Deflate
