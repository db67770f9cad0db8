import Conduit.Proofs.Deflate.Reading
import Conduit.Proofs.Deflate.Tables

namespace Conduit.Deflate

open BitParser Bits Relation
open Huffman (Feasible codeBits)
open Huffman.Table (ofFeasible)

section Tables

theorem yields_table {lengths : List Nat} (h : Feasible lengths) (hn : lengths.length < 2 ^ 16)
    (bits : List Bool) : (table lengths).Yields bits (ofFeasible lengths) bits := by
  apply yields_ofExcept
  rw [Huffman.Table.ofLengths_eq_ok h hn]
  rfl

theorem yields_symbol {lengths : List Nat} {s : Nat} (h : Feasible lengths)
    (hs : 0 < lengths.getD s 0) (tail : List Bool) :
    (symbol (ofFeasible lengths)).Yields (codeBits lengths s ++ tail) s tail := by
  have hsome : lengths[s]? = some (lengths.getD s 0) := by
    rw [List.getD_eq_getElem?_getD] at hs ⊢
    cases hl : lengths[s]? with
    | none => simp [hl] at hs
    | some length => rfl
  exact (Huffman.Table.yields_decode h hsome hs tail).mapCause Flaw.code

theorem yields_readRun {own lengths after : List Nat} {run : Run} {earlier : Array Nat}
    (hown : Feasible own) (hcoded : 0 < own.getD run.symbol 0)
    (hextra : run.extra < 2 ^ Run.extraBits run.symbol)
    (hextend : Format.Head.extend lengths run = some after) (he : earlier.toList = lengths)
    (tail : List Bool) :
    ∃ length more, after = lengths ++ List.replicate (more + 1) length ∧
      (readRun (ofFeasible own) earlier).Yields (codeBits own run.symbol ++
        (ofNat (Run.extraBits run.symbol) run.extra ++ tail)) (length, more) tail := by
  obtain ⟨symbol, extra⟩ := run
  have hsymbol := yields_symbol hown hcoded (ofNat (Run.extraBits symbol) extra ++ tail)
  simp only [Format.Head.extend] at hextend
  dsimp only at hcoded hextra ⊢
  split at hextend
  · obtain ⟨length, hlast, rfl⟩ := Option.map_eq_some_iff.mp hextend
    refine ⟨length, 2 + extra, by rw [Nat.add_comm extra 3]; congr 2; omega, ?_⟩
    refine hsymbol.bind ?_
    have hback : earlier.back? = some length := by
      rw [← he] at hlast
      rw [← hlast, Array.getLast?_toList]
    rw [hback]
    exact (yields_ofNat hextra).bind (yields_pure _ tail)
  · cases hextend
    refine ⟨0, 2 + extra, by congr 2; omega, ?_⟩
    exact hsymbol.bind ((yields_ofNat hextra).bind (yields_pure _ tail))
  · cases hextend
    refine ⟨0, 10 + extra, by congr 2; omega, ?_⟩
    exact hsymbol.bind ((yields_ofNat hextra).bind (yields_pure _ tail))
  next h16 h17 h18 =>
    split at hextend
    · cases hextend
      have hx : Run.extraBits symbol = 0 := Run.extraBits.eq_4 symbol h16 h17 h18
      refine ⟨symbol, 0, rfl, ?_⟩
      rw [hx] at hsymbol ⊢
      refine hsymbol.bind ?_
      split
      · contradiction
      · contradiction
      · contradiction
      · exact yields_pure _ tail
    · cases hextend

theorem prefix_of_extend {lengths after : List Nat} {run : Run}
    (h : Format.Head.extend lengths run = some after) : lengths <+: after := by
  rw [Format.Head.extend] at h
  split at h
  · obtain ⟨length, -, rfl⟩ := Option.map_eq_some_iff.mp h
    exact List.prefix_append _ _
  · cases h
    exact List.prefix_append _ _
  · cases h
    exact List.prefix_append _ _
  · split at h
    · cases h
      exact List.prefix_append _ _
    · cases h

theorem prefix_of_foldlM_extend {lengths after : List Nat} {runs : List Run}
    (h : runs.foldlM Format.Head.extend lengths = some after) : lengths <+: after := by
  induction runs generalizing lengths with
  | nil =>
    cases h
    exact List.prefix_refl _
  | cons run runs ih =>
    obtain ⟨mid, hmid, h⟩ := Option.bind_eq_some_iff.mp h
    exact (prefix_of_extend hmid).trans (ih h)

theorem yields_readLengths {own lengths after : List Nat} {runs : List Run} {earlier : Array Nat}
    (hown : Feasible own)
    (hcoded : ∀ run ∈ runs, 0 < own.getD run.symbol 0 ∧ run.extra < 2 ^ Run.extraBits run.symbol)
    (hextend : runs.foldlM Format.Head.extend lengths = some after) (he : earlier.toList = lengths)
    (tail : List Bool) :
    ∃ all : Array Nat, all.toList = after ∧
      (readLengths (ofFeasible own) after.length earlier).Yields
        (runs.flatMap (fun run =>
          codeBits own run.symbol ++ ofNat (Run.extraBits run.symbol) run.extra) ++ tail)
        all tail := by
  induction runs generalizing lengths earlier with
  | nil =>
    cases hextend
    refine ⟨earlier, he, ?_⟩
    rw [readLengths_eq, if_neg (by rw [← he, Array.length_toList]; exact Nat.lt_irrefl _)]
    exact yields_pure _ tail
  | cons run runs ih =>
    rw [List.foldlM_cons] at hextend
    obtain ⟨mid, hmid, hextend⟩ := Option.bind_eq_some_iff.mp hextend
    obtain ⟨hrun, hextra⟩ := hcoded run List.mem_cons_self
    obtain ⟨length, more, hafter, hread⟩ := yields_readRun hown hrun hextra hmid he
      (runs.flatMap (fun run =>
        codeBits own run.symbol ++ ofNat (Run.extraBits run.symbol) run.extra) ++ tail)
    have hmidArray : (earlier ++ Array.replicate (more + 1) length).toList = mid := by
      rw [Array.toList_append, he, Array.toList_replicate, hafter]
    obtain ⟨all, hall, hrest⟩ := ih (fun r hr => hcoded r (List.mem_cons_of_mem _ hr)) hextend
      hmidArray
    have hmono := (prefix_of_foldlM_extend hextend).length_le
    have hsize : mid.length = earlier.size + (more + 1) := by
      rw [hafter, List.length_append, List.length_replicate, ← he, Array.length_toList]
    refine ⟨all, hall, ?_⟩
    rw [readLengths_eq, if_pos (by omega), List.flatMap_cons, List.append_assoc, List.append_assoc]
    refine hread.bind ?_
    rw [if_neg (by omega)]
    exact hrest

theorem zip_take_map {α β : Type} (l : List α) (f : α → β) (n : Nat) :
    l.zip ((l.map f).take n) = (l.take n).map fun x => (x, f x) := by
  induction l generalizing n with
  | nil => simp
  | cons x l ih => cases n <;> simp [ih]

theorem headerLengths_ordered {own : List Nat} {sent : Nat} (hl : own.length = codeLengthSymbols)
    (hz : ∀ length ∈ (Header.ordered own).drop sent, length = 0) :
    headerLengths ((Header.ordered own).take sent) = own := by
  have hperm : codeLengthOrder.Nodup ∧ ∀ i < codeLengthSymbols, i ∈ codeLengthOrder := by decide
  rw [Header.ordered] at hz ⊢
  rw [headerLengths_eq, zip_take_map]
  have hkeys : ((codeLengthOrder.take sent).map fun x => (x, own.getD x 0)).map Prod.fst =
      codeLengthOrder.take sent := by
    rw [List.map_map]
    exact List.map_id _
  apply List.ext_getElem?
  intro i
  rw [Array.getElem?_toList]
  by_cases hi : i < codeLengthSymbols
  · have hget : own[i]? = some (own.getD i 0) := by
      rw [List.getD_eq_getElem?_getD, List.getElem?_eq_getElem (by omega), Option.getD_some]
    rw [hget]
    by_cases hm : i ∈ codeLengthOrder.take sent
    · apply Huffman.getElem?_place_of_mem
      · rw [hkeys]
        exact hperm.1.sublist (List.take_sublist _ _)
      · exact List.mem_map.mpr ⟨i, hm, rfl⟩
      · rwa [Array.size_replicate]
    · have hd : i ∈ codeLengthOrder.drop sent := by
        have := hperm.2 i hi
        rw [← List.take_append_drop sent codeLengthOrder, List.mem_append] at this
        exact this.resolve_left hm
      have hzero : own.getD i 0 = 0 := by
        rw [← List.map_drop] at hz
        exact hz _ (List.mem_map.mpr ⟨i, hd, rfl⟩)
      rw [Huffman.getElem?_place_of_notMem (by rwa [hkeys]), hzero, Array.getElem?_replicate,
        if_pos hi]
  · rw [List.getElem?_eq_none (by omega), Array.getElem?_eq_none]
    rw [Huffman.size_place, Array.size_replicate]
    omega

theorem length_sent {h : Format.Head} (hl : h.Legal) :
    ((Header.ordered h.own).take h.sent).length = h.sent := by
  have hordered : (Header.ordered h.own).length = codeLengthSymbols := by
    rw [Header.ordered, List.length_map]
    rfl
  rw [List.length_take, hordered]
  exact Nat.min_eq_left hl.sent_range.2

theorem sent_lt {h : Format.Head} (hl : h.Legal) :
    ∀ length ∈ (Header.ordered h.own).take h.sent, length < 2 ^ 3 := by
  intro length hm
  obtain ⟨symbol, -, rfl⟩ := List.mem_map.mp (List.mem_of_mem_take hm)
  rw [List.getD_eq_getElem?_getD]
  cases hs : h.own[symbol]? with
  | none => decide
  | some length => exact hl.own_lt length (List.mem_of_getElem? hs)

theorem endOfBlock_ne_zero {h : Format.Head} (hl : h.Legal) {all : Array Nat}
    (hall : all.toList = h.literals ++ h.distances) : all.getD endOfBlock 0 ≠ 0 := by
  have hlit := hl.literals_length.1
  have hget : all.getD endOfBlock 0 = h.literals.getD endOfBlock 0 := by
    rw [Array.getD_eq_getD_getElem?, ← Array.getElem?_toList, hall, List.getD_eq_getElem?_getD,
      List.getElem?_append_left (by rw [endOfBlock]; omega)]
  rw [hget]
  exact Nat.ne_of_gt hl.end_coded

/-- The head of a dynamic block gives the codes that it was made for. -/
theorem yields_readTables {h : Format.Head} (hl : h.Legal) (tail : List Bool) :
    readTables.Yields (h.bits ++ tail) ⟨ofFeasible h.literals, ofFeasible h.distances⟩ tail := by
  obtain ⟨hlit, hlit'⟩ := hl.literals_length
  obtain ⟨hdist, hdist'⟩ := hl.distances_length
  obtain ⟨hsent, hsent'⟩ := hl.sent_range
  have hown := hl.own_length
  have hnone : (#[] : Array Nat).toList = [] := rfl
  obtain ⟨all, hall, hread⟩ := yields_readLengths hl.own_feasible hl.extra_lt hl.runs_expand
    hnone tail
  rw [List.length_append] at hread
  have hlits : 257 + (h.literals.length - 257) = h.literals.length := by omega
  have hdists : 1 + (h.distances.length - 1) = h.distances.length := by omega
  have hsents : 4 + (h.sent - 4) = ((Header.ordered h.own).take h.sent).length := by
    rw [length_sent hl]
    omega
  rw [Format.Head.bits_eq, List.append_assoc, List.append_assoc, List.append_assoc,
    List.append_assoc]
  refine (yields_ofNat (by omega)).bind ?_
  refine (yields_ofNat (by omega)).bind ?_
  refine (yields_ofNat (by omega)).bind ?_
  rw [hlits, hdists, hsents]
  dsimp only
  rw [if_neg (by simp only [literalSymbols, distanceSymbols]; omega)]
  refine (yields_fields (sent_lt hl)).bind ?_
  rw [headerLengths_ordered hl.own_length hl.unsent_zero]
  refine (yields_table hl.own_feasible (by omega) _).bind ?_
  refine hread.bind ?_
  rw [if_neg (endOfBlock_ne_zero hl hall), hall, List.take_left, List.drop_left]
  refine (yields_table hl.literals_feasible (by omega) _).bind ?_
  exact (yields_table hl.distances_feasible (by omega) _).bind (yields_pure _ tail)

end Tables

section Items

variable {literals distances : List Nat}

theorem value?_eq_some {classes : List (Nat × Nat)} {e : Format.Entry} {value : Nat}
    (h : e.value? classes = some value) :
    ∃ least extraBits, classes[e.index]? = some (least, extraBits) ∧ e.offset < 2 ^ extraBits ∧
      value = least + e.offset ∧ e.extraBits classes = ofNat extraBits e.offset := by
  rw [Format.Entry.value?] at h
  split at h
  next least extraBits hc =>
    split at h
    next ho =>
      cases h
      exact ⟨least, extraBits, hc, ho, rfl, by rw [Format.Entry.extraBits, hc]⟩
    next => cases h
  next => cases h

theorem yields_readToken_copy (hl : Feasible literals) (hd : Feasible distances)
    {length distance : Format.Entry} (hlength : 0 < literals.getD (257 + length.index) 0)
    (hdistance : 0 < distances.getD distance.index 0) {l d : Nat}
    (hlv : length.value? lengthClasses = some l) (hdv : distance.value? distanceClasses = some d)
    {reach : Nat} (hreach : d ≤ reach) (tail : List Bool) :
    (readToken ⟨ofFeasible literals, ofFeasible distances⟩ reach).Yields
      ((Format.Item.copy length distance).bits literals distances ++ tail) (some (.copy l d))
      tail := by
  obtain ⟨least, extra, hclass, hoffset, rfl, hbits⟩ := value?_eq_some hlv
  obtain ⟨least', extra', hclass', hoffset', rfl, hbits'⟩ := value?_eq_some hdv
  rw [Format.Item.bits, Format.lengthClasses_eq, Format.distanceClasses_eq, hbits, hbits',
    List.append_assoc, List.append_assoc, List.append_assoc]
  refine (yields_symbol hl hlength _).bind ?_
  rw [if_neg (by rw [endOfBlock]; omega), if_neg (by rw [endOfBlock]; omega),
    Nat.add_sub_cancel_left, hclass]
  refine (yields_ofNat hoffset).bind ((yields_symbol hd hdistance _).bind ?_)
  rw [hclass']
  refine (yields_ofNat hoffset').bind ?_
  rw [if_neg (Nat.not_lt.mpr hreach)]
  exact yields_pure _ tail

theorem yields_readToken_literal (hl : Feasible literals) (t : Huffman.Table) {byte : UInt8}
    (hbyte : 0 < literals.getD byte.toNat 0) (reach : Nat) (tail : List Bool) :
    (readToken ⟨ofFeasible literals, t⟩ reach).Yields
      ((Format.Item.literal byte).bits literals distances ++ tail) (some (.literal byte)) tail := by
  refine (yields_symbol hl hbyte tail).bind ?_
  rw [if_pos (show byte.toNat < endOfBlock from byte.toNat_lt), UInt8.ofNat_toNat]
  exact yields_pure _ tail

theorem yields_readToken_end (hl : Feasible literals) (t : Huffman.Table)
    (hend : 0 < literals.getD endOfBlock 0) (reach : Nat) (tail : List Bool) :
    (readToken ⟨ofFeasible literals, t⟩ reach).Yields (codeBits literals endOfBlock ++ tail) none
      tail := by
  refine (yields_symbol hl hend tail).bind ?_
  rw [if_neg (Nat.lt_irrefl _), if_pos rfl]
  exact yields_pure _ tail

/-- A copy that the format allows finds its bytes in the history. -/
theorem extend_of_copyBack {distance n : Nat} {history : Array UInt8} {after : List UInt8}
    (h : copyBack distance n history.toList = some after) :
    ∃ a : Array UInt8, extend distance n history = some a ∧ a.toList = after := by
  induction n generalizing history with
  | zero =>
    cases h
    exact ⟨history, rfl, rfl⟩
  | succ n ih =>
    rw [copyBack] at h
    split at h
    · rw [Array.length_toList, Array.getElem?_toList] at h
      rw [extend]
      cases hb : history[history.size - distance]? with
      | none =>
        rw [hb] at h
        cases h
      | some byte =>
        rw [hb] at h
        dsimp only at h ⊢
        rw [← Array.toList_push] at h
        exact ih h
    · cases h

variable {last : Bool} {r : BitReader} {history : Array UInt8} {out after : List UInt8}
  {more : List Bool}

theorem leads_item (framed last : Bool) (hl : Feasible literals) (hd : Feasible distances)
    {item : Format.Item} (hlegal : item.Legal literals distances) {token : Token}
    (ht : item.token? = some token) (he : token.expand history.toList = some after)
    (hr : r.Holds (item.bits literals distances ++ more)) :
    ∃ (r' : BitReader) (history' : Array UInt8), r'.Holds more ∧ history'.toList = after ∧
      ReflTransGen (Leads framed)
        ⟨r, .tokens last ⟨ofFeasible literals, ofFeasible distances⟩, history⟩
        ⟨r', .tokens last ⟨ofFeasible literals, ofFeasible distances⟩, history'⟩ := by
  have hstep := step_tokens framed .start 0 _ r history last
    ⟨ofFeasible literals, ofFeasible distances⟩ (Nat.lt_succ_self history.size)
  obtain ⟨-, hsymbol, hsymbol'⟩ := hlegal
  cases item with
  | literal byte =>
    cases ht
    cases he
    obtain ⟨r', hr', ht⟩ := reading_of_yields
      (yields_readToken_literal hl (ofFeasible distances) hsymbol history.size more) hr _
    refine ⟨r', history.push byte, hr', Array.toList_push, .single (Or.inl ?_)⟩
    exact hstep.trans ht
  | copy length distance =>
    obtain ⟨l, hlv, ht⟩ := Option.bind_eq_some_iff.mp ht
    obtain ⟨d, hdv, ht⟩ := Option.bind_eq_some_iff.mp ht
    cases ht
    obtain ⟨least, extra, hclass, hoffset, rfl, -⟩ := value?_eq_some hlv
    have hmin := (lengthClasses_range hclass hoffset).1
    have hreach : d ≤ history.size := by
      obtain ⟨n, hn⟩ : ∃ n, least + length.offset = n + 1 :=
        Nat.exists_eq_succ_of_ne_zero (by rw [minMatch] at hmin; omega)
      rw [Token.expand, hn, copyBack] at he
      split at he
      next hd => exact hd.2
      next => cases he
    obtain ⟨history', hextend, hafter⟩ := extend_of_copyBack he
    obtain ⟨r', hr', ht⟩ := reading_of_yields
      (yields_readToken_copy hl hd hsymbol (hsymbol' _ rfl) hlv hdv hreach more) hr _
    refine ⟨r', history', hr', hafter, .head (Or.inl (hstep.trans ht)) ?_⟩
    have hcopy := leads_copying framed last ⟨ofFeasible literals, ofFeasible distances⟩ r'
      (by rw [minMatch] at hmin; omega) (Nat.le_refl _) hextend
    rwa [if_neg (Nat.lt_irrefl _)] at hcopy

theorem leads_body (framed last : Bool) (hl : Feasible literals) (hd : Feasible distances)
    (hend : 0 < literals.getD endOfBlock 0) {items : List Format.Item}
    (hlegal : ∀ item ∈ items, item.Legal literals distances) {tokens : List Token}
    (ht : items.mapM Format.Item.token? = some tokens)
    (he : expandAll history.toList tokens = some after)
    (hr : r.Holds (Format.Block.body literals distances items ++ more)) :
    ∃ (r' : BitReader) (history' : Array UInt8), r'.Holds more ∧ history'.toList = after ∧
      ReflTransGen (Leads framed)
        ⟨r, .tokens last ⟨ofFeasible literals, ofFeasible distances⟩, history⟩
        ⟨r', .afterBlock framed last, history'⟩ := by
  induction items generalizing tokens r history with
  | nil =>
    cases ht
    cases he
    obtain ⟨r', hr', ht⟩ := reading_of_yields
      (yields_readToken_end hl (ofFeasible distances) hend history.size more) hr _
    refine ⟨r', history, hr', rfl, .single (Or.inl ?_)⟩
    exact (step_tokens framed .start 0 _ r history last _ (Nat.lt_succ_self history.size)).trans ht
  | cons item items ih =>
    rw [List.mapM_cons] at ht
    obtain ⟨token, htoken, ht⟩ := Option.bind_eq_some_iff.mp ht
    obtain ⟨tokens', htokens, ht⟩ := Option.bind_eq_some_iff.mp ht
    cases ht
    rw [expandAll, List.foldlM_cons] at he
    obtain ⟨mid, hmid, he⟩ := Option.bind_eq_some_iff.mp he
    rw [Format.Block.body, List.flatMap_cons, List.append_assoc, List.append_assoc,
      ← List.append_assoc (items.flatMap _)] at hr
    obtain ⟨s, between, hs, rfl, hfirst⟩ := leads_item framed last hl hd
      (hlegal item List.mem_cons_self) htoken hmid hr
    obtain ⟨r', history', hr', hafter, hrest⟩ := ih
      (fun i hi => hlegal i (List.mem_cons_of_mem _ hi)) htokens he hs
    exact ⟨r', history', hr', hafter, hfirst.trans hrest⟩

end Items

section Blocks

theorem feasible_fixedLiteralLengths : Feasible fixedLiteralLengths :=
  ⟨by decide +kernel, by decide +kernel⟩

theorem feasible_fixedDistanceLengths : Feasible fixedDistanceLengths :=
  ⟨by decide +kernel, by decide +kernel⟩

theorem yields_flag (flag : Bool) (tail : List Bool) :
    (BitParser.bits 1 : Parser Nat).Yields (flag :: tail) flag.toNat tail := by
  have h : (BitParser.bits 1 : Parser Nat).Yields (ofNat 1 flag.toNat ++ tail) flag.toNat tail :=
    yields_ofNat (Bool.toNat_lt flag)
  cases flag <;> exact h

theorem decide_toNat (flag : Bool) : decide (flag.toNat = 1) = flag := by
  cases flag <;> rfl

theorem yields_readBlockHead_stored (last : Bool) {fill tail : List Bool} {length : Nat}
    (hf : fill.length < 8) (hl : length ≤ maxStored) (ht : tail.length % 8 = 0) :
    readBlockHead.Yields
      (last ::
        (ofNat 2 0 ++ (fill ++ (ofNat 16 length ++ (ofNat 16 (maxStored - length) ++ tail)))))
      (last, .stored length) tail := by
  rw [maxStored] at hl
  refine (yields_flag last _).bind ((yields_ofNat (by decide)).bind ?_)
  refine (yields_align hf ?_).bind ((yields_ofNat (by omega)).bind ?_)
  · simp only [List.length_append, length_ofNat]
    omega
  refine (yields_ofNat (by rw [maxStored]; omega)).bind ?_
  rw [if_neg (by rw [maxStored]; omega), decide_toNat]
  exact yields_pure _ tail

theorem yields_readBlockHead_fixed (last : Bool) (tail : List Bool) :
    readBlockHead.Yields (last :: (ofNat 2 1 ++ tail))
      (last, .coded ⟨ofFeasible fixedLiteralLengths, ofFeasible fixedDistanceLengths⟩) tail := by
  refine (yields_flag last _).bind ((yields_ofNat (by decide)).bind ?_)
  have htables : fixedTables.Yields tail
      ⟨ofFeasible fixedLiteralLengths, ofFeasible fixedDistanceLengths⟩ tail :=
    (yields_table feasible_fixedLiteralLengths (by decide +kernel) tail).bind
      ((yields_table feasible_fixedDistanceLengths (by decide) tail).bind (yields_pure _ tail))
  refine htables.bind ?_
  rw [decide_toNat]
  exact yields_pure _ tail

theorem yields_readBlockHead_coded (last : Bool) {head : Format.Head} (hl : head.Legal)
    (tail : List Bool) :
    readBlockHead.Yields (last :: (ofNat 2 2 ++ (head.bits ++ tail)))
      (last, .coded ⟨ofFeasible head.literals, ofFeasible head.distances⟩) tail := by
  refine (yields_flag last _).bind ((yields_ofNat (by decide)).bind ?_)
  refine (yields_readTables hl tail).bind ?_
  rw [decide_toNat]
  exact yields_pure _ tail

variable {last : Bool} {r : BitReader} {history : Array UInt8} {after : List UInt8}
  {before bits more : List Bool}

theorem leads_blockHead (framed : Bool) (history : Array UInt8) {last : Bool} {head : BlockHead}
    (h : readBlockHead.Yields bits (last, head) more) (hr : r.Holds bits) :
    ∃ r', r'.Holds more ∧
      Leads framed ⟨r, .blockHead, history⟩ ⟨r', head.stage last, history⟩ := by
  obtain ⟨r', hr', ht⟩ := reading_of_yields h hr _
  exact ⟨r', hr', Or.inl ((step_blockHead framed .start 0 _ r history).trans ht)⟩

theorem leads_storedBlock (framed : Bool) {data : List UInt8} (hlegal : data.length ≤ maxStored)
    (hr : r.Holds bits)
    (hbits : before ++ bits = Format.Block.append before last (.stored data) ++ more)
    (haligned : (before ++ bits).length % 8 = 0) :
    ∃ r', r'.Holds more ∧ ReflTransGen (Leads framed) ⟨r, .blockHead, history⟩
      ⟨r', .afterBlock framed last, history ++ data⟩ := by
  have hpad := length_pad_mod (before ++ last :: ofNat 2 0)
  rw [Format.Block.append] at hbits
  rw [hbits] at haligned
  simp only [List.length_append, length_ofNat, length_ofBytes] at haligned
  obtain ⟨rest, rfl⟩ := exists_ofBytes (by omega : more.length % 8 = 0)
  rw [pad, List.append_assoc, List.append_assoc, List.append_assoc, List.append_assoc,
    List.append_assoc] at hbits
  have hbits := List.append_cancel_left hbits
  rw [List.cons_append, ← ofBytes_append] at hbits
  rw [hbits] at hr
  have hwhole : (ofBytes (data ++ rest)).length % 8 = 0 := by
    rw [length_ofBytes]
    exact Nat.mul_mod_right 8 _
  obtain ⟨s, hs, hhead⟩ := leads_blockHead framed history
    (yields_readBlockHead_stored last (by rw [List.length_replicate]; omega) hlegal hwhole) hr
  obtain ⟨r', hr', hdata⟩ := leads_stored framed last history data rest hs (Nat.le_refl _)
  rw [Nat.sub_self] at hdata
  refine ⟨r', hr', .head hhead (hdata.tail (Or.inl ?_))⟩
  rw [tick, step, if_pos rfl]

theorem leads_codedBlock (framed : Bool) {literals distances : List Nat} (hl : Feasible literals)
    (hd : Feasible distances) (hend : 0 < literals.getD endOfBlock 0) {head : List Bool}
    (hhead : ∀ tail, readBlockHead.Yields (last :: (head ++ tail))
      (last, .coded ⟨ofFeasible literals, ofFeasible distances⟩) tail)
    {items : List Format.Item} (hlegal : ∀ item ∈ items, item.Legal literals distances)
    (he : (items.mapM Format.Item.token?).bind (expandAll history.toList) = some after)
    (hr : r.Holds bits)
    (hbits : before ++ bits =
      before ++ last :: (head ++ Format.Block.body literals distances items) ++ more) :
    ∃ (r' : BitReader) (history' : Array UInt8), r'.Holds more ∧ history'.toList = after ∧
      ReflTransGen (Leads framed) ⟨r, .blockHead, history⟩
        ⟨r', .afterBlock framed last, history'⟩ := by
  obtain ⟨tokens, ht, he⟩ := Option.bind_eq_some_iff.mp he
  rw [List.append_assoc] at hbits
  have hbits := List.append_cancel_left hbits
  rw [hbits, List.cons_append, List.append_assoc] at hr
  obtain ⟨s, hs, hfirst⟩ := leads_blockHead framed history (hhead _) hr
  obtain ⟨r', history', hr', hafter, hbody⟩ := leads_body framed last hl hd hend hlegal ht he hs
  exact ⟨r', history', hr', hafter, .head hfirst hbody⟩

theorem leads_block (framed : Bool) {block : Format.Block} (hlegal : block.Legal)
    (he : block.expand history.toList = some after) (hr : r.Holds bits)
    (hbits : before ++ bits = block.append before last ++ more)
    (haligned : (before ++ bits).length % 8 = 0) :
    ∃ (r' : BitReader) (history' : Array UInt8), r'.Holds more ∧ history'.toList = after ∧
      ReflTransGen (Leads framed) ⟨r, .blockHead, history⟩
        ⟨r', .afterBlock framed last, history'⟩ := by
  cases block with
  | stored data =>
    cases he
    obtain ⟨r', hr', hleads⟩ := leads_storedBlock framed hlegal hr hbits haligned
    exact ⟨r', history ++ data, hr', Array.toList_appendList, hleads⟩
  | fixed items =>
    rw [Format.Block.append, Format.fixedLiterals_eq, Format.fixedDistances_eq] at hbits
    rw [Format.Block.Legal, Format.fixedLiterals_eq, Format.fixedDistances_eq] at hlegal
    exact leads_codedBlock framed feasible_fixedLiteralLengths feasible_fixedDistanceLengths
      (by decide +kernel) (yields_readBlockHead_fixed last) hlegal he hr hbits
  | coded head items =>
    obtain ⟨hhead, hlegal⟩ := hlegal
    have hyields (tail : List Bool) := yields_readBlockHead_coded last hhead tail
    simp only [← List.append_assoc (ofNat 2 2)] at hyields
    exact leads_codedBlock framed hhead.literals_feasible hhead.distances_feasible hhead.end_coded
      hyields hlegal he hr hbits

theorem append_eq (block : Format.Block) (before : List Bool) (last : Bool) :
    ∃ tail, block.append before last = before ++ tail := by
  cases block with
  | stored data =>
    rw [Format.Block.append, pad]
    simp only [List.append_assoc]
    exact ⟨_, rfl⟩
  | fixed items => exact ⟨_, rfl⟩
  | coded head items => exact ⟨_, rfl⟩

theorem streamBits_cons (block next : Format.Block) (blocks : List Format.Block)
    (before : List Bool) :
    Format.streamBits before (block :: next :: blocks) =
      Format.streamBits (block.append before false) (next :: blocks) := rfl

theorem streamBits_eq (blocks : List Format.Block) (before : List Bool) :
    ∃ tail, Format.streamBits before blocks = before ++ tail := by
  induction blocks generalizing before with
  | nil => exact ⟨[], by simp [Format.streamBits]⟩
  | cons block blocks ih =>
    cases blocks with
    | nil => exact append_eq block before true
    | cons next blocks =>
      obtain ⟨tail, ht⟩ := append_eq block before false
      obtain ⟨tail', ht'⟩ := ih (block.append before false)
      exact ⟨tail ++ tail', by rw [streamBits_cons, ht', ht, List.append_assoc]⟩

/-- A stream of blocks brings out what they stand for. -/
theorem leads_stream (framed : Bool) (history : Array UInt8) {blocks : List Format.Block}
    (hne : blocks ≠ [])
    (hlegal : ∀ block ∈ blocks, block.Legal)
    (he : blocks.foldlM Format.Block.expand history.toList = some after) (hr : r.Holds bits)
    (hbits : before ++ bits = Format.streamBits before blocks ++ more)
    (haligned : (before ++ bits).length % 8 = 0) :
    ∃ (r' : BitReader) (history' : Array UInt8), r'.Holds more ∧ history'.toList = after ∧
      ReflTransGen (Leads framed) ⟨r, .blockHead, history⟩
        ⟨r', .afterBlock framed true, history'⟩ := by
  induction blocks generalizing before bits r history with
  | nil => exact absurd rfl hne
  | cons block blocks ih =>
    rw [List.foldlM_cons] at he
    obtain ⟨mid, hmid, he⟩ := Option.bind_eq_some_iff.mp he
    have hblock := hlegal block List.mem_cons_self
    cases blocks with
    | nil =>
      cases he
      exact leads_block framed hblock hmid hr hbits haligned
    | cons next blocks =>
      rw [streamBits_cons] at hbits
      obtain ⟨tail, htail⟩ := streamBits_eq (next :: blocks) (block.append before false)
      rw [htail, List.append_assoc] at hbits
      obtain ⟨s, between, hs, rfl, hfirst⟩ := leads_block framed hblock hmid hr hbits haligned
      obtain ⟨r', history', hr', hafter, hrest⟩ := ih _ (by simp)
        (fun b hb => hlegal b (List.mem_cons_of_mem _ hb)) he hs
        (by rw [htail, List.append_assoc]) (by rwa [← hbits])
      exact ⟨r', history', hr', hafter, hfirst.trans hrest⟩

end Blocks

end Conduit.Deflate
