import Mathlib.Data.List.TakeWhile
import Conduit.Deflate.Block
import Conduit.Proofs.Bits.Writing
import Conduit.Proofs.Deflate.Tables
import Conduit.Proofs.Huffman.Lengths
import Conduit.Proofs.Huffman.Numbering

namespace Conduit.Deflate

open Bits
open Huffman (Feasible Suits codeBits suits_buildLengths)

section Runs

def Run.Fits (run : Run) : Prop :=
  run.symbol < codeLengthSymbols ∧ run.extra < 2 ^ Run.extraBits run.symbol

/-- These runs can be sent, and add `lengths` to the ones before. -/
structure Spells (runs : List Run) (before lengths : List Nat) : Prop where
  fits : ∀ run ∈ runs, run.Fits
  expands : runs.foldlM Format.Head.extend before = some (before ++ lengths)

variable {before : List Nat} {length : Nat}

theorem spells_nil (before : List Nat) : Spells [] before [] :=
  ⟨by simp, by rw [List.append_nil]; rfl⟩

theorem spells_single {run : Run} {lengths : List Nat} (hf : run.Fits)
    (he : Format.Head.extend before run = some (before ++ lengths)) :
    Spells [run] before lengths := by
  refine ⟨fun r hr => ?_, ?_⟩
  · rw [List.mem_singleton.mp hr]
    exact hf
  · rw [List.foldlM_cons, he]
    rfl

theorem Spells.append {runs runs' : List Run} {lengths lengths' : List Nat}
    (h : Spells runs before lengths) (h' : Spells runs' (before ++ lengths) lengths') :
    Spells (runs ++ runs') before (lengths ++ lengths') := by
  refine ⟨fun r hr => ?_, ?_⟩
  · obtain hr | hr := List.mem_append.mp hr
    · exact h.fits r hr
    · exact h'.fits r hr
  · rw [List.foldlM_append, h.expands]
    change List.foldlM _ _ runs' = _
    rw [h'.expands, List.append_assoc]

theorem extend_literal (before : List Nat) (h : length < 16) (extra : Nat) :
    Format.Head.extend before ⟨length, extra⟩ = some (before ++ [length]) := by
  simp only [Format.Head.extend]
  split
  · omega
  · omega
  · omega
  · rw [if_pos h]

theorem extend_repeat (hb : before.getLast? = some length) (extra : Nat) :
    Format.Head.extend before ⟨16, extra⟩ =
      some (before ++ List.replicate (extra + 3) length) := by
  simp only [Format.Head.extend, hb, Option.map_some]

theorem extend_short (before : List Nat) (extra : Nat) :
    Format.Head.extend before ⟨17, extra⟩ = some (before ++ List.replicate (extra + 3) 0) := rfl

theorem extend_long (before : List Nat) (extra : Nat) :
    Format.Head.extend before ⟨18, extra⟩ = some (before ++ List.replicate (extra + 11) 0) := rfl

theorem spells_literal (before : List Nat) (h : length < 16) :
    Spells [⟨length, 0⟩] before [length] := by
  apply spells_single
  · exact ⟨by simp only [codeLengthSymbols]; omega, Nat.two_pow_pos _⟩
  · exact extend_literal before h 0

theorem spells_replicate (before : List Nat) (n : Nat) (h : length < 16) :
    Spells (List.replicate n ⟨length, 0⟩) before (List.replicate n length) := by
  induction n generalizing before with
  | zero => exact spells_nil before
  | succ n ih => exact (spells_literal before h).append (ih _)

theorem spells_zeroRuns (before : List Nat) (n : Nat) :
    Spells (zeroRuns n) before (List.replicate n 0) := by
  fun_induction zeroRuns n generalizing before with
  | case1 n hn ih =>
    have hfirst : Spells [⟨18, min n 138 - 11⟩] before (List.replicate (min n 138) 0) := by
      apply spells_single
      · exact ⟨(by decide : 18 < codeLengthSymbols), by simp only [Run.extraBits]; omega⟩
      · rw [extend_long, Nat.sub_add_cancel (by omega)]
    have := hfirst.append (ih (before ++ List.replicate (min n 138) 0))
    rwa [List.replicate_append_replicate, Nat.add_sub_cancel' (Nat.min_le_left n 138)] at this
  | case2 n hn h3 =>
    apply spells_single
    · exact ⟨(by decide : 17 < codeLengthSymbols), by simp only [Run.extraBits]; omega⟩
    · rw [extend_short, Nat.sub_add_cancel h3]
  | case3 n hn h3 => exact spells_replicate before n (by decide)

theorem spells_repeatRuns (n : Nat) (hl : length < 16) (hb : before.getLast? = some length) :
    Spells (repeatRuns length n) before (List.replicate n length) := by
  fun_induction repeatRuns length n generalizing before with
  | case1 n hn ih =>
    have hfirst : Spells [⟨16, min n 6 - 3⟩] before (List.replicate (min n 6) length) := by
      apply spells_single
      · exact ⟨(by decide : 16 < codeLengthSymbols), by simp only [Run.extraBits]; omega⟩
      · rw [extend_repeat hb, Nat.sub_add_cancel (by omega)]
    have hlast : (before ++ List.replicate (min n 6) length).getLast? = some length := by
      rw [List.getLast?_append, List.getLast?_replicate, if_neg (by omega)]
      rfl
    have := hfirst.append (ih hlast)
    rwa [List.replicate_append_replicate, Nat.add_sub_cancel' (Nat.min_le_left n 6)] at this
  | case2 n hn => exact spells_replicate before n hl

theorem take_leading (length : Nat) (lengths : List Nat) :
    lengths.take (leading length lengths) = List.replicate (leading length lengths) length := by
  have hp : lengths.takeWhile (· == length) = lengths.take (leading length lengths) :=
    List.prefix_iff_eq_take.mp (List.takeWhile_prefix _)
  rw [← hp, leading]
  apply List.eq_replicate_of_mem
  intro l hl
  simpa using List.mem_takeWhile_imp hl

/-- The runs made from code lengths spell them. -/
theorem spells_ofLengths (before : List Nat) {lengths : List Nat} (h : ∀ l ∈ lengths, l < 16) :
    Spells (Run.ofLengths lengths) before lengths := by
  fun_induction Run.ofLengths lengths generalizing before with
  | case1 => exact spells_nil before
  | case2 length rest n ih =>
    have hlength := h length List.mem_cons_self
    have hfirst : Spells
        (if length = 0 then zeroRuns (n + 1) else ⟨length, 0⟩ :: repeatRuns length n) before
        (length :: List.replicate n length) := by
      split
      next h0 =>
        subst h0
        exact spells_zeroRuns before (n + 1)
      next h0 =>
        refine (spells_literal before hlength).append (spells_repeatRuns n hlength ?_)
        exact List.getLast?_concat
    have := hfirst.append (ih _ fun l hl => h l (List.mem_cons_of_mem _ (List.mem_of_mem_drop hl)))
    rwa [List.cons_append, ← take_leading, List.take_append_drop] at this

theorem drop_significant {l : List Nat} {n : Nat} (hn : significant l ≤ n) :
    ∀ x ∈ l.drop n, x = 0 := by
  intro x hx
  have hp : l.reverse.takeWhile (· == 0) =
      l.reverse.take (l.reverse.takeWhile (· == 0)).length :=
    List.prefix_iff_eq_take.mp (List.takeWhile_prefix _)
  have hx : x ∈ l.drop (significant l) := by
    rw [← Nat.add_sub_cancel' hn, ← List.drop_drop] at hx
    exact List.mem_of_mem_drop hx
  rw [significant] at hx
  rw [List.take_reverse] at hp
  rw [← List.mem_reverse, ← hp] at hx
  simpa using List.mem_takeWhile_imp hx

end Runs

def Header.toHead (h : Header) : Format.Head where
  literals := h.literalLengths.take h.literalCount
  distances := h.distanceLengths.take h.distanceCount
  own := h.headerLengths
  sent := h.headerCount
  runs := h.runs

section Legal

variable {literals distances : List Nat}

theorem significant_le (l : List Nat) : significant l ≤ l.length :=
  Nat.sub_le _ _

theorem length_ordered (own : List Nat) : (Header.ordered own).length = codeLengthSymbols := by
  rw [Header.ordered, List.length_map]
  rfl

theorem suits_literals (h : literals.length = literalSymbols) :
    Suits (Huffman.buildLengths literals Huffman.maxLength) literals Huffman.maxLength :=
  suits_buildLengths (by decide) (by rw [h]; decide)

theorem suits_distances (h : distances.length = distanceSymbols) :
    Suits (Huffman.buildLengths distances Huffman.maxLength) distances Huffman.maxLength :=
  suits_buildLengths (by decide) (by rw [h]; decide)

theorem length_literalLengths (h : literals.length = literalSymbols) :
    (Header.ofFrequencies literals distances).literalLengths.length = literalSymbols :=
  (suits_literals h).length_eq.trans h

theorem length_distanceLengths (h : distances.length = distanceSymbols) :
    (Header.ofFrequencies literals distances).distanceLengths.length = distanceSymbols :=
  (suits_distances h).length_eq.trans h

theorem literalCount_le (h : literals.length = literalSymbols) :
    (Header.ofFrequencies literals distances).literalCount ≤
      (Header.ofFrequencies literals distances).literalLengths.length := by
  apply Nat.max_le.mpr
  constructor
  · exact significant_le _
  · rw [length_literalLengths h]
    decide

theorem distanceCount_le (h : distances.length = distanceSymbols) :
    (Header.ofFrequencies literals distances).distanceCount ≤
      (Header.ofFrequencies literals distances).distanceLengths.length := by
  apply Nat.max_le.mpr
  constructor
  · exact significant_le _
  · rw [length_distanceLengths h]
    decide

def runFrequencies (runs : List Run) : List Nat :=
  (List.range codeLengthSymbols).map fun symbol => runs.countP fun run => run.symbol == symbol

theorem suits_own (runs : List Run) :
    Suits (Huffman.buildLengths (runFrequencies runs) maxHeaderLength) (runFrequencies runs)
      maxHeaderLength :=
  suits_buildLengths (by decide)
    (by rw [runFrequencies, List.length_map, List.length_range]; decide)

theorem runFrequencies_pos {runs : List Run} {run : Run} (h : run ∈ runs) (hf : run.Fits) :
    0 < (runFrequencies runs).getD run.symbol 0 := by
  rw [runFrequencies, List.getD_eq_getElem?_getD, List.getElem?_map, List.getElem?_range hf.1,
    Option.map_some, Option.getD_some, List.countP_pos_iff]
  exact ⟨run, h, beq_self_eq_true _⟩

theorem getD_take {l : List Nat} {n i : Nat} (h : i < n) : (l.take n).getD i 0 = l.getD i 0 := by
  rw [List.getD_eq_getElem?_getD, List.getElem?_take_of_lt h, ← List.getD_eq_getElem?_getD]

theorem spells_take {lengths freqs : List Nat} (h : Suits lengths freqs Huffman.maxLength)
    (before : List Nat) (n : Nat) :
    Spells (Run.ofLengths (lengths.take n)) before (lengths.take n) := by
  apply spells_ofLengths
  intro l hl
  exact Nat.lt_succ_of_le (h.le l (List.mem_of_mem_take hl))

theorem legal_toHead (hl : literals.length = literalSymbols)
    (hd : distances.length = distanceSymbols) (hend : 0 < literals.getD endOfBlock 0) :
    (Header.ofFrequencies literals distances).toHead.Legal := by
  have hlit := suits_literals hl
  have hdist := suits_distances hd
  have hlength : (Header.ofFrequencies literals distances).toHead.literals.length =
      (Header.ofFrequencies literals distances).literalCount :=
    List.length_take_of_le (literalCount_le hl)
  have hlength' : (Header.ofFrequencies literals distances).toHead.distances.length =
      (Header.ofFrequencies literals distances).distanceCount :=
    List.length_take_of_le (distanceCount_le hd)
  have hfirst := spells_take hlit [] (Header.ofFrequencies literals distances).literalCount
  have hspells := hfirst.append
    (spells_take hdist _ (Header.ofFrequencies literals distances).distanceCount)
  have hown := suits_own (Header.ofFrequencies literals distances).runs
  have hsent := significant_le
    (Header.ordered (Header.ofFrequencies literals distances).headerLengths)
  rw [length_ordered, codeLengthSymbols] at hsent
  exact {
    literals_length := by
      rw [hlength]
      exact ⟨Nat.le_max_right _ 257, (literalCount_le hl).trans_eq (length_literalLengths hl)⟩
    distances_length := by
      rw [hlength']
      exact ⟨Nat.le_max_right _ 1, (distanceCount_le hd).trans_eq (length_distanceLengths hd)⟩
    literals_feasible := (hlit.feasible (Nat.le_refl _)).sublist (List.take_sublist _ _)
    distances_feasible := (hdist.feasible (Nat.le_refl _)).sublist (List.take_sublist _ _)
    end_coded := by
      rw [Header.toHead]
      dsimp only
      rw [getD_take]
      · exact hlit.pos endOfBlock hend
      · exact Nat.lt_of_lt_of_le (by decide) (Nat.le_max_right _ 257)
    own_length := by
      exact hown.length_eq.trans ((List.length_map _).trans List.length_range)
    own_lt := fun l hm => Nat.lt_succ_of_le (hown.le l hm)
    own_feasible := hown.feasible (by decide)
    sent_range := ⟨Nat.le_max_right _ 4, Nat.max_le.mpr ⟨hsent, by decide⟩⟩
    unsent_zero := drop_significant (Nat.le_max_left _ 4)
    run_coded := fun run hm => by
      rw [Format.runBits_eq]
      exact ⟨hown.pos _ (runFrequencies_pos hm (hspells.fits run hm)), (hspells.fits run hm).2⟩
    runs_expand := hspells.expands }

end Legal

section Write

open Huffman (CodeBook)

variable {w : BitWriter} {bits : List Bool}

theorem wrote_run {own : List Nat} (ho : Feasible own) {run : Run} (hw : w.Wrote bits)
    (hc : 0 < own.getD run.symbol 0) :
    (Header.writeRun (CodeBook.ofLengths own) w run).Wrote (bits ++
      (codeBits own run.symbol ++ ofNat (Run.extraBits run.symbol) run.extra)) := by
  have hs : own[run.symbol]? = some (own.getD run.symbol 0) := by
    rw [List.getD_eq_getElem?_getD] at hc ⊢
    cases hl : own[run.symbol]? with
    | none => simp [hl] at hc
    | some length => rfl
  rw [← List.append_assoc]
  exact (Huffman.wrote_putSymbol hw hs (ho.1 _ (List.mem_of_getElem? hs))).put _ _

theorem wrote_header {h : Header} (hl : h.toHead.Legal) (hw : w.Wrote bits)
    (hlit : h.literalCount ≤ h.literalLengths.length)
    (hdist : h.distanceCount ≤ h.distanceLengths.length) :
    (h.write w).Wrote (bits ++ h.toHead.bits) := by
  have hliterals : h.toHead.literals.length = h.literalCount := by
    rw [Header.toHead, List.length_take, Nat.min_eq_left hlit]
  have hdistances : h.toHead.distances.length = h.distanceCount := by
    rw [Header.toHead, List.length_take, Nat.min_eq_left hdist]
  rw [Format.Head.bits_eq, hliterals, hdistances]
  have hcounts := ((hw.put (h.literalCount - 257) 5).put (h.distanceCount - 1) 5).put
    (h.headerCount - 4) 4
  have hordered := hcounts.foldl (fun w length => w.put length 3) (ofNat 3)
    ((Header.ordered h.headerLengths).take h.headerCount) fun w bits length _ hw => hw.put length 3
  have hruns := hordered.foldl (Header.writeRun (CodeBook.ofLengths h.headerLengths))
    (fun run => codeBits h.headerLengths run.symbol ++
      ofNat (Run.extraBits run.symbol) run.extra) h.runs
    fun w bits run hm hw => wrote_run hl.own_feasible hw (hl.run_coded run hm).1
  simp only [List.append_assoc] at hruns ⊢
  exact hruns

end Write

end Conduit.Deflate
