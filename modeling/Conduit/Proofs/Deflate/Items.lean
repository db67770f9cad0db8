import Conduit.Proofs.Deflate.Heads
import Conduit.Proofs.Deflate.Matching

namespace Conduit.Deflate

open Bits
open Huffman (Feasible codeBits CodeBook)

section Slots

/-- Each class goes on at least up to the next, and the last one up to `top`. -/
def Contiguous (top : Nat) : List (Nat × Nat) → Prop
  | [] => True
  | [(start, extraBits)] => top ≤ start + 2 ^ extraBits
  | (start, extraBits) :: (next, bits) :: classes =>
    next ≤ start + 2 ^ extraBits ∧ Contiguous top ((next, bits) :: classes)

def Slot.IsFor (slot : Slot) (value : Nat) (classes : List (Nat × Nat)) : Prop :=
  ∃ least, classes[slot.index]? = some (least, slot.extraBits) ∧ value = least + slot.offset ∧
    slot.offset < 2 ^ slot.extraBits

theorem isFor_findSlot {all classes : List (Nat × Nat)} {index value top least : Nat} {found : Slot}
    (hd : all.drop index = classes) (hf : all[found.index]? = some (least, found.extraBits))
    (hv : value = least + found.offset) (hc : Contiguous top ((least, found.extraBits) :: classes))
    (ht : value < top) : (findSlot value classes index found).IsFor value all := by
  induction classes generalizing index found least with
  | nil =>
    simp only [Contiguous] at hc
    exact ⟨least, hf, hv, by simp only [findSlot]; omega⟩
  | cons c classes ih =>
    obtain ⟨start, bits⟩ := c
    obtain ⟨hnext, hrest⟩ := hc
    have hget : all[index]? = some (start, bits) := by
      rw [← List.head?_drop, hd, List.head?_cons]
    rw [findSlot]
    split
    next hle =>
      refine ih ?_ hget (Nat.add_sub_cancel' hle).symm hrest
      rw [← List.tail_drop, hd, List.tail_cons]
    next hlt => exact ⟨least, hf, hv, by omega⟩

theorem isFor_lengthSlot {length : Nat} (hmin : minMatch ≤ length) (hmax : length ≤ maxMatch) :
    (lengthSlot length).IsFor length lengthClasses := by
  rw [minMatch] at hmin
  rw [maxMatch] at hmax
  have hcontiguous : Contiguous 259 lengthClasses := by
    simp only [lengthClasses, Contiguous]
    decide
  rw [lengthSlot, lengthClasses, findSlot, if_pos hmin]
  exact isFor_findSlot rfl rfl (Nat.add_sub_cancel' hmin).symm hcontiguous (by omega)

theorem isFor_distanceSlot {distance : Nat} (hmin : 1 ≤ distance) (hmax : distance ≤ windowSize) :
    (distanceSlot distance).IsFor distance distanceClasses := by
  rw [windowSize] at hmax
  have hcontiguous : Contiguous 32769 distanceClasses := by
    simp only [distanceClasses, Contiguous]
    decide
  rw [distanceSlot, distanceClasses, findSlot, if_pos hmin]
  exact isFor_findSlot rfl rfl (Nat.add_sub_cancel' hmin).symm hcontiguous (by omega)

end Slots

def Token.item : Token → Format.Item
  | .literal byte => .literal byte
  | .copy length distance =>
    .copy ⟨(lengthSlot length).index, (lengthSlot length).offset⟩
      ⟨(distanceSlot distance).index, (distanceSlot distance).offset⟩

section Items

variable {token : Token} {w : BitWriter} {bits : List Bool} {literals distances : List Nat}

theorem Slot.IsFor.value? {slot : Slot} {value : Nat} {classes : List (Nat × Nat)}
    (h : slot.IsFor value classes) :
    (⟨slot.index, slot.offset⟩ : Format.Entry).value? classes = some value := by
  obtain ⟨least, hc, hv, ho⟩ := h
  rw [Format.Entry.value?, hc]
  dsimp only
  rw [if_pos ho, hv]

theorem Slot.IsFor.extraBits {slot : Slot} {value : Nat} {classes : List (Nat × Nat)}
    (h : slot.IsFor value classes) :
    (⟨slot.index, slot.offset⟩ : Format.Entry).extraBits classes =
      ofNat slot.extraBits slot.offset := by
  obtain ⟨least, hc, -, -⟩ := h
  rw [Format.Entry.extraBits, hc]

theorem Slot.IsFor.index_lt {slot : Slot} {value : Nat} {classes : List (Nat × Nat)}
    (h : slot.IsFor value classes) : slot.index < classes.length := by
  obtain ⟨least, hc, -, -⟩ := h
  exact (List.getElem?_eq_some_iff.mp hc).1

theorem token?_item (h : token.Within windowSize) : token.item.token? = some token := by
  cases token with
  | literal byte => rfl
  | copy length distance =>
    obtain ⟨hmin, hmax, hd0, hdw, -⟩ := h
    rw [Token.item, Format.Item.token?, Format.lengthClasses_eq, Format.distanceClasses_eq,
      (isFor_lengthSlot hmin hmax).value?, (isFor_distanceSlot hd0 hdw).value?]
    rfl

theorem mapM_token?_item {tokens : List Token} (h : ∀ token ∈ tokens, token.Within windowSize) :
    (tokens.map Token.item).mapM Format.Item.token? = some tokens := by
  induction tokens with
  | nil => rfl
  | cons token tokens ih =>
    rw [List.map_cons, List.mapM_cons, token?_item (h token List.mem_cons_self),
      ih fun t ht => h t (List.mem_cons_of_mem _ ht)]
    rfl

theorem literalSymbol_lt (h : token.Within windowSize) :
    token.item.literalSymbol < literalSymbols := by
  cases token with
  | literal byte => exact Nat.lt_trans byte.toNat_lt (by decide)
  | copy length distance =>
    obtain ⟨hmin, hmax, -, -, -⟩ := h
    have hlt := (isFor_lengthSlot hmin hmax).index_lt
    simp only [Token.item, Format.Item.literalSymbol, literalSymbols]
    simp only [lengthClasses, List.length_cons, List.length_nil] at hlt
    omega

theorem distanceSymbol_lt (h : token.Within windowSize) :
    ∀ symbol ∈ token.item.distanceSymbol?, symbol < distanceSymbols := by
  cases token with
  | literal byte => simp [Token.item, Format.Item.distanceSymbol?]
  | copy length distance =>
    obtain ⟨-, -, hd0, hdw, -⟩ := h
    intro symbol hs
    cases hs
    exact (isFor_distanceSlot hd0 hdw).index_lt

theorem wrote_symbol (hl : Feasible literals) (hw : w.Wrote bits) {symbol : Nat}
    (hs : symbol < literals.length) :
    (putSymbol (CodeBook.ofLengths literals) w symbol).Wrote (bits ++ codeBits literals symbol) :=
  Huffman.wrote_putSymbol hw (List.getElem?_eq_getElem hs) (hl.1 _ (List.getElem_mem hs))

theorem wrote_token (hl : Feasible literals) (hd : Feasible distances)
    (hll : literalSymbols ≤ literals.length) (hdl : distanceSymbols ≤ distances.length)
    (h : token.Within windowSize) (hw : w.Wrote bits) :
    (writeToken (CodeBook.ofLengths literals) (CodeBook.ofLengths distances) w token).Wrote
      (bits ++ token.item.bits literals distances) := by
  have hlt := Nat.lt_of_lt_of_le (literalSymbol_lt h) hll
  have hlt' := distanceSymbol_lt h
  cases token with
  | literal byte => exact wrote_symbol hl hw hlt
  | copy length distance =>
    obtain ⟨hmin, hmax, hd0, hdw, -⟩ := h
    rw [Token.item, Format.Item.bits, Format.lengthClasses_eq, Format.distanceClasses_eq,
      (isFor_lengthSlot hmin hmax).extraBits, (isFor_distanceSlot hd0 hdw).extraBits,
      ← List.append_assoc, ← List.append_assoc, ← List.append_assoc]
    exact (wrote_symbol hd ((wrote_symbol hl hw hlt).put _ _)
      (Nat.lt_of_lt_of_le (hlt' _ rfl) hdl)).put _ _

theorem wrote_tokens (hl : Feasible literals) (hd : Feasible distances)
    (hll : literalSymbols ≤ literals.length) (hdl : distanceSymbols ≤ distances.length)
    {tokens : List Token} (h : ∀ token ∈ tokens, token.Within windowSize) (hw : w.Wrote bits) :
    (writeTokens (CodeBook.ofLengths literals) (CodeBook.ofLengths distances) w tokens).Wrote
      (bits ++ Format.Block.body literals distances (tokens.map Token.item)) := by
  have hfold := hw.foldl (writeToken (CodeBook.ofLengths literals) (CodeBook.ofLengths distances))
    (fun token => token.item.bits literals distances) tokens
    fun w bits token hm hw => wrote_token hl hd hll hdl (h token hm) hw
  rw [Format.Block.body, List.flatMap_map, ← List.append_assoc]
  exact wrote_symbol hl hfold (Nat.lt_of_lt_of_le (by decide) hll)

end Items

namespace Tally

variable {t u v : Tally} {token : Token} {tokens : List Token}

structure Within (t u : Tally) : Prop where
  literals_size : u.literals.size = t.literals.size
  distances_size : u.distances.size = t.distances.size
  literals_le : ∀ i, t.literals.toList.getD i 0 ≤ u.literals.toList.getD i 0
  distances_le : ∀ i, t.distances.toList.getD i 0 ≤ u.distances.toList.getD i 0

theorem within_refl (t : Tally) : t.Within t :=
  ⟨rfl, rfl, fun _ => Nat.le_refl _, fun _ => Nat.le_refl _⟩

theorem Within.trans (h : t.Within u) (h' : u.Within v) : t.Within v where
  literals_size := h'.literals_size.trans h.literals_size
  distances_size := h'.distances_size.trans h.distances_size
  literals_le i := (h.literals_le i).trans (h'.literals_le i)
  distances_le i := (h.distances_le i).trans (h'.distances_le i)

theorem getD_le_modify (counts : Array Nat) (i j : Nat) :
    counts.toList.getD j 0 ≤ (counts.modify i (· + 1)).toList.getD j 0 := by
  rw [Array.toList_modify, List.getD_eq_getElem?_getD, List.getD_eq_getElem?_getD,
    List.getElem?_modify]
  cases counts.toList[j]? with
  | none => rfl
  | some n =>
    split
    next => exact Nat.le_succ n
    next => exact Nat.le_refl n

theorem getD_modify_pos {counts : Array Nat} {i : Nat} (h : i < counts.size) :
    0 < (counts.modify i (· + 1)).toList.getD i 0 := by
  rw [Array.toList_modify, List.getD_eq_getElem?_getD, List.getElem?_modify_eq,
    List.getElem?_eq_getElem (by simpa using h)]
  exact Nat.succ_pos _

theorem within_add (t : Tally) (token : Token) : t.Within (t.add token) := by
  obtain ⟨literals, distances, extraBits⟩ := t
  cases token with
  | literal byte =>
    exact ⟨Array.size_modify, rfl, getD_le_modify literals _, fun _ => Nat.le_refl _⟩
  | copy length distance =>
    exact ⟨Array.size_modify, Array.size_modify, getD_le_modify literals _,
      getD_le_modify distances _⟩

theorem within_foldl (t : Tally) (tokens : List Token) : t.Within (tokens.foldl add t) := by
  induction tokens generalizing t with
  | nil => exact within_refl t
  | cons token tokens ih => exact (within_add t token).trans (ih (t.add token))

def Counts (t : Tally) (token : Token) : Prop :=
  0 < t.literals.toList.getD token.item.literalSymbol 0 ∧
    ∀ symbol ∈ token.item.distanceSymbol?, 0 < t.distances.toList.getD symbol 0

theorem Counts.mono (h : t.Counts token) (hu : t.Within u) : u.Counts token :=
  ⟨h.1.trans_le (hu.literals_le _), fun s hs => (h.2 s hs).trans_le (hu.distances_le s)⟩

theorem counts_add (hl : t.literals.size = literalSymbols) (hd : t.distances.size = distanceSymbols)
    (h : token.Within windowSize) : (t.add token).Counts token := by
  have hlt := literalSymbol_lt h
  have hlt' := distanceSymbol_lt h
  rw [← hl] at hlt
  rw [← hd] at hlt'
  obtain ⟨literals, distances, extraBits⟩ := t
  cases token with
  | literal byte =>
    exact ⟨getD_modify_pos hlt, by simp [Token.item, Format.Item.distanceSymbol?]⟩
  | copy length distance =>
    refine ⟨getD_modify_pos hlt, fun s hs => ?_⟩
    have := hlt' s hs
    cases hs
    exact getD_modify_pos this

theorem counts_foldl (hl : t.literals.size = literalSymbols)
    (hd : t.distances.size = distanceSymbols) (h : ∀ token ∈ tokens, token.Within windowSize) :
    ∀ token ∈ tokens, (tokens.foldl add t).Counts token := by
  induction tokens generalizing t with
  | nil => simp
  | cons first tokens ih =>
    have hadd := within_add t first
    intro token hm
    obtain rfl | hm := List.mem_cons.mp hm
    · exact (counts_add hl hd (h token List.mem_cons_self)).mono (within_foldl _ tokens)
    · exact ih (hadd.literals_size.trans hl) (hadd.distances_size.trans hd)
        (fun u hu => h u (List.mem_cons_of_mem _ hu)) token hm

theorem size_empty :
    empty.literals.size = literalSymbols ∧ empty.distances.size = distanceSymbols :=
  ⟨by rw [empty, Array.size_setIfInBounds, Array.size_replicate], Array.size_replicate⟩

theorem endOfBlock_counted (tokens : List Token) :
    0 < (ofTokens tokens).literals.toList.getD endOfBlock 0 := by
  have h : 0 < empty.literals.toList.getD endOfBlock 0 := by
    rw [empty, Array.toList_setIfInBounds, List.getD_eq_getElem?_getD, List.getElem?_set_self]
    · exact Nat.one_pos
    · rw [Array.length_toList, Array.size_replicate]
      decide
  exact h.trans_le ((within_foldl empty tokens).literals_le endOfBlock)

end Tally

end Conduit.Deflate
