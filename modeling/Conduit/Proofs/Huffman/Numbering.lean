import Conduit.Huffman.Canonical
import Conduit.Huffman.Table
import Conduit.Proofs.Bits.Writing

namespace Conduit.Huffman

open Bits

/-- How many bit strings of the given width begin with a code, or are one. -/
def spent (lengths : List Nat) (width : Nat) : Nat :=
  (lengths.map fun length => if 0 < length ∧ length ≤ width then 2 ^ (width - length) else 0).sum

def countsFrom (lengths : List Nat) (start n : Nat) : List Nat :=
  (List.range' start n).map fun length => countOf length lengths

theorem lengthCounts_eq (lengths : List Nat) :
    lengthCounts lengths = countsFrom lengths 1 maxLength := rfl

theorem countsFrom_succ (lengths : List Nat) (start n : Nat) :
    countsFrom lengths start (n + 1) =
      countOf start lengths :: countsFrom lengths (start + 1) n := by
  rw [countsFrom, List.range'_succ, List.map_cons, countsFrom]

theorem countOf_cons_self (length : Nat) (lengths : List Nat) :
    countOf length (length :: lengths) = countOf length lengths + 1 :=
  List.count_cons_self

theorem countOf_cons_of_ne {l length : Nat} (h : l ≠ length) (lengths : List Nat) :
    countOf length (l :: lengths) = countOf length lengths :=
  List.count_cons_of_ne h

@[simp] theorem length_countsFrom (lengths : List Nat) (start n : Nat) :
    (countsFrom lengths start n).length = n := by
  simp [countsFrom]

theorem spent_cons (length : Nat) (lengths : List Nat) (width : Nat) :
    spent (length :: lengths) width =
      (if 0 < length ∧ length ≤ width then 2 ^ (width - length) else 0) + spent lengths width := rfl

theorem spent_zero (lengths : List Nat) : spent lengths 0 = 0 := by
  induction lengths with
  | nil => rfl
  | cons length lengths ih => rw [spent_cons, ih, if_neg (by omega)]

theorem spent_succ (lengths : List Nat) (width : Nat) :
    spent lengths (width + 1) = 2 * spent lengths width + countOf (width + 1) lengths := by
  induction lengths with
  | nil => rfl
  | cons length lengths ih =>
    rw [spent_cons, spent_cons, ih, countOf, countOf, List.count_cons]
    by_cases hw : length ≤ width
    · by_cases h0 : 0 < length
      · have hs : width + 1 - length = width - length + 1 := by omega
        rw [if_pos ⟨h0, by omega⟩, if_pos ⟨h0, hw⟩, if_neg (by simp; omega), hs, Nat.pow_succ]
        omega
      · rw [if_neg (by omega), if_neg (by omega), if_neg (by simp; omega)]
        omega
    · by_cases he : length = width + 1
      · subst he
        rw [if_pos ⟨by omega, Nat.le_refl _⟩, if_neg (by omega), if_pos (by simp), Nat.sub_self]
        omega
      · rw [if_neg (by omega), if_neg (by omega), if_neg (by simpa using he)]
        omega

theorem spent_mul_le (lengths : List Nat) (width n : Nat) :
    spent lengths width * 2 ^ n ≤ spent lengths (width + n) := by
  induction n with
  | zero => simp
  | succ n ih =>
    rw [← Nat.add_assoc, spent_succ, Nat.pow_succ]
    calc spent lengths width * (2 ^ n * 2) = 2 * (spent lengths width * 2 ^ n) := by ring
      _ ≤ 2 * spent lengths (width + n) := Nat.mul_le_mul_left 2 ih
      _ ≤ _ := Nat.le_add_right _ _

theorem claimed_eq_spent {lengths : List Nat} (h : ∀ length ∈ lengths, length ≤ maxLength) :
    claimed lengths = spent lengths maxLength := by
  induction lengths with
  | nil => rfl
  | cons length lengths ih =>
    have ih := ih fun l hl => h l (List.mem_cons_of_mem _ hl)
    have hl := h length (by simp)
    rw [spent_cons, ← ih]
    by_cases h0 : 0 < length
    · simp [claimed, h0, hl]
    · simp [claimed, h0]

theorem Feasible.spent_le {lengths : List Nat} (h : Feasible lengths) {width : Nat}
    (hw : width ≤ maxLength) : spent lengths width ≤ 2 ^ width := by
  have hs := spent_mul_le lengths width (maxLength - width)
  have hc := h.2
  rw [claimed_eq_spent h.1] at hc
  rw [Nat.add_sub_cancel' hw] at hs
  have hp : 2 ^ maxLength = 2 ^ width * 2 ^ (maxLength - width) := by
    rw [← Nat.pow_add, Nat.add_sub_cancel' hw]
  exact Nat.le_of_mul_le_mul_right (hp ▸ hs.trans hc) (Nat.two_pow_pos _)

@[simp] theorem length_firstCodes (shorter : Nat) (counts : List Nat) :
    (firstCodes shorter counts).length = counts.length := by
  induction counts generalizing shorter with
  | nil => rfl
  | cons count counts ih => rw [firstCodes, List.length_cons, List.length_cons, ih]

theorem getElem?_firstCodes (lengths : List Nat) (start n k : Nat) (hk : k < n) :
    (firstCodes (spent lengths start) (countsFrom lengths (start + 1) n))[k]? =
      some (2 * spent lengths (start + k)) := by
  induction n generalizing start k with
  | zero => omega
  | succ n ih =>
    rw [countsFrom_succ, firstCodes]
    cases k with
    | zero => rfl
    | succ k =>
      rw [List.getElem?_cons_succ, ← spent_succ, ih (start + 1) k (by omega), Nat.add_right_comm,
        Nat.add_assoc]

theorem getD_firstCodes (lengths : List Nat) {length : Nat} (h0 : 0 < length)
    (h : length ≤ maxLength) :
    (firstCodes 0 (lengthCounts lengths)).toArray.getD (length - 1) 0 =
      2 * spent lengths (length - 1) := by
  have := getElem?_firstCodes lengths 0 maxLength (length - 1) (by omega)
  rw [spent_zero, Nat.zero_add, Nat.zero_add, ← lengthCounts_eq] at this
  rw [Array.getD_eq_getD_getElem?, List.getElem?_toArray, this, Option.getD_some]

theorem sum_comesBefore (lengths : List Nat) (own start symbol : Nat) (h0 : 0 < own) :
    (((lengths.zipIdx start).filter fun (length, s) => comesBefore length s own symbol).map
      fun (length, _) => 2 ^ (own - length)).sum =
      2 * spent lengths (own - 1) + countOf own (lengths.take (symbol - start)) := by
  induction lengths generalizing start with
  | nil => simp [spent, countOf]
  | cons length lengths ih =>
    have ih := ih (start + 1)
    rw [List.zipIdx_cons, List.filter_cons]
    have htake : countOf own ((length :: lengths).take (symbol - start)) =
        countOf own (lengths.take (symbol - (start + 1))) +
          if length = own ∧ start < symbol then 1 else 0 := by
      by_cases hlt : start < symbol
      · have hs : symbol - start = symbol - (start + 1) + 1 := by omega
        rw [hs, List.take_succ_cons, countOf, List.count_cons, countOf]
        simp [hlt]
      · have hs : symbol - start = 0 := by omega
        have hs' : symbol - (start + 1) = 0 := by omega
        simp [hs, hs', hlt]
    rw [htake, spent_cons]
    by_cases h : comesBefore length start own symbol
    · rw [if_pos h, List.map_cons, List.sum_cons, ih]
      dsimp only
      simp only [comesBefore, Bool.and_eq_true, decide_eq_true_eq, Bool.or_eq_true,
        beq_iff_eq] at h
      obtain ⟨hl, h | ⟨rfl, h⟩⟩ := h
      · have hp : own - length = own - 1 - length + 1 := by omega
        rw [if_pos ⟨hl, by omega⟩, if_neg (by omega), hp, Nat.pow_succ]
        omega
      · rw [if_neg (by omega), if_pos ⟨rfl, h⟩, Nat.sub_self]
        omega
    · rw [if_neg h, ih]
      simp only [comesBefore, Bool.and_eq_true, decide_eq_true_eq, Bool.or_eq_true,
        beq_iff_eq] at h
      rw [if_neg (by omega), if_neg (by omega)]
      omega

/-- A code's number: the shorter codes come first, then those before it of its own length. -/
theorem codeNumber_eq {lengths : List Nat} {symbol own : Nat} (hs : lengths[symbol]? = some own)
    (h0 : 0 < own) :
    codeNumber lengths symbol =
      2 * spent lengths (own - 1) + countOf own (lengths.take symbol) := by
  have hd : lengths.getD symbol 0 = own := by rw [List.getD_eq_getElem?_getD, hs, Option.getD_some]
  rw [codeNumber, hd]
  exact sum_comesBefore lengths own 0 symbol h0

theorem countOf_take_lt {lengths : List Nat} {symbol own : Nat} (hs : lengths[symbol]? = some own) :
    countOf own (lengths.take symbol) < countOf own lengths := by
  obtain ⟨hlt, hown⟩ := List.getElem?_eq_some_iff.mp hs
  have hsplit := List.take_append_drop symbol lengths
  rw [List.drop_eq_getElem_cons hlt, hown] at hsplit
  have hcount := congrArg (List.count own) hsplit
  rw [List.count_append, List.count_cons_self] at hcount
  rw [countOf, countOf]
  omega

theorem codeNumber_lt {lengths : List Nat} (h : Feasible lengths) {symbol own : Nat}
    (hs : lengths[symbol]? = some own) (h0 : 0 < own) : codeNumber lengths symbol < 2 ^ own := by
  have hm := h.1 own (List.mem_of_getElem? hs)
  have hle := h.spent_le hm
  have hc := countOf_take_lt hs
  have hsucc := spent_succ lengths (own - 1)
  rw [Nat.sub_add_cancel h0] at hsucc
  rw [codeNumber_eq hs h0]
  omega

theorem free_succ {lengths : List Nat} {width : Nat} (h : spent lengths width ≤ 2 ^ width) :
    2 * (2 ^ width - spent lengths width) - countOf (width + 1) lengths =
      2 ^ (width + 1) - spent lengths (width + 1) := by
  rw [spent_succ, Nat.pow_succ]
  omega

theorem fits_countsFrom (lengths : List Nat) (start n : Nat)
    (h : ∀ k ≤ n, spent lengths (start + k) ≤ 2 ^ (start + k)) :
    fits (2 ^ start - spent lengths start) (countsFrom lengths (start + 1) n) := by
  induction n generalizing start with
  | zero => rfl
  | succ n ih =>
    rw [countsFrom_succ, fits, Bool.and_eq_true, decide_eq_true_eq]
    have h0 := h 0 (Nat.zero_le _)
    have h1 := h 1 (by omega)
    rw [spent_succ, Nat.pow_succ] at h1
    rw [Nat.add_zero] at h0
    refine ⟨by omega, ?_⟩
    rw [free_succ h0]
    apply ih
    intro k hk
    rw [Nat.add_assoc, Nat.add_comm 1 k]
    exact h (k + 1) (by omega)

theorem Feasible.fits {lengths : List Nat} (h : Feasible lengths) :
    fits 1 (lengthCounts lengths) := by
  have := fits_countsFrom lengths 0 maxLength fun k hk => by
    rw [Nat.zero_add]
    exact h.spent_le hk
  rwa [spent_zero] at this

theorem spent_le_of_fits {lengths : List Nat} {start n : Nat} (hs : spent lengths start ≤ 2 ^ start)
    (h : fits (2 ^ start - spent lengths start) (countsFrom lengths (start + 1) n) = true) :
    spent lengths (start + n) ≤ 2 ^ (start + n) := by
  induction n generalizing start with
  | zero => exact hs
  | succ n ih =>
    rw [countsFrom_succ, Huffman.fits, Bool.and_eq_true, decide_eq_true_eq, free_succ hs] at h
    obtain ⟨hcount, hrest⟩ := h
    have hnext : spent lengths (start + 1) ≤ 2 ^ (start + 1) := by
      rw [spent_succ, Nat.pow_succ]
      omega
    have hlast := ih hnext hrest
    rwa [Nat.add_assoc, Nat.add_comm 1] at hlast

theorem feasible_of_fits {lengths : List Nat} (hle : ∀ length ∈ lengths, length ≤ maxLength)
    (h : Huffman.fits 1 (lengthCounts lengths) = true) : Feasible lengths := by
  have hspent : spent lengths (0 + maxLength) ≤ 2 ^ (0 + maxLength) := by
    apply spent_le_of_fits
    · rw [spent_zero]
      exact Nat.zero_le _
    · rwa [spent_zero]
  rw [Nat.zero_add] at hspent
  exact ⟨hle, by rwa [claimed_eq_spent hle]⟩

theorem numbered_countsFrom {lengths : List Nat} (h : Feasible lengths) (start : Nat) {n : Nat}
    (hn : start + n ≤ maxLength) :
    numbered (spent lengths start) (countsFrom lengths (start + 1) n) = true := by
  induction n generalizing start with
  | zero => rfl
  | succ n ih =>
    have hle : spent lengths start ≤ 2 ^ start := h.spent_le (by omega)
    have hnext : spent lengths (start + 1) ≤ 2 ^ (start + 1) := h.spent_le (by omega)
    have hpow : 2 ^ (start + 1) ≤ 2 ^ maxLength := Nat.pow_le_pow_right (by decide) (by omega)
    have hmax : 2 ^ maxLength < UInt16.size := by decide
    have htaken : 2 * spent lengths start % UInt16.size + countOf (start + 1) lengths =
        spent lengths (start + 1) := by
      rw [Nat.pow_succ] at hpow
      rw [Nat.mod_eq_of_lt (by omega), spent_succ]
    rw [countsFrom_succ, numbered, htaken, Bool.and_eq_true, decide_eq_true_eq]
    exact ⟨by omega, ih _ (by omega)⟩

theorem Feasible.reversedCodes?_eq {lengths : List Nat} (h : Feasible lengths) :
    reversedCodes? lengths = some (reversedCodes lengths) := by
  have hnumbered := numbered_countsFrom h 0 (Nat.zero_add maxLength).le
  rw [spent_zero, Nat.zero_add, ← lengthCounts_eq] at hnumbered
  rw [reversedCodes?, hnumbered, Bool.and_true, if_pos]
  exact List.all_eq_true.mpr fun length hl => decide_eq_true (h.1 length hl)

theorem reverseBits_lt (n code : Nat) : reverseBits n code < 2 ^ n := by
  induction n generalizing code with
  | zero => simp [reverseBits]
  | succ n ih =>
    have h := ih (code / 2)
    have hm : (code % 2) <<< n ≤ 1 <<< n := by
      rw [Nat.shiftLeft_eq, Nat.shiftLeft_eq]
      exact Nat.mul_le_mul_right _ (by omega)
    rw [Nat.one_shiftLeft] at hm
    rw [reverseBits, Nat.pow_succ]
    omega

theorem ofNat_reverseBits (n code : Nat) :
    ofNat n (reverseBits n code) = (ofNat n code).reverse := by
  induction n generalizing code with
  | zero => rfl
  | succ n ih =>
    have hlt := reverseBits_lt n (code / 2)
    rw [reverseBits, ofNat_add, ← ofNat_mod n, Nat.shiftLeft_eq, Nat.mul_add_mod_self_right,
      Nat.mod_eq_of_lt hlt, ih, Nat.add_comm, Nat.add_mul_div_right _ _ (Nat.two_pow_pos n),
      Nat.div_eq_of_lt hlt, Nat.zero_add]
    simp [ofNat]

theorem getElem?_assignCodes {next : Array Nat} {lengths : List Nat} {symbol own : Nat}
    (hs : lengths[symbol]? = some own) (h0 : 0 < own) (hn : own ≤ next.size) :
    (assignCodes next lengths)[symbol]? =
      some (reverseBits own (next.getD (own - 1) 0 + countOf own (lengths.take symbol))) := by
  induction lengths generalizing next symbol with
  | nil => simp at hs
  | cons length lengths ih =>
    cases symbol with
    | zero =>
      rw [List.getElem?_cons_zero, Option.some.injEq] at hs
      subst hs
      rw [assignCodes.eq_3 _ _ _ (by omega), List.getElem?_cons_zero]
      simp [countOf]
    | succ symbol =>
      rw [List.getElem?_cons_succ] at hs
      by_cases hl : length = 0
      · subst hl
        rw [assignCodes, List.getElem?_cons_succ, ih hs hn, List.take_succ_cons,
          countOf_cons_of_ne (by omega)]
      · rw [assignCodes.eq_3 _ _ _ hl, List.getElem?_cons_succ, ih hs (by simpa using hn),
          List.take_succ_cons, countOf, countOf, List.count_cons, Array.getD_eq_getD_getElem?,
          Array.getD_eq_getD_getElem?, Array.getElem?_modify]
        by_cases he : length = own
        · subst he
          have hlt : length - 1 < next.size := by omega
          rw [if_pos rfl, if_pos (by simp), Array.getElem?_eq_getElem hlt]
          simp only [Option.map_some, Option.getD_some]
          congr 2
          omega
        · rw [if_neg (by omega), if_neg (by simpa using he), Nat.add_zero]

theorem length_assignCodes (next : Array Nat) (lengths : List Nat) :
    (assignCodes next lengths).length = lengths.length := by
  fun_induction assignCodes next lengths with
  | case1 => rfl
  | case2 _ _ ih => rw [List.length_cons, List.length_cons, ih]
  | case3 _ _ _ _ ih => rw [List.length_cons, List.length_cons, ih]

theorem code_ofLengths {lengths : List Nat} {symbol own : Nat} (hs : lengths[symbol]? = some own) :
    ((CodeBook.ofLengths lengths).code symbol).2 = own ∧
      (reversedCodes lengths)[symbol]? = some ((CodeBook.ofLengths lengths).code symbol).1 := by
  obtain ⟨hlt, rfl⟩ := List.getElem?_eq_some_iff.mp hs
  have hr : symbol < (reversedCodes lengths).length := by
    rw [reversedCodes, length_assignCodes]
    exact hlt
  have hz : ((reversedCodes lengths).zip lengths)[symbol]? =
      some ((reversedCodes lengths)[symbol], lengths[symbol]) := by
    rw [List.getElem?_eq_getElem (by rw [List.length_zip]; omega), List.getElem_zip]
  rw [CodeBook.code, CodeBook.ofLengths, Array.getD_eq_getD_getElem?, List.getElem?_toArray, hz,
    Option.getD_some]
  exact ⟨rfl, List.getElem?_eq_getElem hr⟩

theorem length_codeBits (lengths : List Nat) (symbol : Nat) :
    (codeBits lengths symbol).length = lengths.getD symbol 0 := by
  rw [codeBits, List.length_reverse, length_ofNat]

theorem ofNat_code {lengths : List Nat} {symbol own : Nat} (hs : lengths[symbol]? = some own)
    (hm : own ≤ maxLength) :
    ofNat ((CodeBook.ofLengths lengths).code symbol).2
      ((CodeBook.ofLengths lengths).code symbol).1 = codeBits lengths symbol := by
  obtain ⟨hown, hcode⟩ := code_ofLengths hs
  have hd : lengths.getD symbol 0 = own := by rw [List.getD_eq_getElem?_getD, hs, Option.getD_some]
  rw [codeBits, hd, hown]
  obtain rfl | h0 := Nat.eq_zero_or_pos own
  · rfl
  · have hsize : own ≤ (firstCodes 0 (lengthCounts lengths)).toArray.size := by
      rwa [List.size_toArray, length_firstCodes, lengthCounts_eq, length_countsFrom]
    rw [reversedCodes, getElem?_assignCodes hs h0 hsize, getD_firstCodes lengths h0 hm,
      ← codeNumber_eq hs h0, Option.some.injEq] at hcode
    rw [← hcode, ofNat_reverseBits]

theorem wrote_putSymbol {w : BitWriter} {bits : List Bool} {lengths : List Nat} {symbol own : Nat}
    (h : w.Wrote bits) (hs : lengths[symbol]? = some own) (hm : own ≤ maxLength) :
    (w.put ((CodeBook.ofLengths lengths).code symbol).1
      ((CodeBook.ofLengths lengths).code symbol).2).Wrote (bits ++ codeBits lengths symbol) := by
  rw [← ofNat_code hs hm]
  exact h.put _ _

end Conduit.Huffman
