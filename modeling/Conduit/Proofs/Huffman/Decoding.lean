import Conduit.Proofs.Bits.Parsing
import Conduit.Proofs.Huffman.Numbering

namespace Conduit.Huffman

open Bits BitParser

namespace Table

def choose (symbols : Array Nat) (code first index : Nat) : Except Flaw Nat :=
  match symbol? symbols code first index with
  | some symbol => .ok symbol
  | none => .error .outOfRange

theorem walk_cons (symbols : Array Nat) (count : Nat) (counts : List Nat) (code first index : Nat) :
    walk symbols (count :: counts) code first index = (do
      let bit ← BitParser.bits 1
      if 2 * code + bit < 2 * first + count then
        ofExcept (choose symbols (2 * code + bit) (2 * first) index)
      else walk symbols counts (2 * code + bit) (2 * first + count) (index + count)) := by
  funext r
  change _ = BitParser.bind _ _ r
  rw [walk, BitParser.bind, BitParser.bits]
  cases r.bits? 1 with
  | none => rfl
  | some read =>
    obtain ⟨bit, rest⟩ := read
    dsimp only
    split
    · rw [choose]
      cases symbol? symbols (2 * code + bit) (2 * first) index <;> rfl
    · rfl

theorem incremental_walk (symbols : Array Nat) (counts : List Nat) (code first index : Nat) :
    Incremental (walk symbols counts code first index) := by
  induction counts generalizing code first index with
  | nil => exact Incremental.refuse Flaw.invalidCode
  | cons count counts ih =>
    rw [walk_cons]
    apply (Incremental.bits 1).bind
    intro bit
    split
    · exact Incremental.ofExcept _
    · exact ih _ _ _

theorem incremental_decode (t : Table) : Incremental t.decode :=
  incremental_walk t.symbols t.counts 0 0 0

/-- The symbols of the table are as many as the counts say, and all satisfy `p`. -/
structure Holds (t : Table) (p : Nat → Prop) : Prop where
  sum_counts : t.counts.sum = t.symbols.size
  symbols : ∀ s ∈ t.symbols, p s

theorem Holds.mono {t : Table} {p q : Nat → Prop} (h : t.Holds p) (hpq : ∀ s, p s → q s) :
    t.Holds q :=
  ⟨h.sum_counts, fun s hs => hpq s (h.symbols s hs)⟩

theorem meets_walk {symbols : Array Nat} {p : Nat → Prop} (hp : ∀ s ∈ symbols, p s)
    (counts : List Nat) (code first index : Nat) (hf : first ≤ code)
    (hs : index + counts.sum ≤ symbols.size) :
    Meets (walk symbols counts code first index) p (· ≠ .outOfRange) := by
  induction counts generalizing code first index with
  | nil => exact Meets.refuse (by decide)
  | cons count counts ih =>
    rw [List.sum_cons] at hs
    rw [walk_cons]
    refine (Meets.bits 1 _).bind fun bit _ => ?_
    split
    next hlt =>
      have hi : index + (2 * code + bit - 2 * first) < symbols.size := by omega
      rw [choose, symbol?, if_pos (by omega), Array.getElem?_eq_getElem hi]
      exact Meets.pure (hp _ (Array.getElem_mem hi))
    next hlt => exact ih _ _ _ (by omega) (by omega)

theorem Holds.meets_decode {t : Table} {p : Nat → Prop} (h : t.Holds p) :
    Meets t.decode p (· ≠ .outOfRange) :=
  meets_walk h.symbols t.counts 0 0 0 (Nat.le_refl 0) (by rw [Nat.zero_add, h.sum_counts])

def ofLength (lengths : List Nat) (start length : Nat) : List Nat :=
  (lengths.zipIdx start).filterMap fun (l, symbol) => if l = length then some symbol else none

theorem ofLength_cons (l : Nat) (lengths : List Nat) (start length : Nat) :
    ofLength (l :: lengths) start length =
      if l = length then start :: ofLength lengths (start + 1) length
      else ofLength lengths (start + 1) length := by
  rw [ofLength, List.zipIdx_cons, List.filterMap_cons]
  by_cases h : l = length <;> simp [h, ofLength]

theorem length_ofLength (lengths : List Nat) (start length : Nat) :
    (ofLength lengths start length).length = countOf length lengths := by
  induction lengths generalizing start with
  | nil => rfl
  | cons l lengths ih =>
    rw [ofLength_cons]
    by_cases h : l = length
    · subst h
      rw [if_pos rfl, List.length_cons, ih, countOf_cons_self]
    · rw [if_neg h, ih, countOf_cons_of_ne h]

theorem lt_of_mem_ofLength {lengths : List Nat} {start length s : Nat}
    (h : s ∈ ofLength lengths start length) : s < start + lengths.length := by
  induction lengths generalizing start with
  | nil => simp [ofLength] at h
  | cons l lengths ih =>
    rw [List.length_cons]
    rw [ofLength_cons] at h
    split at h
    · obtain rfl | h := List.mem_cons.mp h
      · omega
      · have := ih h
        omega
    · have := ih h
      omega

theorem getElem?_ofLength {lengths : List Nat} {start symbol length : Nat}
    (h : lengths[symbol]? = some length) :
    (ofLength lengths start length)[countOf length (lengths.take symbol)]? =
      some (start + symbol) := by
  induction lengths generalizing start symbol with
  | nil => simp at h
  | cons l lengths ih =>
    rw [ofLength_cons]
    cases symbol with
    | zero =>
      rw [List.getElem?_cons_zero, Option.some.injEq] at h
      subst h
      simp [countOf]
    | succ symbol =>
      rw [List.getElem?_cons_succ] at h
      rw [List.take_succ_cons]
      by_cases hl : l = length
      · subst hl
        rw [if_pos rfl, countOf_cons_self, List.getElem?_cons_succ, ih h, Nat.add_right_comm,
          Nat.add_assoc]
      · rw [if_neg hl, countOf_cons_of_ne hl, ih h, Nat.add_right_comm, Nat.add_assoc]

def orderFrom (lengths : List Nat) (start n : Nat) : List Nat :=
  (List.range' start n).flatMap (ofLength lengths 0)

theorem codeOrder_eq (lengths : List Nat) : codeOrder lengths = orderFrom lengths 1 maxLength := rfl

theorem orderFrom_succ (lengths : List Nat) (start n : Nat) :
    orderFrom lengths start (n + 1) =
      ofLength lengths 0 start ++ orderFrom lengths (start + 1) n := by
  rw [orderFrom, List.range'_succ, List.flatMap_cons, orderFrom]

theorem length_orderFrom (lengths : List Nat) (start n : Nat) :
    (orderFrom lengths start n).length = (countsFrom lengths start n).sum := by
  induction n generalizing start with
  | zero => rfl
  | succ n ih =>
    rw [orderFrom_succ, countsFrom_succ, List.length_append, length_ofLength, ih, List.sum_cons]

theorem getElem?_orderFrom {lengths : List Nat} {symbol own : Nat} (start n : Nat)
    (h : lengths[symbol]? = some own) (hs : start ≤ own) (hn : own < start + n) :
    (orderFrom lengths start n)[((countsFrom lengths start n).take (own - start)).sum +
      countOf own (lengths.take symbol)]? = some symbol := by
  induction n generalizing start with
  | zero => omega
  | succ n ih =>
    rw [orderFrom_succ, countsFrom_succ]
    obtain rfl | hlt := Nat.eq_or_lt_of_le hs
    · rw [Nat.sub_self, List.take_zero, List.sum_nil, Nat.zero_add, List.getElem?_append_left,
        getElem?_ofLength h, Nat.zero_add]
      rw [length_ofLength]
      exact countOf_take_lt h
    · have hd : own - start = own - (start + 1) + 1 := by omega
      rw [hd, List.take_succ_cons, List.sum_cons, Nat.add_assoc, ← length_ofLength lengths 0 start,
        List.getElem?_append_right (Nat.le_add_right _ _), Nat.add_sub_cancel_left]
      exact ih (start + 1) hlt (by omega)

theorem holds_of_ofLengths {lengths : List Nat} {t : Table} (h : ofLengths lengths = .ok t) :
    t.Holds (· < lengths.length) := by
  unfold ofLengths at h
  split at h
  · contradiction
  split at h
  · contradiction
  cases h
  constructor
  · rw [lengthCounts_eq, List.size_toArray, codeOrder_eq, length_orderFrom]
  · intro s hs
    rw [List.mem_toArray, codeOrder_eq, orderFrom, List.mem_flatMap] at hs
    obtain ⟨length, -, hs⟩ := hs
    simpa using lt_of_mem_ofLength hs

/-- Short lists of admissible lengths can be counted, whatever they claim. -/
theorem countable_of_le {lengths : List Nat} (h : ∀ length ∈ lengths, length ≤ maxLength)
    (hn : lengths.length < 2 ^ 16) : countable lengths := by
  rw [countable, Bool.and_eq_true, List.all_eq_true, List.all_eq_true]
  refine ⟨fun length hl => by simpa using h length hl, fun length _ => ?_⟩
  rw [decide_eq_true_eq, countOf]
  exact List.count_le_length.trans_lt hn

theorem ofLengths_ne_outOfRange {lengths : List Nat} (h : ∀ length ∈ lengths, length ≤ maxLength)
    (hn : lengths.length < 2 ^ 16) : ofLengths lengths ≠ .error .outOfRange := by
  rw [ofLengths, countable_of_le h hn]
  simp only [Bool.not_true, Bool.false_eq_true, ↓reduceIte]
  split <;> simp

def ofFeasible (lengths : List Nat) : Table :=
  ⟨lengthCounts lengths, (codeOrder lengths).toArray⟩

theorem ofLengths_eq_ok {lengths : List Nat} (h : Feasible lengths) (hn : lengths.length < 2 ^ 16) :
    ofLengths lengths = .ok (ofFeasible lengths) := by
  rw [ofLengths, countable_of_le h.1 hn, h.fits]
  rfl

theorem mul_le_firstCodes {shorter start : Nat} {counts : List Nat} {n : Nat}
    (h : (firstCodes shorter counts)[n]? = some start) : shorter * 2 ^ (n + 1) ≤ start := by
  induction counts generalizing shorter n with
  | nil => simp [firstCodes] at h
  | cons count counts ih =>
    rw [firstCodes] at h
    cases n with
    | zero =>
      rw [List.getElem?_cons_zero, Option.some.injEq] at h
      omega
    | succ n =>
      rw [List.getElem?_cons_succ] at h
      have := ih h
      calc shorter * 2 ^ (n + 1 + 1) = 2 * shorter * 2 ^ (n + 1) := by ring
        _ ≤ (2 * shorter + count) * 2 ^ (n + 1) := Nat.mul_le_mul_right _ (Nat.le_add_right _ _)
        _ ≤ start := this

theorem reverse_ofNat_succ (n value : Nat) :
    (ofNat (n + 1) value).reverse = ofNat 1 (value / 2 ^ n) ++ (ofNat n value).reverse := by
  rw [ofNat_add, List.reverse_append]
  rfl

/-- A code is followed down to its own length and found there. -/
theorem yields_walk {symbols : Array Nat} {counts : List Nat} {code first index n value rank : Nat}
    {symbol start : Nat} {tail : List Bool} (hv : value < 2 ^ (n + 1)) (hf : first ≤ code)
    (hstart : (firstCodes first counts)[n]? = some start)
    (hcode : code * 2 ^ (n + 1) + value = start + rank) (hrank : rank < counts.getD n 0)
    (hsymbol : symbols[index + (counts.take n).sum + rank]? = some symbol) :
    (walk symbols counts code first index).Yields ((ofNat (n + 1) value).reverse ++ tail) symbol
      tail := by
  induction counts generalizing code first index n value with
  | nil => simp [firstCodes] at hstart
  | cons count counts ih =>
    have hbit : value / 2 ^ n < 2 ^ 1 := by
      apply Nat.div_lt_of_lt_mul
      rwa [← Nat.pow_add]
    have hsplit := Nat.div_add_mod value (2 ^ n)
    have hlow := Nat.mod_lt value (Nat.two_pow_pos n)
    -- what is left of the code after its first bit
    have hrest : (2 * code + value / 2 ^ n) * 2 ^ n + value % 2 ^ n = start + rank := by
      rw [← hcode, Nat.pow_succ, Nat.add_mul]
      conv_rhs => rw [← hsplit]
      ring
    rw [walk_cons, reverse_ofNat_succ, List.append_assoc]
    refine (yields_ofNat hbit).bind ?_
    rw [firstCodes] at hstart
    cases n with
    | zero =>
      rw [List.getElem?_cons_zero, Option.some.injEq] at hstart
      rw [List.take_zero, List.sum_nil, Nat.add_zero] at hsymbol
      rw [List.getD_cons_zero] at hrank
      have hmod : value % 2 ^ 0 = 0 := Nat.mod_one value
      rw [hmod, Nat.add_zero, ← hstart, Nat.pow_zero, Nat.mul_one, ← Nat.pow_zero 2] at hrest
      rw [hrest, if_pos (by omega), choose, symbol?, if_pos (by omega), Nat.add_sub_cancel_left,
        hsymbol]
      exact yields_pure symbol tail
    | succ n =>
      rw [List.getElem?_cons_succ] at hstart
      rw [List.take_succ_cons, List.sum_cons, ← Nat.add_assoc] at hsymbol
      have hle := mul_le_firstCodes hstart
      have hge : 2 * first + count ≤ 2 * code + value / 2 ^ (n + 1) := by
        by_contra hlt
        have hmul := Nat.mul_le_mul_right (2 ^ (n + 1)) (Nat.succ_le_of_lt (Nat.not_le.mp hlt))
        rw [Nat.succ_mul] at hmul
        omega
      rw [if_neg (Nat.not_lt.mpr hge), ← ofNat_mod]
      exact ih hlow hge hstart hrest hrank hsymbol

theorem yields_decode {lengths : List Nat} {symbol own : Nat} (h : Feasible lengths)
    (hs : lengths[symbol]? = some own) (h0 : 0 < own) (tail : List Bool) :
    (ofFeasible lengths).decode.Yields (codeBits lengths symbol ++ tail) symbol tail := by
  have hm := h.1 own (List.mem_of_getElem? hs)
  have hd : lengths.getD symbol 0 = own := by rw [List.getD_eq_getElem?_getD, hs, Option.getD_some]
  obtain ⟨n, rfl⟩ : ∃ n, own = n + 1 := ⟨own - 1, by omega⟩
  have hfirst := getElem?_firstCodes lengths 0 maxLength n (by omega)
  rw [spent_zero, Nat.zero_add, Nat.zero_add, ← lengthCounts_eq] at hfirst
  have horder := getElem?_orderFrom 1 maxLength hs (by omega) (by omega)
  rw [Nat.add_sub_cancel, ← lengthCounts_eq, ← codeOrder_eq] at horder
  have hcount : (lengthCounts lengths).getD n 0 = countOf (n + 1) lengths := by
    have hn : n < maxLength := by omega
    simp only [lengthCounts, List.getD_eq_getElem?_getD, List.getElem?_map]
    rw [List.getElem?_range hn, Option.map_some, Option.getD_some]
  rw [codeBits, hd, decode]
  refine yields_walk (codeNumber_lt h hs h0) (Nat.le_refl 0) hfirst ?_ (hcount ▸ countOf_take_lt hs)
    ?_
  · rw [Nat.zero_mul, Nat.zero_add, codeNumber_eq hs h0, Nat.add_sub_cancel]
  · rw [Nat.zero_add, ofFeasible, List.getElem?_toArray, horder]

end Table

end Conduit.Huffman
