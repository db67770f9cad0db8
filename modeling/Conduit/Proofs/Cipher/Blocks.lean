import Conduit.Cipher.Standard
import Conduit.Proofs.Cipher.Field
import Conduit.Proofs.Recurrences

namespace Conduit.Cipher

open Polynomial

variable {key : Key}

theorem subBytes_eq (b : Block) : subBytes b = Standard.subBytes b := by
  ext i hi : 1
  rw [subBytes, Standard.subBytes, Vector.getElem_map, Vector.getElem_map,
    substitute_eq_substitution]

theorem shiftRows_eq (b : Block) : shiftRows b = Standard.shiftRows b := by
  ext i hi : 1
  rw [shiftRows, Standard.shiftRows, Standard.ofEntries, Vector.getElem_ofFn, Vector.getElem_ofFn,
    Standard.entry]
  apply getElem_congr_idx
  simp only [Fin.val_add]
  omega

theorem addKey_eq (b k : Block) : addKey b k = Standard.addRoundKey b k := by
  ext i hi : 1
  rw [addKey, Standard.addRoundKey, Standard.ofEntries, Vector.getElem_zipWith, Vector.getElem_ofFn]
  have hplace : i % 4 + 4 * (i / 4) = i := Nat.mod_add_div i 4
  simp only [Standard.entry, hplace]

theorem below_add_four (b : Block) (i : Fin 16) (k : Nat) : below b i (k + 4) = below b i k := by
  apply getElem_congr_idx
  omega

theorem below_zero (b : Block) (i : Fin 16) : below b i 0 = b[i] := by
  apply getElem_congr_idx
  omega

theorem entry_eq_below (b : Block) (i : Fin 16) (k : Nat) {row column : Fin 4}
    (hr : row.val = (i.val + k) % 4) (hc : column.val = i.val / 4) :
    Standard.entry b row column = below b i k := by
  apply getElem_congr_idx
  omega

theorem two_eq_zero_mod : (2 : AdjoinRoot modulus) = 0 := by
  rw [← map_ofNat (AdjoinRoot.mk modulus) 2, two_eq_zero, map_zero]

/-- A column is multiplied by the polynomial 3x³ + x² + x + 2. -/
theorem element_below_mixColumns (b : Block) (i : Fin 16) (k : Nat) :
    element (below (mixColumns b) i k) =
      AdjoinRoot.root modulus * element (below b i k) +
        (AdjoinRoot.root modulus + 1) * element (below b i (k + 1)) +
        element (below b i (k + 2)) + element (below b i (k + 3)) := by
  have hbelow (n : Nat) : below b ⟨i.val / 4 * 4 + (i.val + k) % 4, by omega⟩ n =
      below b i (k + n) := by
    apply getElem_congr_idx
    dsimp only
    omega
  rw [below, mixColumns, Vector.getElem_ofFn]
  simp only [hbelow, element_xor, element_double, Nat.add_zero]
  linear_combination element (below b i k) * two_eq_zero_mod

theorem mixColumns_eq (b : Block) : mixColumns b = Standard.mixColumns b := by
  ext i hi : 1
  apply element_injective
  have hrows : ∀ row : Fin 4, (row - 1).val = (row.val + 3) % 4 ∧
      (row - 2).val = (row.val + 2) % 4 ∧ (row - 3).val = (row.val + 1) % 4 := by decide
  obtain ⟨h1, h2, h3⟩ := hrows ⟨i % 4, Nat.mod_lt _ (by decide)⟩
  have hcolumn := element_below_mixColumns b ⟨i, hi⟩ 0
  rw [below_zero] at hcolumn
  obtain ⟨hm0, hm1, hm2, hm3⟩ : Standard.mixer.get 0 = 2 ∧ Standard.mixer.get 1 = 1 ∧
      Standard.mixer.get 2 = 1 ∧ Standard.mixer.get 3 = 3 := ⟨rfl, rfl, rfl, rfl⟩
  rw [Standard.mixColumns, Standard.ofEntries, Vector.getElem_ofFn,
    entry_eq_below b ⟨i, hi⟩ 0 rfl rfl, entry_eq_below b ⟨i, hi⟩ 3 (by rw [h1]; simp) rfl,
    entry_eq_below b ⟨i, hi⟩ 2 (by rw [h2]; simp) rfl,
    entry_eq_below b ⟨i, hi⟩ 1 (by rw [h3]; simp) rfl]
  refine hcolumn.trans ?_
  simp only [hm0, hm1, hm2, hm3, mul_one_left, mul_two_left, mul_three_left, element_xor,
    element_double, Nat.zero_add]
  ring

/-- The byte that a mixed column comes from: the column is multiplied by 11x³ + 13x² + 9x + 14. -/
noncomputable def unmixed (b : Block) (i : Fin 16) : AdjoinRoot modulus :=
  let r := AdjoinRoot.root modulus
  (r ^ 3 + r ^ 2 + r) * element (below b i 0) + (r ^ 3 + r + 1) * element (below b i 1) +
    (r ^ 3 + r ^ 2 + 1) * element (below b i 2) + (r ^ 3 + 1) * element (below b i 3)

theorem unmixed_mixColumns (b : Block) (i : Fin 16) :
    unmixed (mixColumns b) i = element b[i] := by
  have hround (k : Nat) : below b i (k + 4) = below b i k := below_add_four b i k
  rw [← below_zero]
  simp only [unmixed, element_below_mixColumns, Nat.reduceAdd, hround 0, hround 1, hround 2]
  generalize AdjoinRoot.root modulus = r
  -- all but the byte itself is there an even number of times
  linear_combination
    ((r ^ 4 + 2 * r ^ 3 + r ^ 2 + r + 1) * element (below b i 0) +
      (r ^ 4 + 2 * r ^ 3 + 2 * r ^ 2 + r + 1) * element (below b i 1) +
      (r ^ 4 + 2 * r ^ 3 + r ^ 2 + 2 * r + 1) * element (below b i 2) +
      (r ^ 4 + 2 * r ^ 3 + r ^ 2 + 2 * r + 1) * element (below b i 3)) * two_eq_zero_mod

theorem mixColumns_injective : Function.Injective mixColumns := by
  intro b b' h
  ext i hi : 1
  apply element_injective
  have hb := unmixed_mixColumns b ⟨i, hi⟩
  rw [h, unmixed_mixColumns b' ⟨i, hi⟩] at hb
  exact hb.symm

theorem subBytes_injective : Function.Injective subBytes := by
  intro b b' h
  ext i hi : 1
  have hi' := congrArg (fun d : Block => d[i]) h
  simp only [subBytes, Vector.getElem_map] at hi'
  exact substitute_injective hi'

theorem shiftRows_injective : Function.Injective shiftRows := by
  intro b b' h
  ext i hi : 1
  -- the place to which byte `i` is moved
  have hplace : (((i + 12 * (i % 4)) % 16) + 4 * (((i + 12 * (i % 4)) % 16) % 4)) % 16 = i := by
    omega
  have hi' := congrArg (fun d : Block => d[(i + 12 * (i % 4)) % 16]) h
  simp only [shiftRows, Vector.getElem_ofFn, hplace] at hi'
  exact hi'

theorem addKey_injective (k : Block) : Function.Injective (addKey · k) := by
  intro b b' h
  ext i hi : 1
  have hi' := congrArg (fun d : Block => d[i]) h
  simp only [addKey, Vector.getElem_zipWith] at hi'
  exact (UInt8.xor_left_inj _).mp hi'

theorem round_injective (k : Block) : Function.Injective (round · k) :=
  (addKey_injective k).comp
    (mixColumns_injective.comp (shiftRows_injective.comp subBytes_injective))

theorem lastRound_injective (k : Block) : Function.Injective (lastRound · k) :=
  (addKey_injective k).comp (shiftRows_injective.comp subBytes_injective)

theorem foldl_round_injective (ks : List Block) : Function.Injective (ks.foldl round ·) := by
  induction ks with
  | nil => exact Function.injective_id
  | cons k ks ih => exact ih.comp (round_injective k)

theorem encrypt_injective (keys : Schedule) : Function.Injective keys.encrypt :=
  (lastRound_injective _).comp ((foldl_round_injective _).comp (addKey_injective _))

theorem roundConstant_eq {n : Nat} (h : n + 1 < 8) : roundConstant (n + 1) = Standard.power n := by
  have hall : ∀ n < 7, roundConstant (n + 1) = Standard.power n := by decide +kernel
  exact hall n (by omega)

theorem map_substitute (w : Word) : w.map substitute = Standard.subWord w := by
  ext i hi : 1
  rw [Standard.subWord, Vector.getElem_map, Vector.getElem_map, substitute_eq_substitution]

theorem rotateWord_eq (w : Word) : rotateWord w = Standard.rotWord w := by
  ext i hi : 1
  match i with
  | 0 | 1 | 2 | 3 => rfl

theorem expansionTerm_eq {i : Nat} (h8 : 8 ≤ i) (h60 : i < 60) (last : Word) :
    expansionTerm i last =
      if i % 8 = 0 then
        Standard.addWords (Standard.subWord (Standard.rotWord last))
          #v[Standard.power (i / 8 - 1), 0, 0, 0]
      else if i % 8 = 4 then Standard.subWord last
      else last := by
  have hconstant : roundConstant (i / 8) = Standard.power (i / 8 - 1) := by
    obtain ⟨n, hn⟩ := Nat.exists_eq_add_of_le' (show 1 ≤ i / 8 by omega)
    rw [hn, roundConstant_eq (by omega), Nat.add_sub_cancel]
  rw [expansionTerm]
  simp only [hconstant, map_substitute, rotateWord_eq]
  split
  · ext j hj : 1
    rw [Standard.addWords, Vector.getElem_zipWith]
    match j with
    | 0 => rfl
    | 1 | 2 | 3 => simp
  · rfl

theorem keyWord_of_le {i : Nat} (h : 8 ≤ i) (h60 : i < 60) :
    Standard.keyWord key i = (Standard.keyWord key (i - 8)).zipWith (· ^^^ ·)
      (expansionTerm i (Standard.keyWord key (i - 1))) := by
  rw [Standard.keyWord, dif_neg (by omega), expansionTerm_eq h h60]
  rfl

theorem begins_start (key : Key) :
    Begins (Standard.keyWord key) zeroWord (Array.ofFn (keyWord key)) := by
  intro i hi
  rw [Array.size_ofFn] at hi
  rw [Standard.keyWord, dif_pos hi]
  simp [Array.getD, hi, keyWord]

theorem extendKey_spec {n : Nat} {words : Array Word}
    (h : Begins (Standard.keyWord key) zeroWord words) (h8 : 8 ≤ words.size)
    (h60 : words.size + n ≤ 60) :
    (extendKey n words).size = words.size + n ∧
      Begins (Standard.keyWord key) zeroWord (extendKey n words) := by
  induction n generalizing words with
  | zero => exact ⟨rfl, h⟩
  | succ n ih =>
    rw [extendKey, h _ (by omega), h _ (by omega), ← keyWord_of_le h8 (by omega)]
    obtain ⟨hsize, hbegins⟩ := ih (h.push rfl) (by rw [Array.size_push]; omega)
      (by rw [Array.size_push]; omega)
    rw [Array.size_push] at hsize
    exact ⟨by omega, hbegins⟩

theorem getElem_ofKey (key : Key) {n : Nat} (hn : n < 15) :
    (Schedule.ofKey key)[n] = Standard.roundKey key n := by
  obtain ⟨hsize, hwords⟩ := extendKey_spec (n := 52) (begins_start key) (by rw [Array.size_ofFn])
    (by rw [Array.size_ofFn])
  rw [Array.size_ofFn] at hsize
  ext i hi : 1
  rw [Schedule.ofKey, Standard.roundKey, Standard.ofEntries]
  simp only [Vector.getElem_ofFn]
  rw [hwords _ (by omega)]

theorem foldl_round_eq (key : Key) (b : Block) {n : Nat} (hn : n < 14) :
    (((Schedule.ofKey key).toList.drop 1).take n).foldl round
      (addKey b (Standard.roundKey key 0)) = Standard.afterRounds key b n := by
  induction n with
  | zero => rw [List.take_zero, List.foldl_nil, Standard.afterRounds, addKey_eq]
  | succ n ih =>
    have hlength : n < ((Schedule.ofKey key).toList.drop 1).length := by
      rw [List.length_drop, Vector.length_toList]
      omega
    rw [List.take_succ_eq_append_getElem hlength, List.foldl_append, ih (by omega)]
    simp only [List.getElem_drop, Vector.getElem_toList, Nat.add_comm 1 n, List.foldl_cons,
      List.foldl_nil]
    rw [getElem_ofKey key (by omega), round, subBytes_eq, shiftRows_eq, mixColumns_eq, addKey_eq,
      Standard.afterRounds]

theorem encrypt_eq_standard (key : Key) (b : Block) :
    (Schedule.ofKey key).encrypt b = Standard.encrypt key b := by
  rw [Schedule.encrypt, getElem_ofKey key (by decide), getElem_ofKey key (by decide),
    ← List.drop_one, List.drop_take, foldl_round_eq key b (by decide), lastRound, subBytes_eq,
    shiftRows_eq, addKey_eq, Standard.encrypt]

/-- The cipher by tables is AES-256 in its algebraic form, and it takes different blocks to
different blocks. In that form the product of bytes is that of polynomials modulo x⁸ + x⁴ + x³ + x +
1, and the byte substitution starts from the inverse. -/
theorem encrypts_as_standard (key : Key) :
    (∀ b, (Schedule.ofKey key).encrypt b = Standard.encrypt key b) ∧
      Function.Injective (Schedule.ofKey key).encrypt ∧
      (∀ a b, polynomial (mul a b) = (polynomial a * polynomial b) %ₘ modulus) ∧
      (∀ a, mul a (inverse a) = if a = 0 then 0 else 1) ∧ inverse 0 = 0 := by
  refine ⟨encrypt_eq_standard key, encrypt_injective _, polynomial_mul, fun a => ?_, inverse_zero⟩
  split
  next h => rw [h, inverse_zero, mul_zero_left]
  next h => exact mul_inverse h

end Conduit.Cipher
