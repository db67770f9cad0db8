import Conduit.Cipher.Aes
import Mathlib.Algebra.CharP.Two
import Mathlib.Algebra.Field.ZMod
import Mathlib.Algebra.Polynomial.Coeff
import Mathlib.RingTheory.AdjoinRoot
import Mathlib.Tactic.ComputeDegree
import Mathlib.Tactic.LinearCombination
import Mathlib.Algebra.Order.Ring.Nat

namespace Conduit.Cipher

open Polynomial

/-- The polynomial x⁸ + x⁴ + x³ + x + 1. -/
noncomputable def modulus : (ZMod 2)[X] :=
  X ^ 8 + X ^ 4 + X ^ 3 + X + 1

def coefficient (b : Bool) : ZMod 2 :=
  if b then 1 else 0

noncomputable def polynomialOfBits (n m : Nat) : (ZMod 2)[X] :=
  ∑ i ∈ Finset.range n, C (coefficient (m.testBit i)) * X ^ i

noncomputable def polynomial (a : UInt8) : (ZMod 2)[X] :=
  polynomialOfBits 8 a.toNat

noncomputable def element (a : UInt8) : AdjoinRoot modulus :=
  AdjoinRoot.mk modulus (polynomial a)

theorem coefficient_xor (b c : Bool) : coefficient (b ^^ c) = coefficient b + coefficient c := by
  cases b <;> cases c <;> decide

theorem coefficient_injective {b c : Bool} (h : coefficient b = coefficient c) : b = c := by
  revert h
  cases b <;> cases c <;> decide

theorem coeff_polynomialOfBits {n i : Nat} (m : Nat) (hi : i < n) :
    (polynomialOfBits n m).coeff i = coefficient (m.testBit i) := by
  simp [polynomialOfBits, coeff_X_pow, hi]

theorem polynomialOfBits_succ (n m : Nat) :
    polynomialOfBits (n + 1) m =
      C (coefficient (m.testBit 0)) + X * polynomialOfBits n (m >>> 1) := by
  rw [polynomialOfBits, Finset.sum_range_succ', polynomialOfBits, Finset.mul_sum, add_comm,
    pow_zero, mul_one]
  apply congrArg (C (coefficient (m.testBit 0)) + ·)
  apply Finset.sum_congr rfl
  intro i _
  rw [Nat.testBit_shiftRight, Nat.add_comm 1 i, pow_succ]
  ring

theorem polynomialOfBits_xor (n m m' : Nat) :
    polynomialOfBits n (m ^^^ m') = polynomialOfBits n m + polynomialOfBits n m' := by
  simp only [polynomialOfBits, Nat.testBit_xor, coefficient_xor, C_add, add_mul,
    Finset.sum_add_distrib]

theorem polynomial_xor (a b : UInt8) : polynomial (a ^^^ b) = polynomial a + polynomial b := by
  rw [polynomial, UInt8.toNat_xor, polynomialOfBits_xor, polynomial, polynomial]

theorem polynomial_injective : Function.Injective polynomial := by
  intro a b h
  apply UInt8.toNat_inj.mp
  apply Nat.eq_of_testBit_eq
  intro i
  by_cases hi : i < 8
  · have hcoeff := congrArg (fun p => p.coeff i) h
    rw [polynomial, polynomial, coeff_polynomialOfBits _ hi, coeff_polynomialOfBits _ hi] at hcoeff
    exact coefficient_injective hcoeff
  · have hbound (c : UInt8) : c.toNat < 2 ^ i :=
      Nat.lt_of_lt_of_le c.toNat_lt (Nat.pow_le_pow_right (by decide) (by omega))
    rw [Nat.testBit_lt_two_pow (hbound a), Nat.testBit_lt_two_pow (hbound b)]

theorem degree_polynomial_lt (a : UInt8) : (polynomial a).degree < 8 := by
  rw [polynomial, polynomialOfBits]
  apply (degree_sum_le _ _).trans_lt
  rw [Finset.sup_lt_iff (WithBot.bot_lt_coe 8)]
  intro i hi
  apply (degree_C_mul_X_pow_le i _).trans_lt
  exact_mod_cast Finset.mem_range.mp hi

theorem monic_modulus : modulus.Monic := by
  unfold modulus
  monicity!

theorem degree_modulus : modulus.degree = 8 := by
  unfold modulus
  compute_degree!

theorem element_injective : Function.Injective element := by
  intro a b h
  apply polynomial_injective
  apply sub_eq_zero.mp
  have hdvd : modulus ∣ polynomial a - polynomial b := by
    rw [← AdjoinRoot.mk_eq_zero, map_sub]
    exact sub_eq_zero.mpr h
  apply eq_zero_of_dvd_of_degree_lt hdvd
  rw [degree_modulus]
  exact (degree_sub_le _ _).trans_lt
    (max_lt (degree_polynomial_lt a) (degree_polynomial_lt b))

theorem element_xor (a b : UInt8) : element (a ^^^ b) = element a + element b := by
  rw [element, polynomial_xor, map_add, element, element]

theorem mem_allBytes (a : UInt8) : a ∈ allBytes := by
  rw [allBytes, List.mem_map]
  exact ⟨a.toNat, List.mem_range.mpr a.toNat_lt, UInt8.ofNat_toNat⟩

theorem forall_of_all {p : UInt8 → Prop} [DecidablePred p] (h : allBytes.all (p ·)) (a : UInt8) :
    p a :=
  of_decide_eq_true (List.all_eq_true.mp h a (mem_allBytes a))

/-- The bit that is shifted out comes back where the modulus has its lower coefficients. -/
theorem testBit_double (a : UInt8) :
    (double a).toNat.testBit 0 = a.toNat.testBit 7 ∧
      ∀ i < 7, (double a).toNat.testBit (i + 1) =
        (a.toNat.testBit i ^^ (a.toNat.testBit 7 && Nat.testBit 0x1b (i + 1))) := by
  revert a
  apply forall_of_all
  decide +kernel

theorem two_eq_zero : (2 : (ZMod 2)[X]) = 0 :=
  CharTwo.two_eq_zero

theorem polynomial_double (a : UInt8) :
    polynomial (double a) =
      X * polynomial a + C (coefficient (a.toNat.testBit 7)) * modulus := by
  obtain ⟨hlow, hbits⟩ := testBit_double a
  have h1b : ((0x1b : Nat).testBit 1, (0x1b : Nat).testBit 2, (0x1b : Nat).testBit 3,
      (0x1b : Nat).testBit 4, (0x1b : Nat).testBit 5, (0x1b : Nat).testBit 6,
      (0x1b : Nat).testBit 7) = (true, false, true, true, false, false, false) := by decide
  simp only [Prod.mk.injEq] at h1b
  simp only [polynomial, polynomialOfBits, Finset.sum_range_succ, Finset.sum_range_zero, hlow,
    hbits 0 (by decide), hbits 1 (by decide), hbits 2 (by decide), hbits 3 (by decide),
    hbits 4 (by decide), hbits 5 (by decide), hbits 6 (by decide), Nat.reduceAdd, h1b,
    Bool.and_true, Bool.and_false, Bool.xor_false, coefficient_xor, C_add, modulus]
  linear_combination
    (-C (coefficient (a.toNat.testBit 7)) * X ^ 8) * two_eq_zero

theorem element_double (a : UInt8) :
    element (double a) = AdjoinRoot.root modulus * element a := by
  rw [element, polynomial_double, map_add, map_mul, map_mul, AdjoinRoot.mk_self, mul_zero, add_zero,
    AdjoinRoot.mk_X, element]

theorem element_zero : element 0 = 0 := by
  simp [element, polynomial, polynomialOfBits, coefficient]

theorem element_one : element 1 = 1 := by
  have hbits : polynomial 1 = C (coefficient true) + X * polynomialOfBits 7 0 :=
    polynomialOfBits_succ 7 1
  rw [element, hbits]
  simp [polynomialOfBits, coefficient]

theorem element_two : element 2 = AdjoinRoot.root modulus := by
  have hdouble : double 1 = 2 := by decide
  rw [← hdouble, element_double, element_one, mul_one]

theorem element_mulBits (n : Nat) (a b : UInt8) :
    element (mulBits n a b) = element a * AdjoinRoot.mk modulus (polynomialOfBits n b.toNat) := by
  induction n generalizing a b with
  | zero => simp [mulBits, element_zero, polynomialOfBits]
  | succ n ih =>
    have hodd : b &&& 1 = 1 ↔ b.toNat.testBit 0 = true := by
      rw [← UInt8.toNat_inj, UInt8.toNat_and, Nat.testBit_zero, decide_eq_true_iff]
      exact Nat.and_one_is_mod b.toNat ▸ Iff.rfl
    have hlow : element (if b &&& 1 = 1 then a else 0) =
        AdjoinRoot.mk modulus (C (coefficient (b.toNat.testBit 0))) * element a := by
      by_cases h : b.toNat.testBit 0 = true
      · rw [if_pos (hodd.mpr h), h]
        simp [coefficient]
      · rw [if_neg (mt hodd.mp h), Bool.eq_false_iff.mpr h]
        simp [coefficient, element_zero]
    have hrest : (b >>> 1).toNat = b.toNat >>> 1 := UInt8.toNat_shiftRight b 1
    rw [mulBits, element_xor, hlow, ih, element_double, hrest, polynomialOfBits_succ, map_add,
      map_mul, AdjoinRoot.mk_X]
    ring

theorem element_mul (a b : UInt8) : element (mul a b) = element a * element b :=
  element_mulBits 8 a b

/-- The product of bytes is the product of their polynomials modulo the modulus. -/
theorem polynomial_mul (a b : UInt8) :
    polynomial (mul a b) = (polynomial a * polynomial b) %ₘ modulus := by
  have hdvd : modulus ∣ polynomial (mul a b) - polynomial a * polynomial b := by
    rw [← AdjoinRoot.mk_eq_zero, map_sub, map_mul]
    exact sub_eq_zero.mpr (element_mul a b)
  have hself : polynomial (mul a b) %ₘ modulus = polynomial (mul a b) := by
    rw [modByMonic_eq_self_iff monic_modulus, degree_modulus]
    exact degree_polynomial_lt _
  rw [← hself]
  exact modByMonic_eq_of_dvd_sub monic_modulus hdvd

theorem mul_comm (a b : UInt8) : mul a b = mul b a := by
  apply element_injective
  rw [element_mul, element_mul]
  ring

theorem mul_zero_left (a : UInt8) : mul 0 a = 0 := by
  apply element_injective
  rw [element_mul, element_zero, zero_mul]

theorem mul_one_left (a : UInt8) : mul 1 a = a := by
  apply element_injective
  rw [element_mul, element_one, one_mul]

theorem mul_two_left (a : UInt8) : mul 2 a = double a := by
  apply element_injective
  rw [element_mul, element_two, element_double]

theorem mul_three_left (a : UInt8) : mul 3 a = double a ^^^ a := by
  have hthree : (3 : UInt8) = 2 ^^^ 1 := by decide
  apply element_injective
  rw [element_mul, hthree, element_xor, element_xor, element_two, element_one, element_double,
    add_mul, one_mul]

theorem eq_of_mul_eq_one {a b c : UInt8} (hb : mul a b = 1) (hc : mul a c = 1) : b = c := by
  apply element_injective
  have hb' : element a * element b = 1 := by rw [← element_mul, hb, element_one]
  have hc' : element a * element c = 1 := by rw [← element_mul, hc, element_one]
  linear_combination element c * hb' - element b * hc'

theorem inverse_eq {a b : UInt8} (h : mul a b = 1) : inverse a = b := by
  have hsome : (allBytes.find? fun b => mul a b == 1).isSome := by
    rw [List.find?_isSome]
    exact ⟨b, mem_allBytes b, beq_iff_eq.mpr h⟩
  obtain ⟨c, hc⟩ := Option.isSome_iff_exists.mp hsome
  have hmul : (mul a c == 1) = true := List.find?_some (p := fun b => mul a b == 1) hc
  rw [inverse, hc]
  exact eq_of_mul_eq_one (beq_iff_eq.mp hmul) h

theorem inverse_zero : inverse 0 = 0 := by
  decide +kernel

def undoAffine (a : UInt8) : UInt8 :=
  rotateLeft a 1 ^^^ rotateLeft a 3 ^^^ rotateLeft a 6 ^^^ 0x05

theorem affine_undoAffine (a : UInt8) : affine (undoAffine a) = a := by
  revert a
  apply forall_of_all
  decide +kernel

theorem mem_zip_substitute (a : UInt8) :
    (a, substitute a) ∈ allBytes.zip substitutionTable.toList := by
  have hbytes : a.toNat < allBytes.length := by
    rw [allBytes, List.length_map, List.length_range]
    exact a.toNat_lt
  have htable : a.toNat < substitutionTable.size := by
    have hsize : substitutionTable.size = 256 := by decide +kernel
    rw [hsize]
    exact a.toNat_lt
  apply List.mem_iff_getElem.mpr
  refine ⟨a.toNat, List.length_zip ▸ lt_min hbytes htable, ?_⟩
  rw [List.getElem_zip]
  apply Prod.ext
  · simp [allBytes]
  · rw [substitute, Array.getD, dif_pos htable]
    rfl

/-- The inverse of each byte can be read off the table. -/
theorem mul_undoAffine_substitute {a : UInt8} (h : a ≠ 0) :
    mul a (undoAffine (substitute a)) = 1 := by
  -- the table is walked beside the bytes: looking each one up in it would be slow
  have hall : (allBytes.zip substitutionTable.toList).all
      (fun p => decide (p.1 ≠ 0 → mul p.1 (undoAffine p.2) = 1)) := by decide +kernel
  have hpair := List.all_eq_true.mp hall _ (mem_zip_substitute a)
  simp only [decide_eq_true_iff] at hpair
  exact hpair h

theorem undoAffine_substitute (a : UInt8) : undoAffine (substitute a) = inverse a := by
  by_cases h : a = 0
  · rw [h, inverse_zero]
    decide +kernel
  · exact (inverse_eq (mul_undoAffine_substitute h)).symm

theorem mul_inverse {a : UInt8} (h : a ≠ 0) : mul a (inverse a) = 1 := by
  rw [← undoAffine_substitute, mul_undoAffine_substitute h]

theorem inverse_inverse (a : UInt8) : inverse (inverse a) = a := by
  by_cases h : a = 0
  · rw [h, inverse_zero, inverse_zero]
  · exact inverse_eq (mul_comm _ _ ▸ mul_inverse h)

theorem substitute_eq_substitution (a : UInt8) : substitute a = substitution a := by
  rw [substitution, ← undoAffine_substitute, affine_undoAffine]

theorem substitute_injective : Function.Injective substitute := by
  intro a b h
  rw [← inverse_inverse a, ← undoAffine_substitute a, h, undoAffine_substitute, inverse_inverse]

end Conduit.Cipher
