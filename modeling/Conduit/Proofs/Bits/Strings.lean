import Conduit.Bits.Packing
import Mathlib.Tactic.Ring

namespace Conduit.Bits

theorem ofNat_add (m n value : Nat) :
    ofNat (m + n) value = ofNat m value ++ ofNat n (value / 2 ^ m) := by
  induction m generalizing value with
  | zero => simp [ofNat]
  | succ m ih =>
    rw [Nat.add_right_comm, ofNat, ofNat, ih, Nat.div_div_eq_div_mul, ← Nat.pow_succ',
      List.cons_append]

theorem length_flatMap_ofNat (n : Nat) (values : List Nat) :
    (values.flatMap (ofNat n)).length = n * values.length := by
  induction values with
  | nil => rfl
  | cons value values ih =>
    rw [List.flatMap_cons, List.length_append, ih, length_ofNat, List.length_cons, Nat.mul_succ,
      Nat.add_comm]

theorem ofNat_mod (n value : Nat) : ofNat n (value % 2 ^ n) = ofNat n value := by
  induction n generalizing value with
  | zero => rfl
  | succ n ih =>
    have hm : value % 2 ^ (n + 1) % 2 = value % 2 := by
      rw [Nat.pow_succ', Nat.mod_mul_right_mod]
    have hd : value % 2 ^ (n + 1) / 2 = value / 2 % 2 ^ n := by
      rw [Nat.pow_succ', Nat.mod_mul_right_div_self]
    rw [ofNat, ofNat, hm, hd, ih]

@[simp] theorem ofNat_zero_left (value : Nat) : ofNat 0 value = [] := rfl

theorem ofNat_zero_right (n : Nat) : ofNat n 0 = List.replicate n false := by
  induction n with
  | zero => rfl
  | succ n ih => rw [ofNat, Nat.zero_div, ih, List.replicate_succ]; rfl

theorem toNat_append (a b : List Bool) : toNat (a ++ b) = toNat a + 2 ^ a.length * toNat b := by
  induction a with
  | nil => simp [toNat]
  | cons bit a ih =>
    rw [List.cons_append, toNat, toNat, ih, List.length_cons, Nat.pow_succ']
    ring

theorem toNat_lt (bits : List Bool) : toNat bits < 2 ^ bits.length := by
  induction bits with
  | nil => simp [toNat]
  | cons bit bits ih =>
    rw [toNat, List.length_cons, Nat.pow_succ']
    have := Bool.toNat_lt bit
    omega

theorem ofNat_toNat (bits : List Bool) : ofNat bits.length (toNat bits) = bits := by
  induction bits with
  | nil => rfl
  | cons bit bits ih =>
    have hd : (bit.toNat + 2 * toNat bits) / 2 = toNat bits := by
      have := Bool.toNat_lt bit
      omega
    rw [List.length_cons, toNat, ofNat, hd, ih]
    cases bit <;> simp

theorem getElem_ofNat (n value i : Nat) (h : i < (ofNat n value).length) :
    (ofNat n value)[i] = value.testBit i := by
  induction n generalizing value i with
  | zero => simp [ofNat] at h
  | succ n ih =>
    cases i with
    | zero =>
      simp only [ofNat, List.getElem_cons_zero, Nat.testBit_zero]
      obtain h | h := Nat.mod_two_eq_zero_or_one value <;> simp [h]
    | succ i =>
      simp only [ofNat, List.getElem_cons_succ]
      rw [ih, Nat.testBit_succ]

theorem toNat_take_ofNat (n value : Nat) (tail : List Bool) :
    toNat ((ofNat n value ++ tail).take n) = value % 2 ^ n := by
  rw [List.take_append_of_le_length (by simp), List.take_of_length_le (by simp), toNat_ofNat]

@[simp] theorem ofBytes_cons (byte : UInt8) (bytes : List UInt8) :
    ofBytes (byte :: bytes) = ofNat 8 byte.toNat ++ ofBytes bytes := rfl

theorem ofBytes_singleton (byte : UInt8) : ofBytes [byte] = ofNat 8 byte.toNat := by simp

theorem ofNat_uint8 (value : Nat) : ofNat 8 (UInt8.ofNat value).toNat = ofNat 8 value := by
  rw [← ofNat_mod 8 value]
  rfl

theorem getElem_ofBytes (bytes : List UInt8) (i : Nat) (h : i < (ofBytes bytes).length)
    (hb : i / 8 < bytes.length) :
    (ofBytes bytes)[i] = bytes[i / 8].toNat.testBit (i % 8) := by
  induction bytes generalizing i with
  | nil => simp at h
  | cons byte bytes ih =>
    by_cases hi : i < 8
    · have hd : i / 8 = 0 := by omega
      have hm : i % 8 = i := by omega
      simp only [ofBytes_cons, hd, hm, List.getElem_cons_zero]
      rw [List.getElem_append_left (by simpa using hi), getElem_ofNat]
    · have hd : i / 8 = (i - 8) / 8 + 1 := by omega
      have hm : i % 8 = (i - 8) % 8 := by omega
      simp only [ofBytes_cons, hd, hm, List.getElem_cons_succ]
      rw [List.getElem_append_right (by simp; omega)]
      simp only [length_ofNat]
      rw [ih]

theorem take_ofBytes (bytes : List UInt8) (n : Nat) :
    (ofBytes bytes).take (8 * n) = ofBytes (bytes.take n) := by
  induction bytes generalizing n with
  | nil => simp
  | cons byte bytes ih =>
    cases n with
    | zero => simp
    | succ n =>
      rw [List.take_succ_cons, ofBytes_cons, ofBytes_cons, ← ih, List.take_append, length_ofNat,
        List.take_of_length_le (by simp)]
      congr 2

theorem drop_ofBytes (bytes : List UInt8) (n : Nat) :
    (ofBytes bytes).drop (8 * n) = ofBytes (bytes.drop n) := by
  have h : (ofBytes bytes).take (8 * n) ++ (ofBytes bytes).drop (8 * n) =
      ofBytes (bytes.take n) ++ ofBytes (bytes.drop n) := by
    rw [List.take_append_drop, ← ofBytes_append, List.take_append_drop]
  rw [take_ofBytes] at h
  exact List.append_cancel_left h

theorem ofNat_inj {n a b : Nat} (ha : a < 2 ^ n) (hb : b < 2 ^ n) (h : ofNat n a = ofNat n b) :
    a = b := by
  have := congrArg toNat h
  rwa [toNat_ofNat, toNat_ofNat, Nat.mod_eq_of_lt ha, Nat.mod_eq_of_lt hb] at this

theorem ofBytes_inj {a b : List UInt8} (h : ofBytes a = ofBytes b) : a = b := by
  have hl := congrArg List.length h
  simp only [length_ofBytes] at hl
  induction a generalizing b with
  | nil => exact (List.length_eq_zero_iff.mp (by simp only [List.length_nil] at hl; omega)).symm
  | cons x a ih =>
    cases b with
    | nil => simp at hl
    | cons y b =>
      rw [ofBytes_cons, ofBytes_cons] at h
      obtain ⟨hx, hr⟩ := List.append_inj h (by simp)
      have hxy := ofNat_inj x.toNat_lt y.toNat_lt hx
      rw [UInt8.toNat_inj.mp hxy, ih hr (by simp at hl; omega)]

theorem exists_ofBytes {bits : List Bool} (h : bits.length % 8 = 0) :
    ∃ bytes, bits = ofBytes bytes := by
  refine ⟨pack bits, ?_⟩
  fun_induction pack bits with
  | case1 => rfl
  | case2 bit rest ih =>
    have hl : 8 ≤ (bit :: rest).length := by simp at h ⊢; omega
    have hd : (rest.drop 7).length % 8 = 0 := by simp at h hl ⊢; omega
    have ht : (bit :: rest.take 7).length = 8 := by simp at hl ⊢; omega
    rw [ofBytes_cons, ← ih hd, ofNat_uint8]
    conv_rhs => rw [← ht, ofNat_toNat]
    simp

theorem pad_eq_self {bits : List Bool} (h : bits.length % 8 = 0) : pad bits = bits := by
  simp [pad, h]

theorem length_pad_mod (bits : List Bool) : (pad bits).length % 8 = 0 := by
  simp only [pad, List.length_append, List.length_replicate]
  omega

theorem exists_fill (bits : List Bool) : ∃ fill, fill.length < 8 ∧ pad bits = bits ++ fill := by
  refine ⟨_, ?_, rfl⟩
  rw [List.length_replicate]
  exact Nat.mod_lt _ (by decide)

theorem pad_ofBytes_append (bytes : List UInt8) (bits : List Bool) :
    pad (ofBytes bytes ++ bits) = ofBytes bytes ++ pad bits := by
  simp only [pad, List.length_append, length_ofBytes, List.append_assoc, Nat.mul_add_mod]

theorem toNat_replicate_false (n : Nat) : toNat (List.replicate n false) = 0 := by
  induction n with
  | zero => rfl
  | succ n ih => rw [List.replicate_succ, toNat, ih]; rfl

theorem ofBytes_pack (bits : List Bool) : ofBytes (pack bits) = pad bits := by
  fun_induction pack bits with
  | case1 => rfl
  | case2 bit rest ih =>
    rw [ofBytes_cons, ih, ofNat_uint8]
    by_cases h : 7 ≤ rest.length
    · have ht : (bit :: rest.take 7).length = 8 := by simp; omega
      have hm : (rest.drop 7).length % 8 = (bit :: rest).length % 8 := by simp; omega
      conv_lhs => rw [← ht, ofNat_toNat]
      simp only [pad, hm, List.cons_append, ← List.append_assoc, List.take_append_drop]
    · have hr : rest.take 7 = rest := List.take_of_length_le (by omega)
      have hn : rest.drop 7 = [] := List.drop_of_length_le (by omega)
      have hv : toNat (bit :: rest) = toNat (pad (bit :: rest)) := by
        rw [pad, toNat_append, toNat_replicate_false, Nat.mul_zero, Nat.add_zero]
      have hl : (pad (bit :: rest)).length = 8 := by
        simp only [pad, List.length_append, List.length_replicate, List.length_cons]
        omega
      rw [hr, hn, hv]
      conv_lhs => rw [← hl, ofNat_toNat]
      simp [pad]

theorem pack_ofBytes_append (bytes : List UInt8) (bits : List Bool) :
    pack (ofBytes bytes ++ bits) = bytes ++ pack bits := by
  apply ofBytes_inj
  rw [ofBytes_pack, pad_ofBytes_append, ofBytes_append, ofBytes_pack]

theorem pack_ofBytes (bytes : List UInt8) : pack (ofBytes bytes) = bytes := by
  have h := pack_ofBytes_append bytes []
  rwa [List.append_nil, pack, List.append_nil] at h

end Conduit.Bits
