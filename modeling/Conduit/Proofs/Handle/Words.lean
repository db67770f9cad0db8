import Conduit.Handle.Basic
import Mathlib.Data.Nat.Bitwise
import Mathlib.Algebra.Order.Ring.Nat

namespace Conduit.Handle

variable {h h' : Handle} {i : Nat}

theorem index?_eq_some_iff : h.index? = some i ↔ h.raw.toNat % 2 ^ 32 = i + 1 := by
  have hlow : (h.raw &&& 0xffffffff).toNat = h.raw.toNat % 2 ^ 32 := by
    rw [UInt64.toNat_and]
    exact Nat.and_two_pow_sub_one_eq_mod _ 32
  rw [index?, hlow]
  split
  next hzero =>
    rw [hzero]
    constructor <;> rintro ⟨⟩
  next index hsucc =>
    rw [hsucc, Option.some_inj, Nat.succ_eq_add_one, Nat.add_right_cancel_iff]

theorem index?_lt (hi : h.index? = some i) : i + 1 < 2 ^ 32 := by
  rw [← index?_eq_some_iff.mp hi]
  exact Nat.mod_lt _ (Nat.two_pow_pos 32)

theorem toNat_generation (h : Handle) : h.generation.toNat = h.raw.toNat / 2 ^ 32 := by
  have hlt := h.raw.toNat_lt
  rw [generation, UInt64.toNat_toUInt32, UInt64.toNat_shiftRight, Nat.shiftRight_eq_div_pow]
  change h.raw.toNat / 2 ^ 32 % 2 ^ 32 = h.raw.toNat / 2 ^ 32
  omega

theorem eq_of_halves (hi : h.index? = some i) (hi' : h'.index? = some i)
    (hg : h.generation = h'.generation) : h = h' := by
  have hhigh := congrArg UInt32.toNat hg
  rw [toNat_generation, toNat_generation] at hhigh
  rw [index?_eq_some_iff] at hi hi'
  have hraw : h.raw.toNat = h'.raw.toNat := by omega
  exact congrArg Handle.mk (UInt64.toNat_inj.mp hraw)

theorem toNat_raw_ofSlot (index generation : UInt32) :
    (ofSlot index generation).raw.toNat = generation.toNat <<< 32 ||| (index.toNat + 1) := by
  have hi := index.toNat_lt
  have hg := generation.toNat_lt
  rw [ofSlot, UInt64.toNat_or, UInt64.toNat_shiftLeft, UInt64.toNat_add, UInt32.toNat_toUInt64,
    UInt32.toNat_toUInt64]
  change generation.toNat <<< 32 % 2 ^ 64 ||| (index.toNat + 1) % 2 ^ 64 = _
  rw [Nat.mod_eq_of_lt (by rw [Nat.shiftLeft_eq]; omega), Nat.mod_eq_of_lt (by omega)]

theorem toNat_ofNat (hi : i < 2 ^ 32) : (UInt32.ofNat i).toNat = i :=
  UInt32.toNat_ofNat_of_lt' hi

theorem low_ofSlot (hi : i < 2 ^ 32) (generation : UInt32) :
    (ofSlot (.ofNat i) generation).raw.toNat % 2 ^ 32 = (i + 1) % 2 ^ 32 := by
  have hhigh : generation.toNat <<< 32 % 2 ^ 32 = 0 := by
    rw [Nat.shiftLeft_eq]
    exact Nat.mul_mod_left _ _
  rw [toNat_raw_ofSlot, Nat.or_mod_two_pow, hhigh, Nat.zero_or, toNat_ofNat hi]

theorem index?_ofSlot (hi : i + 1 < 2 ^ 32) (generation : UInt32) :
    (ofSlot (.ofNat i) generation).index? = some i := by
  rw [index?_eq_some_iff, low_ofSlot (Nat.lt_of_succ_lt hi), Nat.mod_eq_of_lt hi]

theorem generation_ofSlot (hi : i + 1 < 2 ^ 32) (generation : UInt32) :
    (ofSlot (.ofNat i) generation).generation = generation := by
  apply UInt32.toNat_inj.mp
  rw [toNat_generation, toNat_raw_ofSlot, toNat_ofNat (Nat.lt_of_succ_lt hi),
    ← Nat.shiftLeft_add_eq_or_of_lt hi, Nat.shiftLeft_eq]
  omega

theorem ofSlot_of_index? (hi : h.index? = some i) : ofSlot (.ofNat i) h.generation = h := by
  have hlt := index?_lt hi
  exact eq_of_halves (index?_ofSlot hlt _) hi (generation_ofSlot hlt _)

theorem eq_of_ofSlot {j : Nat} {generation generation' : UInt32} (hi : i < 2 ^ 32) (hj : j < 2 ^ 32)
    (h : ofSlot (.ofNat i) generation = ofSlot (.ofNat j) generation') : i = j := by
  have hlow := low_ofSlot hi generation
  rw [h, low_ofSlot hj] at hlow
  omega

end Conduit.Handle
