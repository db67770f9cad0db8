import Conduit.Checksum.Adler
import Conduit.Checksum.Standard
import Mathlib.Tactic.Ring
import Mathlib.Tactic.Linarith

namespace Conduit.Adler

def advance (sums : Nat × Nat) (byte : UInt8) : Nat × Nat :=
  let low := (sums.1 + byte.toNat) % modulus
  (low, (sums.2 + low) % modulus)

def sums (s : Adler) : Nat × Nat :=
  (s.low.toNat, s.high.toNat)

def Reduced (s : Adler) : Prop :=
  s.low.toNat < modulus ∧ s.high.toNat < modulus

theorem ext_sums {s t : Adler} (h : s.sums = t.sums) : s = t := by
  obtain ⟨a, b⟩ := s
  obtain ⟨c, d⟩ := t
  simp only [sums, Prod.mk.injEq, UInt32.toNat_inj] at h
  rw [h.1, h.2]

theorem sums_reduce (s : Adler) :
    s.reduce.sums = (s.low.toNat % modulus, s.high.toNat % modulus) := by
  simp [reduce, sums, modulus]

theorem reduced_reduce (s : Adler) : s.reduce.Reduced := by
  have h := sums_reduce s
  simp only [sums, Prod.mk.injEq] at h
  exact ⟨h.1 ▸ Nat.mod_lt _ (by decide), h.2 ▸ Nat.mod_lt _ (by decide)⟩

theorem reduced_start : start.Reduced := by
  constructor <;> decide

/-- The bounds on both sums after `k` bytes without a reduction. -/
def Within (k : Nat) (s : Adler) : Prop :=
  s.low.toNat ≤ 65520 + 255 * k ∧ 2 * s.high.toNat ≤ 131040 * (k + 1) + 255 * (k * (k + 1))

theorem Reduced.within {s : Adler} (h : s.Reduced) : s.Within 0 := by
  obtain ⟨hl, hh⟩ := h
  simp only [modulus] at hl hh
  constructor <;> omega

theorem toNat_addByte {k : Nat} {s : Adler} (h : s.Within k) (hk : k < runLength) (byte : UInt8) :
    (s.addByte byte).low.toNat = s.low.toNat + byte.toNat ∧
      (s.addByte byte).high.toNat = s.high.toNat + (s.low.toNat + byte.toNat) := by
  obtain ⟨hl, hh⟩ := h
  have hb := byte.toNat_lt
  have hq : k * (k + 1) ≤ 5551 * 5552 := Nat.mul_le_mul (by simp only [runLength] at hk; omega)
    (by simp only [runLength] at hk; omega)
  simp only [runLength] at hk
  have hlow : (s.addByte byte).low.toNat = s.low.toNat + byte.toNat := by
    simp only [addByte, UInt32.toNat_add, UInt8.toNat_toUInt32]
    omega
  refine ⟨hlow, ?_⟩
  rw [← hlow]
  simp only [addByte, UInt32.toNat_add, UInt8.toNat_toUInt32]
  omega

theorem Within.addByte {k : Nat} {s : Adler} (h : s.Within k) (hk : k < runLength) (byte : UInt8) :
    (s.addByte byte).Within (k + 1) := by
  obtain ⟨hl, hh⟩ := toNat_addByte h hk byte
  have hb := byte.toNat_lt
  have hs : (k + 1) * (k + 1 + 1) = k * (k + 1) + 2 * (k + 1) := by ring
  obtain ⟨h1, h2⟩ := h
  refine ⟨?_, ?_⟩
  · omega
  · rw [hh, hs]
    omega

theorem sums_reduce_addByte {k : Nat} {s : Adler} (h : s.Within k) (hk : k < runLength)
    (byte : UInt8) : (s.addByte byte).reduce.sums = advance s.reduce.sums byte := by
  obtain ⟨hl, hh⟩ := toNat_addByte h hk byte
  rw [sums_reduce, sums_reduce, advance, hl, hh]
  simp only [Nat.mod_add_mod, Nat.add_mod_mod]

theorem sums_reduce_foldl {k : Nat} {s : Adler} (h : s.Within k) (run : List UInt8)
    (hk : k + run.length ≤ runLength) :
    (run.foldl Adler.addByte s).reduce.sums = run.foldl advance s.reduce.sums := by
  induction run generalizing k s with
  | nil => rfl
  | cons byte run ih =>
    rw [List.length_cons] at hk
    rw [List.foldl_cons, List.foldl_cons, ih (h.addByte (by omega) byte) (by omega),
      sums_reduce_addByte h (by omega)]

theorem Reduced.sums_reduce {s : Adler} (h : s.Reduced) : s.reduce.sums = s.sums := by
  rw [Adler.sums_reduce, Nat.mod_eq_of_lt h.1, Nat.mod_eq_of_lt h.2, sums]

theorem Reduced.sums_addRun {s : Adler} (h : s.Reduced) (run : List UInt8)
    (hr : run.length ≤ runLength) : (s.addRun run).sums = run.foldl advance s.sums := by
  rw [addRun, sums_reduce_foldl h.within run (by omega), h.sums_reduce]

theorem Reduced.update {s : Adler} (h : s.Reduced) (bytes : List UInt8) :
    (s.update bytes).Reduced := by
  fun_induction Adler.update s bytes with
  | case1 => exact h
  | case2 s byte rest ih => exact ih (reduced_reduce _)

/-- The delayed reductions do not show. -/
theorem Reduced.sums_update {s : Adler} (h : s.Reduced) (bytes : List UInt8) :
    (s.update bytes).sums = bytes.foldl advance s.sums := by
  fun_induction Adler.update s bytes with
  | case1 => rfl
  | case2 s byte rest ih =>
    have hr : (byte :: rest.take (runLength - 1)).length ≤ runLength := by
      simp only [List.length_cons, List.length_take, runLength]
      omega
    rw [ih (reduced_reduce _), h.sums_addRun _ hr, ← List.foldl_append, List.cons_append,
      List.take_append_drop]

theorem Reduced.update_append {s : Adler} (h : s.Reduced) (a b : List UInt8) :
    s.update (a ++ b) = (s.update a).update b := by
  apply ext_sums
  rw [h.sums_update, (h.update a).sums_update, h.sums_update, List.foldl_append]

theorem update_append_start (a b : List UInt8) :
    start.update (a ++ b) = (start.update a).update b :=
  reduced_start.update_append a b

@[simp] theorem update_nil (s : Adler) : s.update [] = s := by
  rw [update]

end Conduit.Adler
