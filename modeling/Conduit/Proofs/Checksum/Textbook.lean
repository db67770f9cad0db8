import Conduit.Proofs.Checksum.Splitting
import Mathlib.Data.List.Induction

namespace Conduit.Adler

theorem byteSum_concat (bytes : List UInt8) (byte : UInt8) :
    byteSum (bytes ++ [byte]) = byteSum bytes + byte.toNat := by
  rw [byteSum, byteSum, List.foldl_append, List.foldl_cons, List.foldl_nil]

theorem prefixSum_concat (bytes : List UInt8) (byte : UInt8) :
    prefixSum (bytes ++ [byte]) = prefixSum bytes + byteSum (bytes ++ [byte]) := by
  have hshort : (List.range bytes.length).map (fun i => byteSum ((bytes ++ [byte]).take (i + 1))) =
      (List.range bytes.length).map fun i => byteSum (bytes.take (i + 1)) := by
    apply List.map_congr_left
    intro i hi
    rw [List.take_append_of_le_length (List.mem_range.mp hi)]
  rw [prefixSum, List.length_append, List.length_singleton, List.range_succ, List.map_append,
    List.sum_append, hshort, prefixSum, List.map_singleton, List.sum_singleton,
    List.take_of_length_le (by simp)]

/-- Both sums with a reduction after every byte are the sums of the whole message, reduced. -/
theorem foldl_advance_start (bytes : List UInt8) :
    bytes.foldl advance start.sums = (byteSum bytes % modulus, prefixSum bytes % modulus) := by
  induction bytes using List.reverseRecOn with
  | nil => rfl
  | append_singleton bytes byte ih =>
    rw [List.foldl_append, ih, List.foldl_cons, List.foldl_nil, advance, prefixSum_concat,
      byteSum_concat]
    simp only [Nat.mod_add_mod, Nat.add_mod_mod]

theorem Reduced.toNat_value {s : Adler} (h : s.Reduced) :
    s.value.toNat = s.high.toNat * 65536 + s.low.toNat := by
  obtain ⟨hlow, hhigh⟩ := h
  simp only [modulus] at hlow hhigh
  have hlow' : s.low.toNat < 2 ^ 16 := by omega
  have hshift : (s.high <<< 16).toNat = s.high.toNat <<< 16 := by
    rw [UInt32.toNat_shiftLeft]
    change (s.high.toNat <<< 16) % 2 ^ 32 = _
    apply Nat.mod_eq_of_lt
    rw [Nat.shiftLeft_eq]
    omega
  rw [value, UInt32.toNat_or, hshift, ← Nat.shiftLeft_add_eq_or_of_lt hlow', Nat.shiftLeft_eq]

theorem value_update_start (bytes : List UInt8) :
    (start.update bytes).value.toNat = checksum bytes := by
  have hsums := reduced_start.sums_update bytes
  rw [foldl_advance_start, sums, Prod.mk.injEq] at hsums
  rw [(reduced_start.update bytes).toNat_value, hsums.1, hsums.2, checksum]

end Conduit.Adler
