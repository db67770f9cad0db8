import Conduit.Proofs.Bits.Strings

namespace Conduit.BitWriter

open Bits

/-- The writer is in order and these bits wait in it. -/
structure Wrote (w : BitWriter) (bits : List Bool) : Prop where
  taken_le : w.taken ≤ w.bytes.size
  fill_lt : w.fill < 8
  partial_lt : w.partialBits < 2 ^ w.fill
  written_eq : w.written = bits

variable {w : BitWriter} {bits : List Bool}

theorem Wrote.length (h : w.Wrote bits) : bits.length = 8 * w.waiting.length + w.fill := by
  rw [← h.written_eq, written, List.length_append, length_ofBytes, length_ofNat]

theorem Wrote.fill_eq (h : w.Wrote bits) : w.fill = bits.length % 8 := by
  have := h.length
  have := h.fill_lt
  omega

theorem Wrote.waitingCount (h : w.Wrote bits) : w.waitingCount = bits.length / 8 := by
  have := h.length
  have := h.fill_lt
  have hw : w.waiting.length = w.waitingCount := by
    rw [waiting, List.length_drop, Array.length_toList, BitWriter.waitingCount]
  omega

theorem wrote_empty : empty.Wrote [] :=
  ⟨Nat.le_refl _, by decide, by decide, rfl⟩

theorem waiting_push (bytes : Array UInt8) (taken : Nat) (h : taken ≤ bytes.size) (byte : UInt8) :
    (bytes.push byte).toList.drop taken = bytes.toList.drop taken ++ [byte] := by
  rw [Array.toList_push, List.drop_append_of_le_length (by simpa using h)]

theorem wrote_spill (bytes : Array UInt8) (taken bits fill : Nat) (ht : taken ≤ bytes.size)
    (hb : bits < 2 ^ fill) :
    (spill bytes taken bits fill).Wrote (ofBytes (bytes.toList.drop taken) ++ ofNat fill bits) := by
  fun_induction spill bytes taken bits fill with
  | case1 bytes bits fill hf ih =>
    have hs : 2 ^ fill = 2 ^ 8 * 2 ^ (fill - 8) := by
      rw [← Nat.pow_add]
      congr 1
      omega
    have hb' : bits >>> 8 < 2 ^ (fill - 8) := by
      rw [Nat.shiftRight_eq_div_pow]
      exact Nat.div_lt_of_lt_mul (hs ▸ hb)
    have h := ih (by rw [Array.size_push]; omega) hb'
    have hn : ofNat fill bits = ofNat 8 bits ++ ofNat (fill - 8) (bits >>> 8) := by
      rw [Nat.shiftRight_eq_div_pow, ← ofNat_add]
      congr 1
      omega
    rw [waiting_push bytes taken ht, ofBytes_append, ofBytes_singleton, ofNat_uint8,
      List.append_assoc, ← hn] at h
    exact h
  | case2 bytes bits fill hf => exact ⟨ht, Nat.not_le.mp hf, hb, rfl⟩

theorem Wrote.put (h : w.Wrote bits) (value n : Nat) :
    (w.put value n).Wrote (bits ++ ofNat n value) := by
  obtain ⟨ht, hf, hp, rfl⟩ := h
  obtain ⟨bytes, taken, bits, fill⟩ := w
  have hv : value % (1 <<< n) = value % 2 ^ n := by rw [Nat.one_shiftLeft]
  have hlt : value % 2 ^ n < 2 ^ n := Nat.mod_lt _ (Nat.two_pow_pos n)
  have hs : bits + (value % 2 ^ n) <<< fill < 2 ^ (fill + n) := by
    rw [Nat.shiftLeft_eq, Nat.pow_add]
    simp only at hp
    calc bits + value % 2 ^ n * 2 ^ fill < 2 ^ fill + value % 2 ^ n * 2 ^ fill := by omega
      _ = (value % 2 ^ n + 1) * 2 ^ fill := by ring
      _ ≤ 2 ^ n * 2 ^ fill := Nat.mul_le_mul_right _ hlt
      _ = 2 ^ fill * 2 ^ n := Nat.mul_comm _ _
  have hw := wrote_spill bytes taken _ _ ht hs
  have hn : ofNat (fill + n) (bits + (value % 2 ^ n) <<< fill) =
      ofNat fill bits ++ ofNat n value := by
    rw [ofNat_add, ← ofNat_mod fill, Nat.shiftLeft_eq, Nat.add_mul_mod_self_right,
      Nat.mod_eq_of_lt hp, Nat.add_mul_div_right _ _ (Nat.two_pow_pos _), Nat.div_eq_of_lt hp,
      Nat.zero_add, ofNat_mod]
  rw [hn, ← List.append_assoc] at hw
  simp only [BitWriter.put, hv]
  exact hw

theorem Wrote.align (h : w.Wrote bits) : w.align.Wrote (pad bits) := by
  have hl := h.length
  obtain ⟨ht, hf, hp, rfl⟩ := h
  obtain ⟨bytes, taken, bits, fill⟩ := w
  simp only at ht hf hp hl
  simp only [BitWriter.align]
  split
  next h0 =>
    rw [pad_eq_self (by omega)]
    exact ⟨ht, hf, hp, rfl⟩
  next h0 =>
    refine ⟨?_, Nat.zero_lt_succ 7, Nat.zero_lt_one, ?_⟩
    · simp only [Array.size_push]
      omega
    · have hm : (8 - (written ⟨bytes, taken, bits, fill⟩).length % 8) % 8 = 8 - fill := by omega
      have h8 : fill + (8 - fill) = 8 := by omega
      have hz : ofNat 8 bits = ofNat fill bits ++ List.replicate (8 - fill) false := by
        rw [← ofNat_zero_right, ← Nat.div_eq_of_lt hp, ← ofNat_add, h8]
      rw [pad, hm, written, written, waiting, waiting_push bytes taken ht, ofBytes_append,
        ofBytes_singleton, ofNat_uint8, hz, ofNat_zero_left, List.append_nil, waiting,
        List.append_assoc]

theorem Wrote.putBytes (h : w.Wrote bits) (hm : bits.length % 8 = 0) (data : List UInt8) :
    (w.putBytes data).Wrote (bits ++ ofBytes data) := by
  have hf := h.fill_eq
  rw [hm] at hf
  obtain ⟨ht, -, hp, rfl⟩ := h
  obtain ⟨bytes, taken, bits, fill⟩ := w
  simp only at hf ht hp
  subst hf
  have hb : (bytes ++ data).toList = bytes.toList ++ data := Array.toList_appendList
  refine ⟨?_, by simp only [BitWriter.putBytes]; omega, hp, ?_⟩
  · simp only [BitWriter.putBytes]
    rw [← Array.length_toList, hb, List.length_append, Array.length_toList]
    omega
  · simp only [BitWriter.putBytes, written, waiting, hb, ofNat, List.append_nil]
    rw [List.drop_append_of_le_length (by simpa using ht), ofBytes_append]

theorem Wrote.foldl {α : Type} (h : w.Wrote bits) (put : BitWriter → α → BitWriter)
    (f : α → List Bool) (items : List α)
    (hput : ∀ w bits, ∀ a ∈ items, w.Wrote bits → (put w a).Wrote (bits ++ f a)) :
    (items.foldl put w).Wrote (bits ++ items.flatMap f) := by
  induction items generalizing w bits with
  | nil => simpa using h
  | cons a items ih =>
    rw [List.foldl_cons, List.flatMap_cons, ← List.append_assoc]
    apply ih (hput w bits a (by simp) h)
    exact fun w bits b hb => hput w bits b (List.mem_cons_of_mem _ hb)

theorem Wrote.drain (h : w.Wrote bits) (room : Nat) :
    ∃ rest, (w.drain room).1 = w.waiting.take room ∧ (w.drain room).2.Wrote rest ∧
      bits = ofBytes (w.waiting.take room) ++ rest := by
  obtain ⟨ht, hf, hp, rfl⟩ := h
  obtain ⟨bytes, taken, bits, fill⟩ := w
  simp only at ht hf hp
  have hd : bytes.toList.drop (max taken (min (taken + room) bytes.size)) =
      (bytes.toList.drop taken).drop room := by
    rw [List.drop_drop]
    obtain hr | hr := Nat.le_total (taken + room) bytes.size
    · congr 1
      omega
    · rw [List.drop_of_length_le (by simp; omega), List.drop_of_length_le (by simpa using hr)]
  refine ⟨ofBytes ((bytes.toList.drop taken).drop room) ++ ofNat fill bits, ?_, ?_, ?_⟩
  · simp only [BitWriter.drain, waiting, Array.toList_extract, List.extract_eq_take_drop]
    obtain hr | hr := Nat.le_total (taken + room) bytes.size
    · congr 1
      omega
    · rw [List.take_of_length_le (by simp; omega), List.take_of_length_le (by simp; omega)]
  · simp only [BitWriter.drain, release]
    split
    next hs =>
      rw [← hd, List.drop_of_length_le (by simpa using hs)]
      exact ⟨Nat.le_refl _, hf, hp, rfl⟩
    next hs =>
      rw [← hd]
      exact ⟨by simp only; omega, hf, hp, rfl⟩
  · rw [written, waiting, ← List.append_assoc, ← ofBytes_append, List.take_append_drop]

end Conduit.BitWriter
