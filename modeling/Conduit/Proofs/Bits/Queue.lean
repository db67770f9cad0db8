import Conduit.Proofs.Bits.Strings

namespace Conduit.BitReader

open Bits

/-- The reader is within its buffer and has just these bits to read. -/
def Holds (r : BitReader) (bits : List Bool) : Prop :=
  r.position ≤ 8 * r.buffer.size ∧ r.unread = bits

variable {r : BitReader} {bits : List Bool}

theorem Holds.length (h : r.Holds bits) : bits.length = 8 * r.buffer.size - r.position := by
  rw [← h.2, unread, List.length_drop, length_ofBytes, Array.length_toList]

theorem Holds.available (h : r.Holds bits) : r.available = bits.length :=
  h.length.symm

theorem Holds.untouched (h : r.Holds bits) : r.untouched = bits.length / 8 := by
  have hl := h.length
  have hp := h.1
  rw [BitReader.untouched]
  omega

theorem Holds.position_mod (h : r.Holds bits) :
    (r.position + bits.length) % 8 = 0 := by
  have hl := h.length
  have hp := h.1
  omega

theorem holds_ofBytes (bytes : List UInt8) (n : Nat) (h : n ≤ 8 * bytes.length) :
    Holds ⟨bytes.toArray, n⟩ ((ofBytes bytes).drop n) :=
  ⟨by simpa using h, rfl⟩

theorem holds_empty : empty.Holds [] :=
  ⟨Nat.le_refl _, rfl⟩

theorem exists_holds (bits : List Bool) : ∃ r : BitReader, r.Holds bits := by
  let n := (8 - bits.length % 8) % 8
  have hm : (List.replicate n false ++ bits).length % 8 = 0 := by
    simp only [List.length_append, List.length_replicate, n]
    omega
  obtain ⟨bytes, hb⟩ := exists_ofBytes hm
  have hl := congrArg List.length hb
  simp only [List.length_append, List.length_replicate, length_ofBytes] at hl
  refine ⟨⟨bytes.toArray, n⟩, ?_⟩
  have h := holds_ofBytes bytes n (by omega)
  rwa [← hb, List.drop_left' (by simp)] at h

theorem Holds.push (h : r.Holds bits) (data : List UInt8) :
    (r.push data).Holds (bits ++ ofBytes data) := by
  obtain ⟨hp, rfl⟩ := h
  have hb : (r.push data).buffer.toList = r.buffer.toList ++ data := Array.toList_appendList
  refine ⟨?_, ?_⟩
  · rw [← Array.length_toList, hb, List.length_append, Array.length_toList]
    exact hp.trans (by omega)
  · rw [unread, unread, hb, ofBytes_append]
    exact List.drop_append_of_le_length (by rw [length_ofBytes, Array.length_toList]; exact hp)

theorem Holds.compact (h : r.Holds bits) : r.compact.Holds bits := by
  obtain ⟨hp, rfl⟩ := h
  rw [BitReader.compact]
  split
  · exact ⟨hp, rfl⟩
  · refine ⟨?_, ?_⟩
    · simp only [Array.size_extract]
      omega
    · have hd : r.position = 8 * (r.position / 8) + r.position % 8 := by omega
      simp only [unread, Array.toList_extract, List.extract_eq_take_drop]
      rw [List.take_of_length_le (by simp), ← drop_ofBytes, List.drop_drop, ← hd]

theorem Holds.align (h : r.Holds bits) : r.align.Holds (bits.drop (bits.length % 8)) := by
  have hm := h.position_mod
  obtain ⟨hp, rfl⟩ := h
  refine ⟨?_, ?_⟩
  · simp only [BitReader.align]
    omega
  · simp only [unread, BitReader.align, List.drop_drop] at hm ⊢
    congr 1
    omega

theorem Holds.unpush {data : List UInt8} (h : r.Holds (bits ++ ofBytes data)) :
    (r.unpush data.length).Holds bits := by
  have hl := h.length
  have hp := h.1
  have hu := h.2
  simp only [List.length_append, length_ofBytes] at hl
  have hb : (r.unpush data.length).buffer.toList =
      r.buffer.toList.take (r.buffer.size - data.length) := by
    simp only [BitReader.unpush, Array.take_eq_extract, Array.toList_extract,
      List.extract_eq_take_drop, List.drop_zero, Nat.sub_zero]
  have hs : (r.unpush data.length).buffer.size = r.buffer.size - data.length := by
    simp only [BitReader.unpush, Array.take_eq_extract, Array.size_extract]
    omega
  refine ⟨?_, ?_⟩
  · change r.position ≤ 8 * (r.unpush data.length).buffer.size
    omega
  · have hn : 8 * (r.buffer.size - data.length) - r.position = bits.length := by omega
    change (ofBytes (r.unpush data.length).buffer.toList).drop r.position = bits
    rw [hb, ← take_ofBytes, List.drop_take, hn, ← unread, hu, List.take_left]

theorem bitAt_eq_getElem (buffer : Array UInt8) (i : Nat) (h : i < 8 * buffer.size)
    (hi : i < (ofBytes buffer.toList).length) :
    bitAt buffer i h = (ofBytes buffer.toList)[i].toNat := by
  have hb : i / 8 < buffer.toList.length := by
    rw [Array.length_toList]
    omega
  rw [getElem_ofBytes _ _ _ hb, Array.getElem_toList, Nat.toNat_testBit, bitAt,
    Nat.shiftRight_eq_div_pow]

theorem fieldAt_eq_toNat (buffer : Array UInt8) (i n : Nat) (h : i + n ≤ 8 * buffer.size) :
    fieldAt buffer i n h = Bits.toNat (((ofBytes buffer.toList).drop i).take n) := by
  induction n generalizing i with
  | zero => simp [fieldAt, Bits.toNat]
  | succ n ih =>
    have hi : i < (ofBytes buffer.toList).length := by simp; omega
    rw [fieldAt, bitAt_eq_getElem _ _ _ hi, ih, List.drop_eq_getElem_cons hi, List.take_succ_cons,
      Bits.toNat]

theorem Holds.bits?_eq_some (h : r.Holds bits) {n : Nat} (hn : n ≤ bits.length) :
    ∃ rest, r.bits? n = some (Bits.toNat (bits.take n), rest) ∧ rest.Holds (bits.drop n) := by
  have hl := h.length
  obtain ⟨hp, rfl⟩ := h
  refine ⟨{ r with position := r.position + n }, ?_, ?_, ?_⟩
  · rw [bits?, dif_pos (by omega), fieldAt_eq_toNat, ← unread]
  · simp only
    omega
  · simp only [unread, List.drop_drop]

theorem Holds.bits?_eq_none (h : r.Holds bits) {n : Nat} (hn : bits.length < n) :
    r.bits? n = none := by
  have hl := h.length
  have hp := h.1
  rw [bits?, dif_neg (by omega)]

theorem Holds.copyBytes {data : List UInt8} (h : r.Holds (ofBytes data)) (n : Nat) :
    ∃ rest, r.copyBytes n = (data.take n, rest) ∧ rest.Holds (ofBytes (data.drop n)) := by
  have hl := h.length
  have hm := h.position_mod
  have hp := h.1
  have hu := h.2
  rw [length_ofBytes] at hl hm
  have hd : r.position = 8 * (r.position / 8) := by omega
  have hdata : r.buffer.toList.drop (r.position / 8) = data := by
    apply ofBytes_inj
    rw [← drop_ofBytes, ← hd, ← hu, unread]
  have hc : (r.buffer.extract (r.position / 8) (r.position / 8 + n)).toList = data.take n := by
    rw [Array.toList_extract, List.extract_eq_take_drop, hdata, Nat.add_sub_cancel_left]
  refine ⟨{ r with position := r.position + 8 * (data.take n).length }, ?_, ?_, ?_⟩
  · simp only [BitReader.copyBytes, hc]
  · simp only [List.length_take]
    omega
  · have ht : data.drop (data.take n).length = data.drop n := by
      rw [List.length_take]
      obtain hle | hle := Nat.le_total n data.length
      · rw [Nat.min_eq_left hle]
      · rw [Nat.min_eq_right hle, List.drop_of_length_le hle, List.drop_length]
    rw [← ht, ← drop_ofBytes, ← hu]
    simp only [unread, List.drop_drop]

end Conduit.BitReader
