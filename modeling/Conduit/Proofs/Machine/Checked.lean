import Conduit.Bits.Checked
import Conduit.Bits.Parser
import Conduit.Proofs.Bits.Parsing

namespace Conduit.Machine

def word? (n : Nat) : Option Nat :=
  if n < 2 ^ 16 then some n else none

def add? (a b : UInt32) : Option UInt32 :=
  if a.toNat + b.toNat < 2 ^ 32 then some (a + b) else none

def put? {α : Type} (a : Array α) (i : Nat) (x : α) : Option (Array α) :=
  if i < a.size then some (a.setIfInBounds i x) else none

@[simp] theorem sub?_of_le {a b : Nat} (h : b ≤ a) : sub? a b = some (a - b) := if_pos h

@[simp] theorem word?_of_lt {n : Nat} (h : n < 2 ^ 16) : word? n = some n := if_pos h

@[simp] theorem add?_of_lt {a b : UInt32} (h : a.toNat + b.toNat < 2 ^ 32) :
    add? a b = some (a + b) := if_pos h

theorem toNat_add_of_lt {a b : UInt32} (h : a.toNat + b.toNat < 2 ^ 32) :
    (a + b).toNat = a.toNat + b.toNat := by
  rw [UInt32.toNat_add, Nat.mod_eq_of_lt h]

@[simp] theorem put?_of_lt {α : Type} {a : Array α} {i : Nat} (x : α) (h : i < a.size) :
    put? a i x = some (a.setIfInBounds i x) := if_pos h

end Machine

namespace BitReader

/-- Gathers a field of `n` bits piece by piece, a piece lying within one byte. The `got` bits that
are there already make up `value`. -/
def gather? (buffer : Array UInt8) (n position got value : Nat) : Option (Nat × Nat) :=
  if got < n then
    match buffer[position / 8]? with
    | none => none
    | some byte =>
      let piece := min (8 - position % 8) (n - got)
      let bits := byte.toNat >>> (position % 8) % 2 ^ piece
      gather? buffer n (position + piece) (got + piece) (value + bits <<< got)
  else some (value, position)
termination_by n - got

variable {r : BitReader} {bits : List Bool}

theorem Holds.within (h : r.Holds bits) : r.Within :=
  h.1

theorem Within.holds (h : r.Within) : r.Holds r.unread :=
  ⟨h, rfl⟩

theorem within?_eq_some (h : r.Within) : r.within? = some r := if_pos h

theorem Within.available? (h : r.Within) : r.available? = some r.available :=
  Machine.sub?_of_le h

theorem Within.untouched? (h : r.Within) : r.untouched? = some r.untouched := by
  apply Machine.sub?_of_le
  rw [Within] at h
  omega

theorem Within.push? (h : r.Within) (data : List UInt8) : r.push? data = some (r.push data) :=
  within?_eq_some (h.holds.push data).within

theorem Within.compact? (h : r.Within) : r.compact? = some r.compact := by
  have hle : r.position / 8 ≤ r.buffer.size := by
    rw [Within] at h
    omega
  rw [BitReader.compact?, if_pos hle]
  exact within?_eq_some h.holds.compact.within

theorem position_compact_mod (r : BitReader) : r.compact.position % 8 = r.position % 8 := by
  rw [compact]
  split
  · rfl
  · exact Nat.mod_mod _ _

theorem Within.align? (h : r.Within) : r.align? = some r.align :=
  within?_eq_some h.holds.align.within

theorem Within.rewind? (h : r.Within) {s : BitReader} (hs : s.buffer = r.buffer) :
    s.rewind? r.position = some r := by
  rw [BitReader.rewind?, BitReader.rewind, hs]
  exact within?_eq_some h

theorem Within.unpush? (h : r.Within) {n : Nat} (hn : n ≤ r.untouched) :
    r.unpush? n = some (r.unpush n) ∧ (r.unpush n).Within := by
  have hw : (r.unpush n).Within := by
    simp only [Within, BitReader.untouched, unpush, Array.take_eq_extract, Array.size_extract]
      at h hn ⊢
    omega
  refine ⟨?_, hw⟩
  rw [BitReader.unpush?, h.untouched?, Option.bind_eq_bind, Option.bind_some, if_pos hn,
    within?_eq_some hw]

theorem copyBytes_min (r : BitReader) (n : Nat) :
    r.copyBytes (min n (r.buffer.size - r.position / 8)) = r.copyBytes n := by
  have hout : r.buffer.extract (r.position / 8)
      (r.position / 8 + min n (r.buffer.size - r.position / 8)) =
      r.buffer.extract (r.position / 8) (r.position / 8 + n) := by
    apply Array.ext
    · simp only [Array.size_extract]
      omega
    · intro i _ _
      simp only [Array.getElem_extract]
  simp only [copyBytes, hout]

theorem length_copyBytes_le (r : BitReader) (n : Nat) : (r.copyBytes n).1.length ≤ n := by
  simp only [copyBytes, Array.length_toList, Array.size_extract]
  omega

theorem Within.copy? (h : r.Within) (ha : r.position % 8 = 0) (n : Nat) :
    r.copy? n = some (r.copyBytes n) ∧ (r.copyBytes n).2.Within ∧
      (r.copyBytes n).2.position % 8 = 0 ∧ (r.copyBytes n).2.buffer = r.buffer := by
  have hw : (r.copyBytes n).2.Within := by
    simp only [Within, copyBytes, Array.length_toList, Array.size_extract] at h ⊢
    omega
  have hsub : Machine.sub? r.buffer.size (r.position / 8) =
      some (r.buffer.size - r.position / 8) := by
    apply Machine.sub?_of_le
    rw [Within] at h
    omega
  refine ⟨?_, hw, ?_, rfl⟩
  · rw [BitReader.copy?, if_pos ha, hsub]
    simp only [Option.bind_eq_bind, Option.bind_some, copyBytes_min, within?_eq_some hw]
    rfl
  · simp only [copyBytes]
    omega

section Gather

theorem Holds.skip (h : r.Holds bits) {n : Nat} (hn : n ≤ bits.length) :
    Holds ⟨r.buffer, r.position + n⟩ (bits.drop n) := by
  have hl := h.length
  have hp := h.1
  refine ⟨?_, ?_⟩
  · dsimp only
    omega
  · rw [← h.2, unread, unread, List.drop_drop]

/-- Within one buffer the place of a reader follows from what is left to read. -/
theorem Holds.eq_skip {r' : BitReader} {rest : List Bool} (h : r.Holds (bits ++ rest))
    (h' : r'.Holds rest) (hb : r'.buffer = r.buffer) :
    r' = ⟨r.buffer, r.position + bits.length⟩ := by
  obtain ⟨buffer, position⟩ := r'
  have hl := h.length
  have hl' := h'.length
  have hp := h.1
  have hp' := h'.1
  rw [List.length_append] at hl
  dsimp only at hb hl' hp'
  subst hb
  congr 1
  omega

theorem Holds.toNat_take (h : r.Holds bits) {byte : UInt8} {k : Nat}
    (hb : r.buffer[r.position / 8]? = some byte) (hk : r.position % 8 + k ≤ 8) :
    Bits.toNat (bits.take k) = byte.toNat >>> (r.position % 8) % 2 ^ k := by
  obtain ⟨hlt, hbyte⟩ := Array.getElem?_eq_some_iff.mp hb
  have hbytes : r.buffer.toList.drop (r.position / 8) =
      byte :: r.buffer.toList.drop (r.position / 8 + 1) := by
    rw [List.drop_eq_getElem_cons (by simpa using hlt), Array.getElem_toList, hbyte]
  have hposition : r.position = 8 * (r.position / 8) + r.position % 8 := by omega
  obtain ⟨more, hmore⟩ : ∃ more, 8 = r.position % 8 + (k + more) :=
    ⟨8 - r.position % 8 - k, by omega⟩
  have hnumber : Bits.ofNat 8 byte.toNat = Bits.ofNat (r.position % 8) byte.toNat ++
      (Bits.ofNat k (byte.toNat >>> (r.position % 8)) ++
        Bits.ofNat more (byte.toNat >>> (r.position % 8) / 2 ^ k)) := by
    rw [← Bits.ofNat_add, Nat.shiftRight_eq_div_pow, ← Bits.ofNat_add, ← hmore]
  have hbits : bits = Bits.ofNat k (byte.toNat >>> (r.position % 8)) ++
      (Bits.ofNat more (byte.toNat >>> (r.position % 8) / 2 ^ k) ++
        Bits.ofBytes (r.buffer.toList.drop (r.position / 8 + 1))) := by
    rw [← h.2, unread]
    conv_lhs => rw [hposition]
    rw [← List.drop_drop, Bits.drop_ofBytes, hbytes, Bits.ofBytes_cons, hnumber, List.append_assoc,
      List.drop_left' (Bits.length_ofNat _ _), List.append_assoc]
  rw [hbits, Bits.toNat_take_ofNat]

theorem gather?_eq_some {buffer : Array UInt8} {n position got value : Nat}
    (h : Holds ⟨buffer, position⟩ bits) (hg : got ≤ n) (hn : n - got ≤ bits.length) :
    gather? buffer n position got value =
      some (value + Bits.toNat (bits.take (n - got)) * 2 ^ got, position + (n - got)) := by
  induction hm : n - got using Nat.strong_induction_on generalizing position got value bits with
  | _ m ih =>
    have hl := h.length
    rw [gather?]
    split
    next hlt =>
      have hi : position / 8 < buffer.size := by
        simp only at hl
        omega
      have hbyte := Array.getElem?_eq_getElem hi
      rw [hbyte]
      dsimp only
      obtain ⟨piece, hpiece⟩ : ∃ piece, piece = min (8 - position % 8) (n - got) := ⟨_, rfl⟩
      rw [← hpiece]
      have hle : piece ≤ bits.length := by omega
      have hnext := h.skip hle
      have hvalue := h.toNat_take (k := piece) hbyte (by dsimp only; omega)
      have hsplit : bits.take m = bits.take piece ++ (bits.drop piece).take (m - piece) := by
        rw [← List.take_add]
        congr 1
        omega
      rw [ih (n - (got + piece)) (by omega) hnext (by omega)
        (by rw [List.length_drop]; omega) rfl, ← hvalue]
      have hrest : n - (got + piece) = m - piece := by omega
      have hend : position + piece + (m - piece) = position + m := by omega
      have hlen : (bits.take piece).length = piece := List.length_take_of_le hle
      rw [hrest, hend, hsplit, Bits.toNat_append, hlen, Nat.shiftLeft_eq, Nat.pow_add]
      congr 2
      ring
    next hge =>
      have hzero : m = 0 := by omega
      subst hzero
      simp [Bits.toNat]

end Gather

end BitReader

end Conduit
