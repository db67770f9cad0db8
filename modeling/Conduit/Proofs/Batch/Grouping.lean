import Conduit.Batch.Varint
import Mathlib.Tactic.Ring
import Mathlib.Algebra.Order.Ring.Nat

namespace Conduit.Varint

variable {byte : UInt8} {taken front rest bytes : List UInt8} {shift value n : Nat}

def Continues (byte : UInt8) : Prop :=
  128 ≤ byte.toNat

instance : DecidablePred Continues :=
  fun byte => inferInstanceAs (Decidable (128 ≤ byte.toNat))

inductive Whole : List UInt8 → Prop
  | last {byte : UInt8} : ¬ Continues byte → Whole [byte]
  | more {byte : UInt8} {taken : List UInt8} : Continues byte → Whole taken → Whole (byte :: taken)

theorem whole_append (h : ∀ byte ∈ front, Continues byte) (hlast : ¬ Continues byte) :
    Whole (front ++ [byte]) := by
  induction front with
  | nil => exact .last hlast
  | cons first front ih =>
    obtain ⟨hfirst, hfront⟩ := List.forall_mem_cons.mp h
    exact .more hfirst (ih hfront)

def valueOf : List UInt8 → Nat
  | [] => 0
  | byte :: rest => byte.toNat % 128 + 128 * valueOf rest

theorem valueOf_lt (taken : List UInt8) : valueOf taken < 2 ^ (7 * taken.length) := by
  induction taken with
  | nil => exact Nat.one_pos
  | cons byte taken ih =>
    have hgroup := Nat.mod_lt byte.toNat (show 128 > 0 by decide)
    have hpow : 2 ^ (7 * (byte :: taken).length) = 128 * 2 ^ (7 * taken.length) := by
      rw [List.length_cons, Nat.mul_succ, Nat.pow_add, Nat.mul_comm]
    rw [valueOf, hpow]
    omega

theorem add_shiftLeft_valueOf (byte : UInt8) (taken : List UInt8) (shift value : Nat) :
    value + (byte.toNat % 128) <<< shift + valueOf taken <<< (shift + 7) =
      value + valueOf (byte :: taken) <<< shift := by
  simp only [valueOf, Nat.shiftLeft_eq, Nat.pow_add]
  ring

section Read

theorem readFrom_beyond (hs : 35 < shift) (value : Nat) (bytes : List UInt8) :
    readFrom shift value bytes = (.error .varintWide, bytes) := by
  rw [readFrom.eq_def, if_pos hs]

theorem readFrom_last (hs : shift ≤ 35) (h : ¬ Continues byte) (value : Nat) (rest : List UInt8) :
    readFrom shift value (byte :: rest) = (.ok (value + (byte.toNat % 128) <<< shift), rest) := by
  rw [readFrom, if_neg (Nat.not_lt.mpr hs)]
  exact if_pos (Nat.not_le.mp h)

theorem readFrom_more (hs : shift ≤ 35) (h : Continues byte) (value : Nat) (rest : List UInt8) :
    readFrom shift value (byte :: rest) =
      readFrom (shift + 7) (value + (byte.toNat % 128) <<< shift) rest := by
  rw [readFrom, if_neg (Nat.not_lt.mpr hs)]
  exact if_neg (Nat.not_lt.mpr h)

theorem readFrom_whole (h : Whole taken) (hs : shift + 7 * taken.length ≤ 42) (value : Nat)
    (rest : List UInt8) :
    readFrom shift value (taken ++ rest) = (.ok (value + valueOf taken <<< shift), rest) := by
  induction h generalizing shift value with
  | last hend =>
    rw [List.length_singleton] at hs
    rw [List.singleton_append, readFrom_last (by omega) hend, valueOf, valueOf, Nat.mul_zero,
      Nat.add_zero]
  | more hmore hwhole ih =>
    rw [List.length_cons] at hs
    rw [List.cons_append, readFrom_more (by omega) hmore, ih (by omega), add_shiftLeft_valueOf]

theorem readFrom_cut (h : ∀ byte ∈ bytes, Continues byte) (hs : shift + 7 * bytes.length ≤ 35)
    (value : Nat) : readFrom shift value bytes = (.error .varintCut, []) := by
  induction bytes generalizing shift value with
  | nil =>
    rw [readFrom]
    exact if_neg (Nat.not_lt.mpr hs)
  | cons byte bytes ih =>
    obtain ⟨hbyte, hbytes⟩ := List.forall_mem_cons.mp h
    rw [List.length_cons] at hs
    rw [readFrom_more (by omega) hbyte, ih hbytes (by omega)]

theorem readFrom_wide (h : ∀ byte ∈ front, Continues byte) (hs : shift + 7 * front.length = 42)
    (value : Nat) (rest : List UInt8) :
    readFrom shift value (front ++ rest) = (.error .varintWide, rest) := by
  induction front generalizing shift value with
  | nil =>
    rw [List.length_nil] at hs
    exact readFrom_beyond (by omega) value rest
  | cons byte front ih =>
    obtain ⟨hbyte, hfront⟩ := List.forall_mem_cons.mp h
    rw [List.length_cons] at hs
    rw [List.cons_append, readFrom_more (by omega) hbyte, ih hfront (by omega)]

theorem read_whole (h : Whole taken) (hlen : taken.length ≤ 6) (rest : List UInt8) :
    read (taken ++ rest) = (.ok (valueOf taken), rest) := by
  rw [read, readFrom_whole h (by omega), Nat.shiftLeft_zero, Nat.zero_add]

theorem read_cut (h : ∀ byte ∈ bytes, Continues byte) (hlen : bytes.length < 6) :
    read bytes = (.error .varintCut, []) :=
  readFrom_cut h (by omega) 0

theorem read_wide (h : ∀ byte ∈ front, Continues byte) (hlen : front.length = 6)
    (rest : List UInt8) : read (front ++ rest) = (.error .varintWide, rest) :=
  readFrom_wide h (by omega) 0 rest

/-- Within so many bytes a number ends, or the bytes do, or neither. -/
theorem whole_or_cut_or_wide (limit : Nat) (bytes : List UInt8) :
    (∃ taken rest, bytes = taken ++ rest ∧ Whole taken ∧ taken.length ≤ limit) ∨
      ((∀ byte ∈ bytes, Continues byte) ∧ bytes.length < limit) ∨
      ∃ front rest, bytes = front ++ rest ∧ (∀ byte ∈ front, Continues byte) ∧
        front.length = limit := by
  induction limit generalizing bytes with
  | zero => exact .inr (.inr ⟨[], bytes, rfl, List.forall_mem_nil _, rfl⟩)
  | succ limit ih =>
    cases bytes with
    | nil => exact .inr (.inl ⟨List.forall_mem_nil _, Nat.succ_pos limit⟩)
    | cons byte bytes =>
      by_cases hbyte : Continues byte
      · obtain ⟨taken, rest, rfl, hwhole, hlen⟩ | ⟨hbytes, hlen⟩ | ⟨front, rest, rfl, hfront, hlen⟩ :=
          ih bytes
        · exact .inl ⟨byte :: taken, rest, rfl, .more hbyte hwhole, Nat.succ_le_succ hlen⟩
        · exact .inr (.inl ⟨List.forall_mem_cons.mpr ⟨hbyte, hbytes⟩, Nat.succ_lt_succ hlen⟩)
        · exact .inr (.inr ⟨byte :: front, rest, rfl, List.forall_mem_cons.mpr ⟨hbyte, hfront⟩,
            congrArg (· + 1) hlen⟩)
      · exact .inl ⟨[byte], bytes, rfl, .last hbyte, Nat.succ_le_succ (Nat.zero_le limit)⟩

theorem read_eq_ok_iff : read bytes = (.ok n, rest) ↔
    ∃ taken, bytes = taken ++ rest ∧ Whole taken ∧ taken.length ≤ 6 ∧ valueOf taken = n := by
  constructor
  · intro h
    obtain ⟨taken, left, rfl, hwhole, hlen⟩ | ⟨hbytes, hlen⟩ | ⟨front, left, rfl, hfront, hlen⟩ :=
      whole_or_cut_or_wide 6 bytes
    · rw [read_whole hwhole hlen] at h
      cases h
      exact ⟨taken, rfl, hwhole, hlen, rfl⟩
    · rw [read_cut hbytes hlen] at h
      cases h
    · rw [read_wide hfront hlen] at h
      cases h
  · rintro ⟨taken, rfl, hwhole, hlen, rfl⟩
    exact read_whole hwhole hlen rest

/-- Behind a number that is read may stand anything. -/
theorem read_append (h : read bytes = (.ok n, rest)) (more : List UInt8) :
    read (bytes ++ more) = (.ok n, rest ++ more) := by
  obtain ⟨taken, rfl, hwhole, hlen, rfl⟩ := read_eq_ok_iff.mp h
  rw [List.append_assoc, read_whole hwhole hlen]

/-- Five bytes that continue are read to a number exactly if a sixth ends it. -/
theorem read_five_iff (h : ∀ byte ∈ front, Continues byte) (hlen : front.length = 5)
    (rest : List UInt8) :
    (∃ n left, read (front ++ rest) = (.ok n, left)) ↔
      ∃ last left, rest = last :: left ∧ ¬ Continues last := by
  cases rest with
  | nil =>
    rw [List.append_nil, read_cut h (by omega)]
    simp
  | cons last left =>
    by_cases hlast : Continues last
    · have hsix : ∀ byte ∈ front ++ [last], Continues byte :=
        List.forall_mem_append.mpr ⟨h, List.forall_mem_singleton.mpr hlast⟩
      rw [← List.singleton_append, ← List.append_assoc,
        read_wide hsix (by rw [List.length_append, hlen, List.length_singleton])]
      simp [hlast]
    · refine iff_of_true ⟨valueOf (front ++ [last]), left, ?_⟩ ⟨last, left, rfl, hlast⟩
      rw [← List.singleton_append, ← List.append_assoc]
      exact read_whole (whole_append h hlast)
        (by rw [List.length_append, hlen, List.length_singleton]) left

end Read

/-- A number is read from its groups, of which there may be six, one more than 35 bits take. What
does not end within the first six bytes is refused: as cut short where the bytes end before, and as
too wide otherwise, whatever follows. So it is with five bytes that continue, unless a sixth ends
the number. -/
theorem number_read_within_six_bytes (bytes : List UInt8) :
    (∀ n rest, read bytes = (.ok n, rest) ↔
      ∃ taken, bytes = taken ++ rest ∧ Whole taken ∧ taken.length ≤ 6 ∧
        n = valueOf taken ∧ n < 2 ^ (7 * taken.length)) ∧
    (∀ front rest, bytes = front ++ rest → (∀ byte ∈ front, Continues byte) → front.length = 5 →
      ((∃ n left, read bytes = (.ok n, left)) ↔
        ∃ last left, rest = last :: left ∧ ¬ Continues last)) ∧
    (∀ front rest, bytes = front ++ rest → (∀ byte ∈ front, Continues byte) → front.length = 6 →
      read bytes = (.error .varintWide, rest)) ∧
    ((∀ byte ∈ bytes, Continues byte) → bytes.length < 6 →
      read bytes = (.error .varintCut, [])) := by
  refine ⟨fun n rest => ?_, ?_, ?_, read_cut⟩
  · constructor
    · intro h
      obtain ⟨taken, hbytes, hwhole, hlen, rfl⟩ := read_eq_ok_iff.mp h
      exact ⟨taken, hbytes, hwhole, hlen, rfl, valueOf_lt taken⟩
    · rintro ⟨taken, hbytes, hwhole, hlen, rfl, -⟩
      exact read_eq_ok_iff.mpr ⟨taken, hbytes, hwhole, hlen, rfl⟩
  · rintro front rest rfl hfront hlen
    exact read_five_iff hfront hlen rest
  · rintro front rest rfl hfront hlen
    exact read_wide hfront hlen rest

/-- Five bytes that continue, and a sixth that may or may not end the number. -/
theorem number_read_within_six_bytes_at_limit :
    (∀ byte ∈ [255, 255, 255, 255, 255], Continues byte) ∧
      (∃ n left, read [255, 255, 255, 255, 255, 127] = (.ok n, left)) ∧
      (¬ ∃ n left, read [255, 255, 255, 255, 255, 128] = (.ok n, left)) ∧
      read [255, 255, 255, 255, 255, 128, 7] = (.error .varintWide, [7]) ∧
      read [255, 255, 255, 255, 255] = (.error .varintCut, []) := by
  have hfive : ∀ byte ∈ [255, 255, 255, 255, 255], Continues byte := by decide +kernel
  have hsix : ∀ byte ∈ [255, 255, 255, 255, 255, 128], Continues byte := by decide +kernel
  obtain ⟨-, hfirst, -⟩ := number_read_within_six_bytes [255, 255, 255, 255, 255, 127]
  obtain ⟨-, hsecond, -⟩ := number_read_within_six_bytes [255, 255, 255, 255, 255, 128]
  obtain ⟨-, -, hwide, -⟩ := number_read_within_six_bytes [255, 255, 255, 255, 255, 128, 7]
  obtain ⟨-, -, -, hcut⟩ := number_read_within_six_bytes [255, 255, 255, 255, 255]
  refine ⟨hfive, (hfirst _ _ rfl hfive rfl).mpr ⟨127, [], rfl, by decide⟩, ?_,
    hwide _ _ rfl hsix rfl, hcut hfive (by decide)⟩
  rw [hsecond _ _ rfl hfive rfl]
  rintro ⟨last, left, hlast, hend⟩
  cases hlast
  exact hend (by decide)

/-- Five bytes that continue are read on, to a number of 36 bits. -/
theorem number_of_36_bits_read :
    (∀ byte ∈ [128, 128, 128, 128, 128], Continues byte) ∧
      read [128, 128, 128, 128, 128, 1] = (.ok (2 ^ 35), []) := by
  decide +kernel

end Conduit.Varint
