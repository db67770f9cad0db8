import Conduit.Batch.Frames
import Conduit.Proofs.Batch.Grouping

namespace Conduit

namespace Varint

theorem write_of_lt {n : Nat} (h : n < 128) : write n = [UInt8.ofNat n] := by
  rw [write, if_pos h]

theorem write_of_le {n : Nat} (h : 128 ≤ n) :
    write n = UInt8.ofNat (n % 128 + 128) :: write (n / 128) := by
  rw [write, if_neg (Nat.not_lt.mpr h)]

theorem div_lt_pow {groups n : Nat} (h : n < 128 ^ (groups + 2)) :
    n / 128 < 128 ^ (groups + 1) := by
  rw [Nat.pow_succ, Nat.mul_comm] at h
  exact Nat.div_lt_of_lt_mul h

theorem length_write_le (groups : Nat) {n : Nat} (h : n < 128 ^ (groups + 1)) :
    (write n).length ≤ groups + 1 := by
  induction groups generalizing n with
  | zero =>
    rw [write_of_lt h]
    exact Nat.le_refl 1
  | succ groups ih =>
    obtain hlt | hle := Nat.lt_or_ge n 128
    · rw [write_of_lt hlt]
      exact Nat.le_add_left 1 _
    · rw [write_of_le hle]
      exact Nat.succ_le_succ (ih (div_lt_pow h))

theorem length_write_le_maxLength {n : Nat} (h : n < 2 ^ 32) : (write n).length ≤ maxLength :=
  length_write_le 4 (Nat.lt_of_lt_of_le h (by decide))

theorem toNat_last {n : Nat} (h : n < 128) : (UInt8.ofNat n).toNat = n :=
  Nat.mod_eq_of_lt (by omega)

theorem toNat_more (n : Nat) : (UInt8.ofNat (n % 128 + 128)).toNat = n % 128 + 128 :=
  Nat.mod_eq_of_lt (by omega)

theorem whole_write (n : Nat) : Whole (write n) := by
  fun_induction write n with
  | case1 n hlt =>
    refine .last ?_
    rw [Continues, toNat_last hlt]
    omega
  | case2 n hge ih =>
    refine .more ?_ ih
    rw [Continues, toNat_more]
    omega

theorem valueOf_write (n : Nat) : valueOf (write n) = n := by
  fun_induction write n with
  | case1 n hlt =>
    rw [valueOf, valueOf, toNat_last hlt]
    omega
  | case2 n hge ih =>
    rw [valueOf, ih, toNat_more]
    omega

theorem read_write {n : Nat} (h : n < 2 ^ 42) (rest : List UInt8) :
    read (write n ++ rest) = (.ok n, rest) := by
  rw [read_whole (whole_write n) (length_write_le 5 h), valueOf_write]

end Varint

namespace Frames

theorem frame_of_lt {packet : List UInt8} (h : packet.length < 128) :
    frame packet = UInt8.ofNat packet.length :: packet := by
  rw [frame, Varint.write_of_lt h, List.singleton_append]

theorem join_append (packets more : List (List UInt8)) :
    join (packets ++ more) = join packets ++ join more :=
  List.flatMap_append

theorem join_singleton (packet : List UInt8) : join [packet] = frame packet :=
  List.flatMap_singleton _ _

section Split

variable {bytes rest : List UInt8} {length : Nat}

theorem exists_cons_of_read (h : Varint.read bytes = (.ok length, rest)) :
    ∃ byte more, bytes = byte :: more :=
  List.exists_cons_of_length_pos (Nat.zero_lt_of_lt (Varint.length_read_lt h))

theorem split_refused {flaw : BatchFlaw} (hne : bytes ≠ [])
    (h : Varint.read bytes = (.error flaw, rest)) : split bytes = .error flaw := by
  obtain ⟨byte, more, rfl⟩ := List.exists_cons_of_ne_nil hne
  rw [split]
  split
  next hread =>
    cases h.symm.trans hread
    rfl
  next hread => cases h.symm.trans hread

theorem split_overrun (h : Varint.read bytes = (.ok length, rest)) (hl : rest.length < length) :
    split bytes = .error (.overrun length rest.length) := by
  obtain ⟨byte, more, rfl⟩ := exists_cons_of_read h
  rw [split]
  split
  next hread => cases h.symm.trans hread
  next hread =>
    cases h.symm.trans hread
    exact if_pos (by rw [List.length_take]; omega)

theorem split_cons (h : Varint.read bytes = (.ok length, rest)) (hl : length ≤ rest.length) :
    split bytes = (split (rest.drop length)).map (rest.take length :: ·) := by
  obtain ⟨byte, more, rfl⟩ := exists_cons_of_read h
  rw [split]
  split
  next hread => cases h.symm.trans hread
  next hread =>
    cases h.symm.trans hread
    exact if_neg (by rw [List.length_take]; omega)

end Split

theorem split_frame {packet : List UInt8} (h : packet.length < 2 ^ 42) (rest : List UInt8) :
    split (frame packet ++ rest) = (split rest).map (packet :: ·) := by
  have hread : Varint.read (frame packet ++ rest) = (.ok packet.length, packet ++ rest) := by
    rw [frame, List.append_assoc, Varint.read_write h]
  rw [split_cons hread (by rw [List.length_append]; omega), List.drop_left, List.take_left]

theorem split_join {packets : List (List UInt8)} (h : ∀ packet ∈ packets, packet.length < 2 ^ 42) :
    split (join packets) = .ok packets := by
  induction packets with
  | nil => exact split.eq_1
  | cons packet packets ih =>
    obtain ⟨hpacket, hpackets⟩ := List.forall_mem_cons.mp h
    rw [join, List.flatMap_cons, split_frame hpacket, ← join, ih hpackets]
    rfl

end Frames

end Conduit
