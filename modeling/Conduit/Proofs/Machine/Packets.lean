import Mathlib.Data.List.Basic
import Mathlib.Data.Nat.Bitwise
import Conduit.Proofs.Batch.Tiling
import Conduit.Proofs.Machine.Checked
import Conduit.Proofs.Replies

namespace Conduit

namespace Machine

def next? : List UInt8 → Option (UInt8 × List UInt8)
  | [] => none
  | byte :: rest => some (byte, rest)

def splitOff? (bytes : List UInt8) (n : Nat) : Option (List UInt8 × List UInt8) :=
  if n ≤ bytes.length then some (bytes.take n, bytes.drop n) else none

def shiftLeft? (word : UInt64) (amount : UInt32) : Option UInt64 :=
  if amount.toNat < 64 then some (word <<< amount.toUInt64) else none

namespace Number

/-- The bits of a word above the lowest seven, all of them set. -/
def above : UInt32 :=
  ~~~0x7f

theorem testBit_above (i : Nat) :
    above.toNat.testBit i = (decide (7 ≤ i) && decide (i - 7 < 25)) := by
  have hshift : above.toNat = (2 ^ 25 - 1) <<< 7 := by decide
  rw [hshift, Nat.testBit_shiftLeft, Nat.testBit_two_pow_sub_one]

theorem and_above_eq_zero_iff (value : UInt32) : value &&& above = 0 ↔ value.toNat < 128 := by
  rw [← UInt32.toNat_inj, UInt32.toNat_and]
  constructor
  · intro h
    apply Nat.lt_pow_two_of_testBit (n := 7)
    intro i hi
    by_cases hlt : i < 32
    · have hbit := congrArg (Nat.testBit · i) h
      have hin : i - 7 < 25 := by omega
      simpa [testBit_above, hi, hin] using hbit
    · apply Nat.testBit_lt_two_pow
      exact value.toNat_lt.trans_le (Nat.pow_le_pow_right (by decide) (Nat.not_lt.mp hlt))
  · intro h
    apply Nat.eq_of_testBit_eq
    intro i
    rw [Nat.testBit_and, testBit_above]
    by_cases hi : 7 ≤ i
    · have hzero : value.toNat.testBit i = false :=
        Nat.testBit_lt_two_pow (h.trans_le (Nat.pow_le_pow_right Nat.two_pos hi))
      simp [hzero]
    · simp [hi]

theorem toNat_shiftRight (value : UInt32) : (value >>> 7).toNat = value.toNat / 128 := by
  rw [UInt32.toNat_shiftRight]
  exact Nat.shiftRight_eq_div_pow _ _

/-- Writes the low seven bits of a word as long as others are set above them. -/
def write (value : UInt32) : List UInt8 :=
  if value &&& above ≠ 0 then (value.toUInt8 &&& 0x7f ||| 0x80) :: write (value >>> 7)
  else [value.toUInt8]
termination_by value.toNat
decreasing_by
  next h =>
    rw [Ne, and_above_eq_zero_iff] at h
    rw [toNat_shiftRight]
    omega

def readFrom? : (turns : Nat) → (shift : UInt32) → UInt64 → List UInt8 →
    Option (Except BatchFlaw UInt64 × List UInt8)
  | 0, _, _, _ => none
  | turns + 1, shift, value, bytes =>
    if 35 < shift then some (.error .varintWide, bytes)
    else if bytes.isEmpty then some (.error .varintCut, bytes)
    else do
      let (byte, rest) ← next? bytes
      let group ← shiftLeft? (byte &&& 0x7f).toUInt64 shift
      if byte &&& 0x80 = 0 then return (.ok (value ||| group), rest)
      else
        let shift ← add? shift 7
        readFrom? turns shift (value ||| group) rest

open Varint (Continues)

theorem toNat_low (byte : UInt8) : (byte &&& 0x7f).toNat = byte.toNat % 128 := by
  rw [UInt8.toNat_and]
  exact Nat.and_two_pow_sub_one_eq_mod byte.toNat 7

theorem toNat_marked {byte : UInt8} (h : byte.toNat < 128) :
    (byte ||| 0x80).toNat = byte.toNat + 128 := by
  rw [UInt8.toNat_or, Nat.or_comm]
  exact (Nat.two_pow_add_eq_or_of_lt (i := 7) h 1).symm.trans (Nat.add_comm _ _)

theorem and_mark_eq_zero_iff (byte : UInt8) : byte &&& 0x80 = 0 ↔ ¬ Continues byte := by
  have hlt := byte.toNat_lt
  rw [← UInt8.toNat_inj, UInt8.toNat_and, Continues]
  change byte.toNat &&& 2 ^ 7 = 0 ↔ _
  rw [Nat.and_two_pow, Nat.testBit_eq_decide_div_mod_eq]
  simp only [mul_eq_zero, Bool.toNat_eq_zero, decide_eq_false_iff_not]
  omega

theorem write_eq (value : UInt32) : write value = Varint.write value.toNat := by
  fun_induction write value with
  | case1 value hmore ih =>
    rw [Ne, and_above_eq_zero_iff] at hmore
    rw [Varint.write_of_le (Nat.not_lt.mp hmore), ih, toNat_shiftRight]
    congr 1
    apply UInt8.toNat_inj.mp
    have hlow : (value.toUInt8 &&& 0x7f).toNat = value.toNat % 128 := by
      rw [toNat_low, UInt32.toNat_toUInt8]
      omega
    rw [toNat_marked (hlow ▸ Nat.mod_lt _ (by decide)), hlow, Varint.toNat_more]
  | case2 value hlast =>
    rw [Ne, not_not, and_above_eq_zero_iff] at hlast
    rw [Varint.write_of_lt hlast]
    rfl

section Read

variable {shift : UInt32} {value group : UInt64} {byte : UInt8} {rest : List UInt8}

theorem exists_group (hs : shift.toNat ≤ 35) (hv : value.toNat < 2 ^ shift.toNat) (byte : UInt8) :
    ∃ group, shiftLeft? (byte &&& 0x7f).toUInt64 shift = some group ∧
      (value ||| group).toNat = value.toNat + (byte.toNat % 128) <<< shift.toNat := by
  refine ⟨_, if_pos (by omega), ?_⟩
  have hgroup := Nat.mod_lt byte.toNat (show 128 > 0 by decide)
  have hpow : 2 ^ shift.toNat ≤ 2 ^ 35 := Nat.pow_le_pow_right (by decide) hs
  have hfits : (byte.toNat % 128) <<< shift.toNat < 2 ^ 64 := by
    rw [Nat.shiftLeft_eq]
    exact (Nat.mul_le_mul hgroup.le hpow).trans_lt (by decide)
  rw [UInt64.toNat_or, UInt64.toNat_shiftLeft, UInt8.toNat_toUInt64, toNat_low,
    UInt32.toNat_toUInt64, Nat.mod_eq_of_lt (show shift.toNat < 64 by omega),
    Nat.mod_eq_of_lt hfits, Nat.or_comm, ← Nat.shiftLeft_add_eq_or_of_lt hv, Nat.add_comm]

theorem readFrom?_beyond (hs : 35 < shift.toNat) (turns : Nat) (value : UInt64)
    (bytes : List UInt8) :
    readFrom? (turns + 1) shift value bytes = some (.error .varintWide, bytes) := by
  have hwide : 35 < shift := UInt32.lt_iff_toNat_lt.mpr hs
  rw [readFrom?, if_pos hwide]

theorem narrow (hs : shift.toNat ≤ 35) : ¬ 35 < shift :=
  UInt32.not_lt.mpr (UInt32.le_iff_toNat_le.mpr hs)

theorem readFrom?_nil (hs : shift.toNat ≤ 35) (turns : Nat) (value : UInt64) :
    readFrom? (turns + 1) shift value [] = some (.error .varintCut, []) := by
  rw [readFrom?, if_neg (narrow hs)]
  exact if_pos List.isEmpty_nil

theorem readFrom?_last (hs : shift.toNat ≤ 35) (hend : ¬ Continues byte)
    (hgroup : shiftLeft? (byte &&& 0x7f).toUInt64 shift = some group) (turns : Nat) :
    readFrom? (turns + 1) shift value (byte :: rest) = some (.ok (value ||| group), rest) := by
  rw [readFrom?, if_neg (narrow hs), if_neg (by simp), next?]
  simp only [Option.bind_eq_bind, Option.bind_some, hgroup]
  exact if_pos ((and_mark_eq_zero_iff byte).mpr hend)

theorem readFrom?_more (hs : shift.toNat ≤ 35) (hmore : Continues byte)
    (hgroup : shiftLeft? (byte &&& 0x7f).toUInt64 shift = some group) (turns : Nat) :
    readFrom? (turns + 1) shift value (byte :: rest) =
      readFrom? turns (shift + 7) (value ||| group) rest := by
  have hmark : ¬ byte &&& 0x80 = 0 := fun h => (and_mark_eq_zero_iff byte).mp h hmore
  have hshift : shift.toNat + (7 : UInt32).toNat < 2 ^ 32 :=
    Nat.lt_of_le_of_lt (Nat.add_le_add_right hs _) (by decide)
  rw [readFrom?, if_neg (narrow hs), if_neg (by simp), next?]
  simp only [Option.bind_eq_bind, Option.bind_some, hgroup, if_neg hmark, add?_of_lt hshift]

theorem comes_readFrom (hv : value.toNat < 2 ^ shift.toNat) (bytes : List UInt8) :
    Comes (fun turns => readFrom? turns shift value bytes)
      ((Varint.readFrom shift.toNat value.toNat bytes).1.map UInt64.ofNat,
        (Varint.readFrom shift.toNat value.toNat bytes).2) := by
  induction bytes generalizing shift value with
  | nil =>
    obtain hwide | hle := Nat.lt_or_ge 35 shift.toNat
    · rw [Varint.readFrom_beyond hwide]
      exact .of_succ (fun turns => readFrom?_beyond hwide turns value []) (comes_of_eq fun _ => rfl)
    · have hcut : shift.toNat + 7 * ([] : List UInt8).length ≤ 35 := hle
      rw [Varint.readFrom_cut (List.forall_mem_nil _) hcut]
      exact .of_succ (fun turns => readFrom?_nil hle turns value) (comes_of_eq fun _ => rfl)
  | cons byte rest ih =>
    obtain hwide | hle := Nat.lt_or_ge 35 shift.toNat
    · rw [Varint.readFrom_beyond hwide]
      exact .of_succ (fun turns => readFrom?_beyond hwide turns value _) (comes_of_eq fun _ => rfl)
    obtain ⟨group, hgroup, hvalue⟩ := exists_group hle hv byte
    by_cases hmore : Continues byte
    · have hshift : (shift + 7).toNat = shift.toNat + 7 :=
        toNat_add_of_lt (Nat.lt_of_le_of_lt (Nat.add_le_add_right hle _) (by decide))
      have hlow : (byte.toNat % 128 + 1) * 2 ^ shift.toNat ≤ 2 ^ 7 * 2 ^ shift.toNat :=
        Nat.mul_le_mul_right _ (Nat.mod_lt _ (by decide))
      have hfits : (value ||| group).toNat < 2 ^ (shift + 7).toNat := by
        rw [Nat.add_one_mul] at hlow
        rw [hvalue, hshift, Nat.shiftLeft_eq, Nat.pow_add]
        omega
      have hcomes := ih hfits
      rw [hvalue, hshift, ← Varint.readFrom_more hle hmore] at hcomes
      exact .of_succ (readFrom?_more hle hmore hgroup) hcomes
    · rw [Varint.readFrom_last hle hmore, ← hvalue]
      refine .of_succ (readFrom?_last hle hmore hgroup) (comes_of_eq fun _ => ?_)
      rw [Except.map, UInt64.ofNat_toNat]

theorem comes_read (bytes : List UInt8) :
    Comes (fun turns => readFrom? turns 0 0 bytes)
      ((Varint.read bytes).1.map UInt64.ofNat, (Varint.read bytes).2) := by
  have hzero : (0 : UInt64).toNat < 2 ^ (0 : UInt32).toNat := by decide
  exact comes_readFrom hzero bytes

theorem toNat_ofNat_of_read {n : Nat} {bytes : List UInt8}
    (h : Varint.read bytes = (.ok n, rest)) : (UInt64.ofNat n).toNat = n := by
  obtain ⟨taken, -, -, hlen, rfl⟩ := Varint.read_eq_ok_iff.mp h
  have hlt := Varint.valueOf_lt taken
  have hpow : 2 ^ (7 * taken.length) ≤ 2 ^ 42 := Nat.pow_le_pow_right (by decide) (by omega)
  exact UInt64.toNat_ofNat_of_lt' (by
    change _ < 2 ^ 64
    omega)

end Read

end Number

namespace Packing

def frame (packet : List UInt8) : List UInt8 :=
  Number.write (UInt32.ofNat packet.length) ++ packet

theorem frame_eq {packet : List UInt8} (h : packet.length < 2 ^ 32) :
    frame packet = Frames.frame packet := by
  rw [frame, Number.write_eq, UInt32.toNat_ofNat_of_lt' h, Frames.frame]

/-- Cuts off packets while bytes are left; `packets` are those that have been cut off. -/
def split? : (turns : Nat) → (packets : Array (List UInt8)) → List UInt8 →
    Option (Except BatchFlaw (Array (List UInt8)))
  | _, packets, [] => some (.ok packets)
  | 0, _, _ :: _ => none
  | turns + 1, packets, byte :: more => do
    let (result, left) ← Number.readFrom? turns 0 0 (byte :: more)
    match result with
    | .error flaw => return .error flaw
    | .ok length =>
      if length.toNat ≤ left.length then
        let (packet, left) ← splitOff? left length.toNat
        split? turns (packets.push packet) left
      else return .error (.overrun length.toNat left.length)

theorem comes_split (packets : Array (List UInt8)) (bytes : List UInt8) :
    Comes (fun turns => split? turns packets bytes)
      ((Frames.split bytes).map fun more => packets ++ more.toArray) := by
  induction hn : bytes.length using Nat.strong_induction_on generalizing packets bytes with
  | _ n ih =>
    cases bytes with
    | nil =>
      refine comes_of_eq fun turns => ?_
      rw [Frames.split, split?, Except.map, Array.append_empty]
    | cons byte more =>
      refine .of_succ (fun turns => by rw [split?]) ((Number.comes_read (byte :: more)).bind ?_)
      rcases hread : Varint.read (byte :: more) with ⟨flaw | length, left⟩
      · rw [Frames.split_refused (List.cons_ne_nil _ _) hread]
        exact comes_of_eq fun _ => rfl
      have hword := Number.toNat_ofNat_of_read hread
      by_cases hle : length ≤ left.length
      · have hshort := Varint.length_read_lt hread
        have hrest := ih _ (by rw [← hn, List.length_drop]; omega)
          (packets.push (left.take length)) (left.drop length) rfl
        have hmap : (((Frames.split (left.drop length)).map (left.take length :: ·)).map
            fun more => packets ++ more.toArray) =
            (Frames.split (left.drop length)).map fun more =>
              packets.push (left.take length) ++ more.toArray := by
          cases Frames.split (left.drop length) with
          | error flaw => rfl
          | ok more => simp [Except.map]
        have hcut : splitOff? left length = some (left.take length, left.drop length) := if_pos hle
        rw [Frames.split_cons hread hle, hmap]
        generalize Except.map _ _ = result at hrest ⊢
        simp only [Except.map, hword, if_pos hle, hcut, Option.bind_eq_bind, Option.bind_some]
        exact hrest
      · rw [Frames.split_overrun hread (Nat.not_le.mp hle)]
        simp only [Except.map, hword, if_neg hle]
        exact comes_of_eq fun _ => rfl

end Packing

end Machine

/-- Packets whose lengths are words are cut as they were laid end to end. Any buffer is cut into the
packets whose tiles cover it, with nothing left over, or else it is refused for what stands behind
its last tile, which no tile begins. The machine cuts it just so, and no buffer makes it stop for
good or go on for ever. -/
theorem packets_tile_buffer :
    (∀ packets : List (List UInt8), (∀ packet ∈ packets, packet.length < 2 ^ 32) →
      Frames.split (packets.flatMap Machine.Packing.frame) = .ok packets) ∧
    ∀ bytes,
      (∀ packets, Frames.split bytes = .ok packets ↔
        ∃ tiles, bytes = Frames.cover tiles ∧ packets = tiles.map Frames.Tile.packet) ∧
      (∀ flaw, Frames.split bytes = .error flaw ↔
        ∃ tiles rest, bytes = Frames.cover tiles ++ rest ∧ Frames.Broken rest flaw) ∧
      Comes (fun turns => Machine.Packing.split? turns #[] bytes)
        ((Frames.split bytes).map List.toArray) := by
  refine ⟨fun packets hshort => ?_, fun bytes => ⟨fun _ => Frames.split_eq_ok_iff,
    fun _ => Frames.split_eq_error_iff, ?_⟩⟩
  · have hframes : packets.flatMap Machine.Packing.frame = Frames.join packets :=
      List.flatMap_congr fun packet hm => Machine.Packing.frame_eq (hshort packet hm)
    rw [hframes]
    exact Frames.split_join fun packet hm => (hshort packet hm).trans (by decide)
  · have hcomes := Machine.Packing.comes_split #[] bytes
    simpa only [Array.empty_append] using hcomes

/-- Two packets, one of them empty; a length in two bytes where one would do; and a length that is
one too great. -/
theorem packets_tile_buffer_of_few :
    Frames.split ([[], [7]].flatMap Machine.Packing.frame) = .ok [[], [7]] ∧
      Frames.split [129, 0, 7] = .ok [[7]] ∧
      Frames.split [0, 129, 0] = .error (.overrun 1 0) := by
  obtain ⟨hjoined, hcut⟩ := packets_tile_buffer
  refine ⟨hjoined [[], [7]] (by decide), ?_, ?_⟩
  · exact ((hcut [129, 0, 7]).1 [[7]]).mpr ⟨[⟨[129, 0], [7], by decide⟩], rfl, rfl⟩
  · have hread : Varint.read [129, 0] = (.ok 1, []) := by decide
    exact ((hcut [0, 129, 0]).2.1 (.overrun 1 0)).mpr
      ⟨[⟨[0], [], by decide⟩], [129, 0], rfl, .packet hread (by decide)⟩

end Conduit
