import Conduit.Bits.Filling
import Conduit.Proofs.Bits.Recovering
import Conduit.Proofs.Bits.Writing
import Conduit.Proofs.Machine.Reading

namespace Conduit

open Bits
open BitWriter (Use)

namespace Machine

theorem toNat_lowestOf (value : UInt32) {n : Nat} (hn : n ≤ 32) :
    (lowestOf value n).toNat = value.toNat % 2 ^ n := by
  have hlt : n < 64 := by omega
  have hpow : 2 ^ n < 2 ^ 64 := Nat.pow_lt_pow_right (by decide) hlt
  have hone : ((1 : UInt64) <<< UInt64.ofNat n).toNat = 2 ^ n := by
    rw [UInt64.toNat_shiftLeft, UInt64.toNat_ofNat_of_lt' (Nat.lt_trans hlt (by decide)),
      Nat.mod_eq_of_lt hlt, UInt64.toNat_one, Nat.one_shiftLeft, Nat.mod_eq_of_lt hpow]
  have hle : (1 : UInt64) ≤ 1 <<< UInt64.ofNat n := by
    rw [UInt64.le_iff_toNat_le, hone]
    exact Nat.two_pow_pos n
  rw [lowestOf, UInt64.toNat_and, UInt64.toNat_sub_of_le _ _ hle, hone, UInt32.toNat_toUInt64]
  exact Nat.and_two_pow_sub_one_eq_mod _ n

theorem shiftWhole?_eq_some {word : UInt64} {amount : Nat} (ha : amount < 64)
    (hw : word.toNat * 2 ^ amount < 2 ^ 64) :
    ∃ shifted, shiftWhole? word amount = some shifted ∧
      shifted.toNat = word.toNat * 2 ^ amount := by
  refine ⟨_, if_pos ⟨ha, by rwa [Nat.shiftLeft_eq]⟩, ?_⟩
  rw [UInt64.toNat_shiftLeft, UInt64.toNat_ofNat_of_lt' (Nat.lt_trans ha (by decide)),
    Nat.mod_eq_of_lt ha, Nat.shiftLeft_eq, Nat.mod_eq_of_lt hw]

theorem toUInt8_eq (word : UInt64) : word.toUInt8 = UInt8.ofNat word.toNat := by
  apply UInt8.toNat_inj.mp
  rw [UInt64.toNat_toUInt8, UInt8.toNat_ofNat']

end Machine

namespace BitWriter

def use (w : BitWriter) : Use → List UInt8 × BitWriter
  | .put value n => ([], w.put value.toNat n)
  | .align => ([], w.align)
  | .bytes data => ([], w.putBytes data)
  | .discard n => w.drain n

variable {w : BitWriter} {bits rest : List Bool} {handed : List UInt8}

theorem Wrote.pack_take (h : w.Wrote bits) {n : Nat} (hn : 8 * n ≤ bits.length) :
    w.waiting.take n = pack (bits.take (8 * n)) := by
  have hlength := h.length
  have hfill := h.fill_lt
  have hle : 8 * n ≤ (ofBytes w.waiting).length := by
    rw [length_ofBytes]
    omega
  rw [← h.written_eq, written, List.take_append_of_le_length hle, take_ofBytes, pack_ofBytes]

theorem Wrote.use (h : w.Wrote bits) {u : Use} (hu : u.outcome? bits = some (handed, rest)) :
    ∃ w', w.use u = (handed, w') ∧ w'.Wrote rest := by
  cases u with
  | put value n =>
    rw [Use.outcome?] at hu
    split at hu <;> cases hu
    exact ⟨_, rfl, h.put value.toNat n⟩
  | align =>
    cases hu
    exact ⟨_, rfl, h.align⟩
  | bytes data =>
    rw [Use.outcome?] at hu
    split at hu <;> cases hu
    next haligned => exact ⟨_, rfl, h.putBytes haligned data⟩
  | discard n =>
    rw [Use.outcome?] at hu
    split at hu <;> cases hu
    next hle =>
      obtain ⟨left, hout, hleft, hbits⟩ := h.drain n
      have hwhole : (ofBytes (w.waiting.take n)).length = 8 * n := by
        have hlength := h.length
        have hfill := h.fill_lt
        rw [length_ofBytes, List.length_take]
        omega
      have hrest : bits.drop (8 * n) = left := by
        rw [hbits]
        exact List.drop_left' hwhole
      rw [hrest, ← h.pack_take hle, ← hout]
      exact ⟨_, rfl, hleft⟩

theorem Wrote.uses (h : w.Wrote bits) {uses : List Use} {handed : List (List UInt8)}
    (hu : replies? Use.outcome? bits uses = some (handed, rest)) :
    ∃ w', replies BitWriter.use w uses = (handed, w') ∧ w'.Wrote rest := by
  have huse : ∀ {w : BitWriter} {bits rest : List Bool} {u : Use} {handed : List UInt8},
      w.Wrote bits → u.outcome? bits = some (handed, rest) →
        ∃ w', some (w.use u) = some (handed, w') ∧ w'.Wrote rest := by
    intro w bits rest u handed h hu
    obtain ⟨w', hw', hwrote⟩ := h.use hu
    exact ⟨w', congrArg some hw', hwrote⟩
  obtain ⟨w', hw', hwrote⟩ := replies?_of_related huse h hu
  rw [replies?_some] at hw'
  exact ⟨w', Option.some.inj hw', hwrote⟩

end BitWriter

namespace Filling

def use? (m : Filling) : Use → Option (List UInt8 × Filling)
  | .put value n => do return ([], ← m.put? value n)
  | .align => some ([], m.align)
  | .bytes data => do return ([], ← m.putBytes? data)
  | .discard n => m.discard? n

/-- These bits wait, in the bytes and in the word, which holds fewer than 8 and no other. -/
structure Shows (m : Filling) (bits : List Bool) : Prop where
  fill_lt : m.fill < 8
  word_lt : m.word.toNat < 2 ^ m.fill
  bits_eq : ofBytes m.out ++ ofNat m.fill m.word.toNat = bits

variable {m : Filling} {bits rest : List Bool} {handed : List UInt8}

theorem shows_start : Shows {} [] :=
  ⟨by decide, by decide, rfl⟩

theorem Shows.length (h : m.Shows bits) : bits.length = 8 * m.out.length + m.fill := by
  rw [← h.bits_eq, List.length_append, length_ofBytes, length_ofNat]

theorem shows_spill (out : List UInt8) {word : UInt64} {fill : Nat}
    (hw : word.toNat < 2 ^ fill) :
    (spill out word fill).Shows (ofBytes out ++ ofNat fill word.toNat) := by
  fun_induction spill out word fill with
  | case1 out word fill hf ih =>
    obtain ⟨more, rfl⟩ := Nat.exists_eq_add_of_le hf
    rw [Nat.add_sub_cancel_left] at ih
    have hword : (word >>> 8).toNat = word.toNat / 2 ^ 8 := by
      rw [UInt64.toNat_shiftRight]
      exact Nat.shiftRight_eq_div_pow _ _
    have hlt : (word >>> 8).toNat < 2 ^ more := by
      rw [hword]
      apply Nat.div_lt_of_lt_mul
      rwa [← Nat.pow_add]
    have h := ih hlt
    rw [ofBytes_append, ofBytes_singleton, Machine.toUInt8_eq, ofNat_uint8, hword, List.append_assoc,
      ← ofNat_add] at h
    rw [Nat.add_sub_cancel_left]
    exact h
  | case2 out word fill hf => exact ⟨Nat.not_le.mp hf, hw, rfl⟩

/-- A field of at most 32 bits finds room in the word above the fewer than 8 that are there. -/
theorem Shows.put (h : m.Shows bits) (value : UInt32) {n : Nat} (hn : n ≤ 32) :
    ∃ m', m.put? value n = some m' ∧ m'.Shows (bits ++ ofNat n value.toNat) := by
  rw [put?, if_neg (Nat.not_lt.mpr hn)]
  split
  next hzero =>
    subst hzero
    rw [ofNat_zero_left, List.append_nil]
    exact ⟨m, rfl, h⟩
  next hpos =>
    have hfill := h.fill_lt
    have hword := h.word_lt
    have hlowest := Machine.toNat_lowestOf value hn
    have hlt : value.toNat % 2 ^ n < 2 ^ n := Nat.mod_lt _ (Nat.two_pow_pos n)
    have hsum : m.word.toNat + value.toNat % 2 ^ n * 2 ^ m.fill < 2 ^ (m.fill + n) := by
      rw [Nat.pow_add, Nat.mul_comm (2 ^ m.fill)]
      calc m.word.toNat + value.toNat % 2 ^ n * 2 ^ m.fill
          < (value.toNat % 2 ^ n + 1) * 2 ^ m.fill := by
            rw [Nat.add_mul]
            omega
        _ ≤ 2 ^ n * 2 ^ m.fill := Nat.mul_le_mul_right _ hlt
    have hroom : 2 ^ (m.fill + n) ≤ 2 ^ 64 := Nat.pow_le_pow_right (by decide) (by omega)
    have hfits : (Machine.lowestOf value n).toNat * 2 ^ m.fill < 2 ^ 64 := by
      rw [hlowest]
      omega
    obtain ⟨field, hfield, hnumber⟩ := Machine.shiftWhole?_eq_some (by omega) hfits
    have hor : (m.word ||| field).toNat = m.word.toNat + value.toNat % 2 ^ n * 2 ^ m.fill := by
      rw [UInt64.toNat_or, hnumber, hlowest, Nat.or_comm, Nat.mul_comm,
        ← Nat.two_pow_add_eq_or_of_lt hword, Nat.add_comm]
    have hbits : ofNat (m.fill + n) (m.word ||| field).toNat =
        ofNat m.fill m.word.toNat ++ ofNat n value.toNat := by
      rw [hor, ofNat_add, ← ofNat_mod m.fill, Nat.add_mul_mod_self_right, Nat.mod_eq_of_lt hword,
        Nat.add_mul_div_right _ _ (Nat.two_pow_pos _), Nat.div_eq_of_lt hword, Nat.zero_add,
        ofNat_mod]
    have hshown := shows_spill m.out (hor ▸ hsum)
    rw [hbits, ← List.append_assoc, h.bits_eq] at hshown
    rw [hfield]
    exact ⟨_, rfl, hshown⟩

theorem Shows.align (h : m.Shows bits) : m.align.Shows (pad bits) := by
  have hlength := h.length
  have hfill := h.fill_lt
  have hword := h.word_lt
  rw [Filling.align]
  split
  next hpos =>
    have hmod : (8 - bits.length % 8) % 8 = 8 - m.fill := by omega
    have hsum : m.fill + (8 - m.fill) = 8 := by omega
    have hbyte : ofNat 8 m.word.toNat =
        ofNat m.fill m.word.toNat ++ List.replicate (8 - m.fill) false := by
      rw [← ofNat_zero_right, ← Nat.div_eq_of_lt hword, ← ofNat_add, hsum]
    refine ⟨Nat.zero_lt_succ 7, Nat.zero_lt_one, ?_⟩
    rw [pad, hmod, ← h.bits_eq, List.append_assoc, ← hbyte, ofBytes_append, Machine.toUInt8_eq,
      ofBytes_singleton, ofNat_uint8, ofNat_zero_left, List.append_nil]
  next hzero =>
    rw [pad_eq_self (by omega)]
    exact h

theorem Shows.use (h : m.Shows bits) {u : Use} (hu : u.outcome? bits = some (handed, rest)) :
    ∃ m', m.use? u = some (handed, m') ∧ m'.Shows rest := by
  have hlength := h.length
  have hfill := h.fill_lt
  cases u with
  | put value n =>
    rw [Use.outcome?] at hu
    split at hu <;> cases hu
    next hn =>
      obtain ⟨m', hput, hshown⟩ := h.put value hn
      refine ⟨m', ?_, hshown⟩
      rw [use?, hput]
      rfl
  | align =>
    cases hu
    exact ⟨_, rfl, h.align⟩
  | bytes data =>
    rw [Use.outcome?] at hu
    split at hu <;> cases hu
    next haligned =>
      have hzero : m.fill = 0 := by omega
      refine ⟨{ m with out := m.out ++ data }, ?_, hfill, h.word_lt, ?_⟩
      · rw [use?, putBytes?, if_pos hzero]
        rfl
      have hbits := h.bits_eq
      rw [hzero, ofNat_zero_left, List.append_nil] at hbits
      dsimp only
      rw [hzero, ofNat_zero_left, List.append_nil, ofBytes_append, hbits]
  | discard n =>
    rw [Use.outcome?] at hu
    split at hu <;> cases hu
    next hle =>
      have hn : n ≤ m.out.length := by omega
      have hwhole : 8 * n ≤ (ofBytes m.out).length := by
        rw [length_ofBytes]
        omega
      rw [use?, discard?, if_pos hn, ← h.bits_eq, List.take_append_of_le_length hwhole,
        List.drop_append_of_le_length hwhole, take_ofBytes, drop_ofBytes, pack_ofBytes]
      exact ⟨_, rfl, hfill, h.word_lt, rfl⟩

theorem Shows.uses (h : m.Shows bits) {uses : List Use} {handed : List (List UInt8)}
    (hu : replies? Use.outcome? bits uses = some (handed, rest)) :
    ∃ m', replies? Filling.use? m uses = some (handed, m') ∧ m'.Shows rest :=
  replies?_of_related (fun h hu => h.use hu) h hu

theorem Shows.eq_of_wrote (h : m.Shows bits) {w : BitWriter} (hw : w.Wrote bits) :
    m.out = w.waiting ∧ m.fill = w.fill ∧ m.word.toNat = w.partialBits := by
  have hfill : m.fill = w.fill := by
    have hlength := h.length
    have hlt := h.fill_lt
    have hwrote := hw.fill_eq
    omega
  have hbits := h.bits_eq.trans hw.written_eq.symm
  rw [BitWriter.written, ← hfill] at hbits
  have hwhole : (ofBytes m.out).length = (ofBytes w.waiting).length := by
    have hlengths := congrArg List.length hbits
    rwa [List.length_append, List.length_append, length_ofNat, length_ofNat,
      Nat.add_right_cancel_iff] at hlengths
  obtain ⟨hout, hword⟩ := List.append_inj hbits hwhole
  have hpartial := hw.partial_lt
  rw [← hfill] at hpartial
  exact ⟨ofBytes_inj hout, hfill, ofNat_inj h.word_lt hpartial hword⟩

theorem Shows.out_align (h : m.Shows bits) : m.align.out = pack bits := by
  have haligned := h.align
  have hlength := haligned.length
  have hfill := haligned.fill_lt
  have hmod := length_pad_mod bits
  have hzero : m.align.fill = 0 := by omega
  have hbits := haligned.bits_eq
  rw [hzero, ofNat_zero_left, List.append_nil, ← ofBytes_pack] at hbits
  exact ofBytes_inj hbits

end Filling

/-- What is handed out, with what waits after a last alignment, is a bit string of all fields end to
end, filled with zero bits. The machine writes the same, never loses a bit, and holds fewer than 8
bits between calls. A reader that reads the same widths and aligns at the same places finds each
field less its high bits, the same bytes, and nothing else. -/
theorem fields_read_back {uses : List Use} {handed : List (List UInt8)} {rest : List Bool}
    (h : replies? Use.outcome? [] uses = some (handed, rest)) :
    ∃ w m, replies BitWriter.use .empty uses = (handed, w) ∧
      replies? Filling.use? {} uses = some (handed, m) ∧
      m.fill < 8 ∧ m.word.toNat < 2 ^ m.fill ∧ m.fill = w.fill ∧ m.word.toNat = w.partialBits ∧
      m.out = w.waiting ∧ m.align.out = w.align.waiting ∧
      handed.flatten ++ w.align.waiting = pack (Use.packed uses) ∧
      ofBytes (handed.flatten ++ w.align.waiting) = pad (Use.packed uses) ∧
      ∃ r, replies Reading.use {} (.push (handed.flatten ++ w.align.waiting) ::
          uses.filterMap Use.asked) = (.done :: uses.filterMap Use.expected, r) ∧
        replies? Reading.use? {} (.push (handed.flatten ++ w.align.waiting) ::
          uses.filterMap Use.asked) = some (.done :: uses.filterMap Use.expected, r) ∧
        pad (Use.packed uses) = Use.packed uses ++ r.reader.unread := by
  obtain ⟨w, hw, hwrote⟩ := BitWriter.wrote_empty.uses h
  obtain ⟨m, hm, hshown⟩ := Filling.shows_start.uses h
  have hsame := hshown.eq_of_wrote hwrote
  have haligned := hshown.align.eq_of_wrote hwrote.align
  have hlaid := Use.ofBytes_append_outcomes h []
  rw [List.nil_append, ofBytes_nil, List.nil_append] at hlaid
  have hstream : handed.flatten ++ w.align.waiting = pack (Use.packed uses) := by
    rw [← haligned.1, hshown.out_align, ← pack_ofBytes_append, hlaid, Use.packed]
  have hpadded : ofBytes (handed.flatten ++ w.align.waiting) = pad (Use.packed uses) := by
    rw [hstream, ofBytes_pack]
  refine ⟨w, m, hw, hm, hshown.fill_lt, hshown.word_lt, hsame.2.1, hsame.2.2, hsame.1, haligned.1,
    hstream, hpadded, ?_⟩
  rw [hstream]
  obtain ⟨behind, -, hbehind⟩ := exists_fill (Use.packed uses)
  have hpush : BitQueue.use? {} (.push (pack (Use.packed uses))) =
      some (.done, { ahead := pad (Use.packed uses) }) := by
    rw [BitQueue.use?, ofBytes_pack]
    rfl
  obtain ⟨q, hq, hahead⟩ := Use.asked_read_all h [] (q := { ahead := pad (Use.packed uses) })
    hbehind (length_pad_mod _)
  have hall := replies?_cons_eq_some.mpr ⟨_, _, _, hpush, hq, rfl⟩
  obtain ⟨r, huses, hmachine, hshows⟩ := Reading.shows_start.uses hall
  refine ⟨r, huses, hmachine, ?_⟩
  rw [hbehind, hshows.holds.2, hahead]

/-- Bits above a field, a field a word wide, one of no bits, and bytes handed out in between. -/
theorem fields_read_back_of_mixed_uses :
    ∃ w r, replies BitWriter.use .empty [.put 0xffffffff 5, .put 0xdeadbeef 32, .discard 3,
        .put 9 0, .align, .bytes [1, 2, 3], .discard 4, .put 0x2ff 9, .align, .put 0xf0f 7] =
        ([[], [], [0xff, 0xdd, 0xb7], [], [], [], [0xd5, 0x1b, 1, 2], [], [], []], w) ∧
      [0xff, 0xdd, 0xb7] ++ [0xd5, 0x1b, 1, 2] ++ w.align.waiting =
        [0xff, 0xdd, 0xb7, 0xd5, 0x1b, 1, 2, 3, 0xff, 0, 0x0f] ∧
      replies Reading.use {} [.push [0xff, 0xdd, 0xb7, 0xd5, 0x1b, 1, 2, 3, 0xff, 0, 0x0f],
        .bits 5, .bits 32, .bits 0, .align, .copy 3, .bits 9, .align, .bits 7] =
        ([.done, .number (some 0x1f), .number (some 0xdeadbeef), .number (some 0), .done,
          .bytes [1, 2, 3], .number (some 0xff), .done, .number (some 0x0f)], r) := by
  have h : replies? Use.outcome? [] [.put 0xffffffff 5, .put 0xdeadbeef 32, .discard 3,
        .put 9 0, .align, .bytes [1, 2, 3], .discard 4, .put 0x2ff 9, .align, .put 0xf0f 7] =
      some ([[], [], [0xff, 0xdd, 0xb7], [], [], [], [0xd5, 0x1b, 1, 2], [], [], []],
        ofBytes [3, 0xff, 0] ++ ofNat 7 0x0f) := by
    decide +kernel
  have hpack : pack (Use.packed [.put 0xffffffff 5, .put 0xdeadbeef 32, .discard 3,
        .put 9 0, .align, .bytes [1, 2, 3], .discard 4, .put 0x2ff 9, .align, .put 0xf0f 7]) =
      [0xff, 0xdd, 0xb7, 0xd5, 0x1b, 1, 2, 3, 0xff, 0, 0x0f] := by
    decide +kernel
  obtain ⟨w, m, hw, -, -, -, -, -, -, -, hstream, -, r, hr, -⟩ := fields_read_back h
  rw [hpack] at hstream
  rw [hstream] at hr
  exact ⟨w, r, hw, hstream, hr⟩

end Conduit
