import Conduit.Proofs.Bits.Rewinding
import Conduit.Proofs.Machine.Checked
import Conduit.Proofs.Replies

namespace Conduit

open Bits

namespace Machine

theorem toNat_lowest (word : UInt32) {n : Nat} (hn : n < 32) :
    (lowest word n).toNat = word.toNat % 2 ^ n := by
  have hpow : 2 ^ n < 2 ^ 32 := Nat.pow_lt_pow_right (by decide) hn
  have hone : ((1 : UInt32) <<< UInt32.ofNat n).toNat = 2 ^ n := by
    rw [UInt32.toNat_shiftLeft, UInt32.toNat_ofNat_of_lt' (Nat.lt_trans hn (by decide)),
      Nat.mod_eq_of_lt hn, UInt32.toNat_one, Nat.one_shiftLeft, Nat.mod_eq_of_lt hpow]
  have hle : (1 : UInt32) ≤ 1 <<< UInt32.ofNat n := by
    rw [UInt32.le_iff_toNat_le, hone]
    exact Nat.two_pow_pos n
  rw [lowest, UInt32.toNat_and, UInt32.toNat_sub_of_le _ _ hle, hone]
  exact Nat.and_two_pow_sub_one_eq_mod _ n

theorem toNat_shiftUp {word : UInt32} {amount : Nat} (ha : amount < 32)
    (hw : word.toNat * 2 ^ amount < 2 ^ 32) :
    (word <<< UInt32.ofNat amount).toNat = word.toNat * 2 ^ amount := by
  rw [UInt32.toNat_shiftLeft, UInt32.toNat_ofNat_of_lt' (Nat.lt_trans ha (by decide)),
    Nat.mod_eq_of_lt ha, Nat.shiftLeft_eq, Nat.mod_eq_of_lt hw]

theorem toNat_or_shiftUp {low high : UInt32} {amount : Nat} (ha : amount < 32)
    (hl : low.toNat < 2 ^ amount) (hh : high.toNat * 2 ^ amount < 2 ^ 32) :
    (low ||| high <<< UInt32.ofNat amount).toNat = low.toNat + high.toNat * 2 ^ amount := by
  rw [UInt32.toNat_or, toNat_shiftUp ha hh, Nat.or_comm, Nat.mul_comm,
    ← Nat.two_pow_add_eq_or_of_lt hl, Nat.add_comm]

end Machine

namespace BitReader

/-- A field of at most 32 bits can be gathered in a word. -/
theorem gatherWord?_eq {buffer : Array UInt8} {n position got : Nat} {word : UInt32}
    (hn : n ≤ 32) (hg : got ≤ n) (hw : word.toNat < 2 ^ got) :
    gatherWord? buffer n position got word =
      (gather? buffer n position got word.toNat).map fun (value, position) =>
        (UInt32.ofNat value, position) := by
  fun_induction gatherWord? buffer n position got word with
  | case1 position got word hlt hnone =>
    rw [gather?, if_pos hlt, hnone]
    rfl
  | case2 position got word hlt byte hbyte piece bits hshift =>
    rw [Machine.shiftUp?, if_pos (by omega)] at hshift
    cases hshift
  | case3 position got word hlt byte hbyte piece bits placed hshift ih =>
    have hgot : got < 32 := by omega
    have hpiece : piece ≤ 8 := by omega
    have hoffset : position % 8 < 32 := by omega
    rw [Machine.shiftUp?, if_pos hgot] at hshift
    cases hshift
    have hbits : bits.toNat = byte.toNat >>> (position % 8) % 2 ^ piece := by
      rw [Machine.toNat_lowest _ (by omega), UInt32.toNat_shiftRight,
        UInt32.toNat_ofNat_of_lt' (Nat.lt_trans hoffset (by decide)), Nat.mod_eq_of_lt hoffset,
        UInt8.toNat_toUInt32]
    have hlow : bits.toNat < 2 ^ piece := by
      rw [hbits]
      exact Nat.mod_lt _ (Nat.two_pow_pos _)
    have hsum : got + piece ≤ n := by omega
    have hfits : word.toNat + bits.toNat * 2 ^ got < 2 ^ (got + piece) := by
      rw [Nat.pow_add, Nat.mul_comm (2 ^ got)]
      calc word.toNat + bits.toNat * 2 ^ got < (bits.toNat + 1) * 2 ^ got := by
            rw [Nat.add_mul]
            omega
        _ ≤ 2 ^ piece * 2 ^ got := Nat.mul_le_mul_right _ hlow
    have hroom : 2 ^ (got + piece) ≤ 2 ^ 32 :=
      Nat.pow_le_pow_right (by decide) (hsum.trans hn)
    have hroom' : bits.toNat * 2 ^ got < 2 ^ 32 := by omega
    have hword := Machine.toNat_or_shiftUp hgot hw hroom'
    have hnext : gather? buffer n position got word.toNat = gather? buffer n (position + piece)
        (got + piece) (word ||| bits <<< UInt32.ofNat got).toNat := by
      conv_lhs => rw [gather?, if_pos hlt, hbyte]
      rw [hword, hbits, ← Nat.shiftLeft_eq]
    rw [ih hsum (hword ▸ hfits), hnext]
  | case4 position got word hge =>
    rw [gather?, if_neg hge]
    simp

theorem Holds.bits?_eq {r : BitReader} {bits : List Bool} (h : r.Holds bits) {n : Nat}
    (hn : n ≤ bits.length) :
    r.bits? n = some (Bits.toNat (bits.take n), ⟨r.buffer, r.position + n⟩) := by
  have hl := h.length
  have hp := h.1
  rw [BitReader.bits?, dif_pos (by omega), fieldAt_eq_toNat, ← unread, h.2]

theorem Holds.copyBytes_eq {r : BitReader} {bits : List Bool} (h : r.Holds bits)
    (hb : bits.length % 8 = 0) (n : Nat) :
    r.copyBytes n =
      (Bits.pack (bits.take (8 * n)), ⟨r.buffer, r.position + min (8 * n) bits.length⟩) := by
  obtain ⟨data, rfl⟩ := Bits.exists_ofBytes hb
  obtain ⟨rest, hcopy, hrest⟩ := h.copyBytes n
  rw [Bits.take_ofBytes, Bits.pack_ofBytes, hcopy]
  have hread : Bits.ofBytes data = Bits.ofBytes (data.take n) ++ Bits.ofBytes (data.drop n) := by
    rw [← Bits.ofBytes_append, List.take_append_drop]
  rw [hread] at h
  have hb : rest.buffer = r.buffer := by
    rw [← congrArg (·.2.buffer) hcopy]
    rfl
  rw [h.eq_skip hrest hb, Bits.length_ofBytes, Bits.length_ofBytes, List.length_take,
    ← Nat.mul_min_mul_left]

theorem Holds.field? {r : BitReader} {bits : List Bool} (h : r.Holds bits) {n : Nat}
    (hn : n ≤ 32) :
    r.field? n =
      if bits.length < n then some (none, r)
      else some (some (Bits.toNat (bits.take n)), ⟨r.buffer, r.position + n⟩) := by
  rw [BitReader.field?, h.within.available?, h.available]
  simp only [Option.bind_eq_bind, Option.bind_some]
  split
  · rfl
  next hlong =>
    have hle : n ≤ bits.length := Nat.not_lt.mp hlong
    have hlt : Bits.toNat (bits.take n) < 2 ^ 32 := by
      have := Bits.toNat_lt (bits.take n)
      rw [List.length_take_of_le hle] at this
      exact this.trans_le (Nat.pow_le_pow_right (by decide) hn)
    rw [gatherWord?_eq hn (Nat.zero_le n) (by decide), UInt32.toNat_zero,
      gather?_eq_some h (Nat.zero_le n) (by omega)]
    simp only [Nat.sub_zero, Nat.pow_zero, Nat.mul_one, Nat.zero_add, Option.map_some,
      Option.bind_some, within?_eq_some (h.skip hle).within,
      UInt32.toNat_ofNat_of_lt' hlt]
    rfl

end BitReader

open BitReader (Use Answer)

/-- A reader, and the positions taken since the bytes in front were last released. -/
structure Reading where
  reader : BitReader := .empty
  marks : List Nat := []

namespace Reading

/-- One use, in which the caller is trusted. -/
def use (m : Reading) : Use → Answer × Reading
  | .push data => (.done, ⟨m.reader.push data, m.marks⟩)
  | .bits n =>
    match m.reader.bits? n with
    | none => (.number none, m)
    | some (value, reader) => (.number (some value), ⟨reader, m.marks⟩)
  | .align => (.done, ⟨m.reader.align, m.marks⟩)
  | .copy n =>
    let (data, reader) := m.reader.copyBytes n
    (.bytes data, ⟨reader, m.marks⟩)
  | .mark => (.done, ⟨m.reader, m.reader.position :: m.marks⟩)
  | .rewind back => (.done, ⟨m.reader.rewind (m.marks.getD back 0), m.marks⟩)
  | .compact => (.done, ⟨m.reader.compact, []⟩)
  | .unpush n => (.done, ⟨m.reader.unpush n, m.marks⟩)
  | .clear => (.done, {})

def use? (m : Reading) : Use → Option (Answer × Reading)
  | .push data => do return (.done, ⟨← m.reader.push? data, m.marks⟩)
  | .bits n => do
    let (value, reader) ← m.reader.field? n
    return (.number value, ⟨reader, m.marks⟩)
  | .align => do return (.done, ⟨← m.reader.align?, m.marks⟩)
  | .copy n => do
    let (data, reader) ← m.reader.copy? n
    return (.bytes data, ⟨reader, m.marks⟩)
  | .mark => some (.done, ⟨m.reader, m.reader.position :: m.marks⟩)
  | .rewind back => do
    let mark ← m.marks[back]?
    return (.done, ⟨← m.reader.rewind? mark, m.marks⟩)
  | .compact => do return (.done, ⟨← m.reader.compact?, []⟩)
  | .unpush n => do return (.done, ⟨← m.reader.unpush? n, m.marks⟩)
  | .clear => some (.done, {})

/-- All that is buffered, as a bit string with a place in it. -/
def queue (m : Reading) : BitQueue where
  passed := (ofBytes m.reader.buffer.toList).take m.reader.position
  ahead := m.reader.unread
  marks := m.marks

/-- The reader is within its buffer and can be used as this bit string. -/
structure Shows (m : Reading) (q : BitQueue) : Prop where
  within : m.reader.Within
  more : m.queue.Extends q

variable {m : Reading} {q q' : BitQueue} {a : Answer}

theorem shows_start : Shows {} {} :=
  ⟨Nat.zero_le _, .refl _⟩

theorem Shows.holds (h : m.Shows q) : m.reader.Holds q.ahead :=
  ⟨h.within, h.more.1⟩

theorem shows_queue (hm : m.reader.Within) : m.Shows m.queue :=
  ⟨hm, .refl _⟩

theorem length_passed (hm : m.reader.Within) : m.queue.passed.length = m.reader.position := by
  rw [queue, List.length_take, length_ofBytes, Array.length_toList]
  exact Nat.min_eq_left hm

section Operations

theorem shows_push (hm : m.reader.Within) (data : List UInt8) :
    Shows ⟨m.reader.push data, m.marks⟩
      { m.queue with ahead := m.queue.ahead ++ ofBytes data } := by
  have hpushed := hm.holds.push data
  have hb : (m.reader.push data).buffer.toList = m.reader.buffer.toList ++ data :=
    Array.toList_appendList
  have hpassed : (ofBytes (m.reader.push data).buffer.toList).take m.reader.position =
      m.queue.passed := by
    rw [hb, ofBytes_append, List.take_append_of_le_length]
    · rfl
    · rwa [length_ofBytes, Array.length_toList]
  refine ⟨hpushed.within, hpushed.2, [], [], hpassed, ?_⟩
  simp [queue]

theorem shows_pass (hm : m.reader.Within) {n : Nat} (hn : n ≤ m.queue.ahead.length) :
    Shows ⟨⟨m.reader.buffer, m.reader.position + n⟩, m.marks⟩ (m.queue.pass n) := by
  have hnext := hm.holds.skip hn
  have hq : queue ⟨⟨m.reader.buffer, m.reader.position + n⟩, m.marks⟩ = m.queue.pass n := by
    simp only [queue, BitQueue.pass, BitReader.unread, List.take_add, List.drop_drop]
  rw [← hq]
  exact shows_queue hnext.within

theorem shows_align (hm : m.reader.Within) :
    Shows ⟨m.reader.align, m.marks⟩ (m.queue.pass (m.queue.ahead.length % 8)) := by
  have hholds : m.reader.Holds m.queue.ahead := hm.holds
  have hmod := hholds.position_mod
  have halign : m.reader.align =
      ⟨m.reader.buffer, m.reader.position + m.queue.ahead.length % 8⟩ := by
    rw [BitReader.align]
    congr 1
    omega
  rw [halign]
  exact shows_pass hm (Nat.mod_le _ _)

/-- If there are fewer bits ahead than are to be copied, all of them are passed. -/
theorem shows_copy (hm : m.reader.Within) (n : Nat) :
    Shows ⟨⟨m.reader.buffer, m.reader.position + min (8 * n) m.queue.ahead.length⟩, m.marks⟩
      (m.queue.pass (8 * n)) := by
  have hpass : m.queue.pass (8 * n) = m.queue.pass (min (8 * n) m.queue.ahead.length) := by
    rw [BitQueue.pass, BitQueue.pass, ← List.take_eq_take_min, ← List.drop_eq_drop_min]
  rw [hpass]
  exact shows_pass hm (Nat.min_le_right _ _)

theorem shows_mark (hm : m.reader.Within) :
    Shows ⟨m.reader, m.reader.position :: m.marks⟩
      { m.queue with marks := m.queue.passed.length :: m.queue.marks } := by
  rw [length_passed hm]
  exact shows_queue (m := ⟨m.reader, m.reader.position :: m.marks⟩) hm

theorem shows_rewind (hm : m.reader.Within) {mark : Nat} (hle : mark ≤ m.reader.position) :
    Shows ⟨m.reader.rewind mark, m.marks⟩ (m.queue.goBack mark) := by
  have hq : queue ⟨m.reader.rewind mark, m.marks⟩ = m.queue.goBack mark := by
    simp only [queue, BitQueue.goBack, BitReader.rewind, BitReader.unread]
    congr 1
    · rw [List.take_take, Nat.min_eq_left hle]
    · have hsplit := List.take_append_drop (m.reader.position - mark)
        ((ofBytes m.reader.buffer.toList).drop mark)
      rw [List.drop_drop, Nat.add_sub_cancel' hle] at hsplit
      rw [List.drop_take, hsplit]
  rw [← hq]
  exact shows_queue (hle.trans hm)

theorem shows_compact (hm : m.reader.Within) :
    Shows ⟨m.reader.compact, []⟩ { ahead := m.queue.ahead } := by
  have hcut := hm.holds.compact
  have hmore := (queue ⟨m.reader.compact, []⟩).extends_cut
  have hahead : (queue ⟨m.reader.compact, []⟩).ahead = m.queue.ahead := hcut.2
  rw [hahead] at hmore
  exact ⟨hcut.within, hmore⟩

theorem shows_unpush (hm : m.reader.Within) {n : Nat} (hn : n ≤ m.reader.untouched) :
    Shows ⟨m.reader.unpush n, m.marks⟩
      { m.queue with ahead := m.queue.ahead.take (m.queue.ahead.length - 8 * n) } := by
  have hw := (hm.unpush? hn).2
  have hlength := hm.holds.length
  have hb : (m.reader.unpush n).buffer.toList =
      m.reader.buffer.toList.take (m.reader.buffer.size - n) := by
    simp only [BitReader.unpush, Array.take_eq_extract, Array.toList_extract,
      List.extract_eq_take_drop, List.drop_zero, Nat.sub_zero]
  rw [BitReader.untouched] at hn
  rw [BitReader.Within] at hm
  have hq : queue ⟨m.reader.unpush n, m.marks⟩ =
      { m.queue with ahead := m.queue.ahead.take (m.queue.ahead.length - 8 * n) } := by
    simp only [queue, BitReader.unread, hb, ← take_ofBytes] at hlength ⊢
    congr 1
    · have hle : m.reader.position ≤ 8 * (m.reader.buffer.size - n) := by omega
      rw [List.take_take]
      exact congrArg (List.take · _) (Nat.min_eq_left hle)
    · rw [List.drop_take, hlength]
      change List.take (_ - m.reader.position) (List.drop m.reader.position _) = _
      congr 1
      omega
  rw [← hq]
  exact shows_queue hw

end Operations

/-- A use that is allowed is answered by the reader and by the machine, which does not stop. -/
theorem use_queue (hm : m.reader.Within) {u : Use} (hu : m.queue.use? u = some (a, q)) :
    ∃ m', m.use u = (a, m') ∧ m.use? u = some (a, m') ∧ m'.Shows q := by
  have hholds : m.reader.Holds m.queue.ahead := hm.holds
  have hmod := hholds.position_mod
  cases u with
  | push data =>
    cases hu
    refine ⟨_, rfl, ?_, shows_push hm data⟩
    rw [use?, hm.push? data]
    rfl
  | bits n =>
    rw [BitQueue.use?] at hu
    split at hu
    · cases hu
    next hn =>
      have hfield := hholds.field? (Nat.not_lt.mp hn)
      rw [use, use?, hfield]
      split at hu <;> cases hu
      next hshort =>
        rw [hholds.bits?_eq_none hshort, if_pos hshort]
        exact ⟨m, rfl, rfl, shows_queue hm⟩
      next hlong =>
        have hle := Nat.not_lt.mp hlong
        rw [hholds.bits?_eq hle, if_neg hlong]
        exact ⟨_, rfl, rfl, shows_pass hm hle⟩
  | align =>
    cases hu
    refine ⟨_, rfl, ?_, shows_align hm⟩
    rw [use?, hm.align?]
    rfl
  | copy n =>
    rw [BitQueue.use?] at hu
    split at hu <;> cases hu
    next haligned =>
      have hposition : m.reader.position % 8 = 0 := by omega
      rw [use, use?, (hm.copy? hposition n).1, hholds.copyBytes_eq haligned]
      exact ⟨_, rfl, rfl, shows_copy hm n⟩
  | mark =>
    cases hu
    exact ⟨_, rfl, rfl, shows_mark hm⟩
  | rewind back =>
    rw [BitQueue.use?] at hu
    split at hu
    · cases hu
    next mark hmark =>
      split at hu <;> cases hu
      next hle =>
        rw [length_passed hm] at hle
        have hmark : m.marks[back]? = some mark := hmark
        refine ⟨⟨m.reader.rewind mark, m.marks⟩, ?_, ?_, shows_rewind hm hle⟩
        · rw [use, List.getD_eq_getElem?_getD, hmark]
          rfl
        · have hback : m.reader.rewind? mark = some (m.reader.rewind mark) :=
            BitReader.within?_eq_some (hle.trans hm)
          rw [use?, hmark]
          simp only [Option.bind_eq_bind, Option.bind_some, hback]
          rfl
  | compact =>
    cases hu
    refine ⟨_, rfl, ?_, shows_compact hm⟩
    rw [use?, hm.compact?]
    rfl
  | unpush n =>
    rw [BitQueue.use?, ← hholds.untouched] at hu
    split at hu <;> cases hu
    next hn =>
      refine ⟨_, rfl, ?_, shows_unpush hm hn⟩
      rw [use?, (hm.unpush? hn).1]
      rfl
  | clear =>
    cases hu
    exact ⟨_, rfl, rfl, shows_start⟩

theorem Shows.use (h : m.Shows q) {u : Use} (hu : q.use? u = some (a, q')) :
    ∃ m', m.use u = (a, m') ∧ m.use? u = some (a, m') ∧ m'.Shows q' := by
  obtain ⟨r, hr, hmore⟩ := h.more.use hu
  obtain ⟨m', huse, hmachine, hshown⟩ := use_queue h.within hr
  exact ⟨m', huse, hmachine, hshown.within, hshown.more.trans hmore⟩

theorem Shows.uses (h : m.Shows q) {uses : List Use} {answers : List Answer}
    (hq : replies? BitQueue.use? q uses = some (answers, q')) :
    ∃ m', replies Reading.use m uses = (answers, m') ∧
      replies? Reading.use? m uses = some (answers, m') ∧ m'.Shows q' := by
  induction uses generalizing m q answers with
  | nil =>
    cases hq
    exact ⟨m, rfl, rfl, h⟩
  | cons u uses ih =>
    obtain ⟨answer, mid, rest, hanswer, hrest, rfl⟩ := replies?_cons_eq_some.mp hq
    obtain ⟨m₁, huse, hmachine, hmid⟩ := h.use hanswer
    obtain ⟨m₂, huses, hmachines, hend⟩ := ih hmid hrest
    refine ⟨m₂, ?_, replies?_cons_eq_some.mpr ⟨answer, m₁, rest, hmachine, hmachines, rfl⟩, hend⟩
    rw [replies_cons, huse, huses]

end Reading

/-- A reader is a queue of bits. As long as it is used as is allowed, in whatever order, it gives
the answers of a bit string with a place in it, and so does the machine, which never leaves its
buffer and never takes more from less. To release the bytes in front changes no answer. -/
theorem reader_is_queue {uses : List Use} {answers : List Answer} {q : BitQueue}
    (h : replies? BitQueue.use? {} uses = some (answers, q)) :
    ∃ m, replies Reading.use {} uses = (answers, m) ∧
      replies? Reading.use? {} uses = some (answers, m) ∧
      m.reader.position ≤ 8 * m.reader.buffer.size ∧ m.reader.unread = q.ahead ∧
      m.reader.available? = some q.ahead.length ∧
      m.reader.untouched? = some (q.ahead.length / 8) ∧
      ∀ before after, uses = before ++ .compact :: after → ∃ m',
        replies? Reading.use? {} (before ++ after) =
          some (answers.eraseIdx before.length, m') ∧ m'.reader.unread = q.ahead := by
  obtain ⟨m, huses, hmachine, hshown⟩ := Reading.shows_start.uses h
  refine ⟨m, huses, hmachine, hshown.within, hshown.holds.2, ?_, ?_, ?_⟩
  · rw [hshown.within.available?, hshown.holds.available]
  · rw [hshown.within.untouched?, hshown.holds.untouched]
  · rintro before after rfl
    obtain ⟨r, hr, hmore⟩ := BitQueue.replies?_uncut h
    obtain ⟨m', -, hmachine', hshown'⟩ := Reading.shows_start.uses hr
    exact ⟨m', hmachine', hshown'.holds.2.trans hmore.1⟩

/-- Fields across bytes and a word wide, a field that is cut short, and a place gone back to. -/
theorem reader_is_queue_of_mixed_uses :
    ∃ m, replies Reading.use {} [.push [0xb5, 0x12, 0xff], .bits 5, .mark, .bits 12, .bits 8,
        .rewind 0, .bits 3, .compact, .mark, .push [7, 0x80, 1, 2], .bits 32, .align, .unpush 1,
        .bits 9, .rewind 0, .bits 8, .copy 2] =
      ([.done, .number (some 21), .done, .number (some 0x895), .number none, .done,
        .number (some 5), .done, .done, .done, .number (some 0x8007ff12), .done, .done,
        .number none, .done, .number (some 0x12), .bytes [0xff, 7]], m) := by
  have h : replies? BitQueue.use? {} [.push [0xb5, 0x12, 0xff], .bits 5, .mark, .bits 12, .bits 8,
        .rewind 0, .bits 3, .compact, .mark, .push [7, 0x80, 1, 2], .bits 32, .align, .unpush 1,
        .bits 9, .rewind 0, .bits 8, .copy 2] =
      some ([.done, .number (some 21), .done, .number (some 0x895), .number none, .done,
        .number (some 5), .done, .done, .done, .number (some 0x8007ff12), .done, .done,
        .number none, .done, .number (some 0x12), .bytes [0xff, 7]],
        ⟨ofBytes [0x12, 0xff, 7], ofBytes [0x80, 1], [0]⟩) := by
    decide +kernel
  obtain ⟨m, hm, -⟩ := reader_is_queue h
  exact ⟨m, hm⟩

end Conduit
