import Conduit.Proofs.Compression.Compressing
import Conduit.Proofs.Compression.Expanding
import Conduit.Proofs.Deflate.Framing

namespace Conduit

open BitParser Bits Deflate Relation

section Frame

theorem ofBigEndian_bigEndian (width n : Nat) :
    Octets.ofBigEndian (Octets.bigEndian width n) = n % 256 ^ width := by
  rw [Octets.ofBigEndian, Octets.bigEndian, List.foldl_reverse]
  induction width generalizing n with
  | zero => rw [Nat.pow_zero, Nat.mod_one]; rfl
  | succ width ih =>
    rw [Octets.littleEndian, List.foldr_cons, ih, Nat.pow_succ', Nat.mod_mul, UInt8.toNat_ofNat',
      Nat.add_comm]

theorem ofBigEndian_value_update_start (bytes : List UInt8) :
    Octets.ofBigEndian (Octets.bigEndian 4 (Adler.start.update bytes).value.toNat) =
      Adler.checksum bytes := by
  have hlt : (Adler.start.update bytes).value.toNat < 256 ^ 4 := UInt32.toNat_lt _
  rw [ofBigEndian_bigEndian, Nat.mod_eq_of_lt hlt, Adler.value_update_start]

/-- The flags fit a byte, complete the check and announce no dictionary. -/
theorem flagByte_spec (level : Nat) :
    flagByte level < 2 ^ 8 ∧ (methodByte * 256 + flagByte level) % 31 = 0 ∧
      flagByte level / 32 % 2 = 0 := by
  have hclass : effortClass level < 4 := by
    unfold effortClass
    split <;> decide
  have hall : ∀ e < 4, e * 64 + (31 - (methodByte * 256 + e * 64) % 31) % 31 < 2 ^ 8 ∧
      (methodByte * 256 + (e * 64 + (31 - (methodByte * 256 + e * 64) % 31) % 31)) % 31 = 0 ∧
      (e * 64 + (31 - (methodByte * 256 + e * 64) % 31) % 31) / 32 % 2 = 0 := by decide
  exact hall _ hclass

theorem opens_frameHeader (level : Nat) :
    Opens (UInt8.ofNat methodByte) (UInt8.ofNat (flagByte level)) := by
  obtain ⟨hlt, hcheck, hdictionary⟩ := flagByte_spec level
  have hmethod : (UInt8.ofNat methodByte).toNat = methodByte := by decide
  have hflags : (UInt8.ofNat (flagByte level)).toNat = flagByte level :=
    UInt8.toNat_ofNat_of_lt' hlt
  exact ⟨by rw [hmethod]; decide, by rw [hmethod]; decide, by rwa [hmethod, hflags],
    by rwa [hflags]⟩

theorem yields_readFrameHeader (level : Nat) (tail : List Bool) :
    readFrameHeader.Yields (ofBytes (frameHeader level) ++ tail) () tail :=
  (opens_frameHeader level).yields tail

end Frame

section Reading

variable {level : Nat} {framed : Bool} {input : List UInt8} {blocks : List Format.Block}

theorem halts_afterBlock {r : BitReader} {history : Array UInt8} {fill : List Bool}
    (hf : fill.length < 8) (hr : r.Holds (fill ++ ofBytes (back framed history.toList))) :
    ∃ r' bits, Halts framed ⟨r, .afterBlock framed true, history⟩ .ended ⟨r', .ended, history⟩ ∧
      r'.Holds bits ∧ bits.length < 8 := by
  cases framed with
  | false => exact ⟨r, fill, ⟨by simp, _, .refl, rfl⟩, by simpa [back] using hr, hf⟩
  | true =>
    rw [← List.append_nil (back true history.toList)] at hr
    obtain ⟨r', hr', htick⟩ := tick_trailer true history hr hf rfl
    refine ⟨r', [], ⟨by simp, _, .refl, ?_⟩, hr', by decide⟩
    rw [Stage.afterBlock, if_pos rfl, if_pos rfl, htick]
    exact if_pos (ofBigEndian_value_update_start history.toList)

theorem leads_front {whole : List UInt8} {bits : List Bool}
    (h : ofBytes whole = ofBytes (front level framed) ++ bits) :
    ∃ r, r.Holds bits ∧
      ReflTransGen (Leads framed) (opening framed whole) ⟨r, .blockHead, #[]⟩ := by
  have hr : (BitReader.empty.push whole).Holds (ofBytes (front level framed) ++ bits) := by
    rw [← h]
    exact BitReader.holds_empty.push whole
  cases framed with
  | false => exact ⟨_, hr, .refl⟩
  | true =>
    obtain ⟨r, hr', ht⟩ := reading_of_yields (yields_readFrameHeader level bits) hr _
    exact ⟨r, hr', .single (Or.inl ((step_frameHeader true .start 0 _ _ _).trans ht))⟩

/-- Reading the stream for an input ends with that input, within the last byte of the stream. -/
theorem halts_encode {whole : List UInt8} (h : encode level framed input = some whole) :
    ∃ e bits, Halts framed (opening framed whole) .ended e ∧ e.history.toList = input ∧
      e.reader.Holds bits ∧ bits.length < 8 := by
  obtain ⟨blocks, hencode, hne, hadds⟩ := encode_spec level framed input
  have hwhole := Option.some.inj (h.symm.trans hencode)
  obtain ⟨fill, hfill, hpad⟩ :=
    exists_fill (Format.streamBits (ofBytes (front level framed)) blocks)
  have hbits : ofBytes whole = Format.streamBits (ofBytes (front level framed)) blocks ++
      (fill ++ ofBytes (back framed input)) := by
    rw [hwhole, ofBytes_append, ofBytes_pack, hpad, List.append_assoc]
  obtain ⟨tail, htail⟩ := streamBits_eq blocks (ofBytes (front level framed))
  have hfront : ofBytes whole =
      ofBytes (front level framed) ++ (tail ++ (fill ++ ofBytes (back framed input))) := by
    rw [hbits, htail, List.append_assoc]
  obtain ⟨r, hr, hleads⟩ := leads_front hfront
  obtain ⟨r', history, hr', hhistory, hblocks⟩ := leads_stream framed #[] hne hadds.legal
    hadds.expands hr (hfront.symm.trans hbits)
    (by rw [← hfront, length_ofBytes, Nat.mul_mod_right])
  rw [List.nil_append] at hhistory
  rw [← hhistory] at hr'
  obtain ⟨e, bits, hhalts, hbits, hlength⟩ := halts_afterBlock hfill hr'
  exact ⟨_, bits, .of_leads hleads (.of_leads hblocks hhalts), hhistory, hbits, hlength⟩

end Reading

section RoundTrip

variable {level : Nat} {raw : Bool} {input whole : List UInt8}

def Session.decompressing (level : Nat) (raw : Bool) : Session :=
  ⟨⟨.portable, .decompress, level, raw⟩, .decompressor (.start !raw), false, 0, false⟩

theorem decompressAll_eq (level' : Nat) (hwhole : encode level (!raw) input = some whole)
    {chunk : Nat} (hc : chunk ≤ Octets.maxSize) :
    ((Session.decompressing level' raw).decompressAll whole chunk).1 = .ok input := by
  obtain ⟨sink, hsink, hlasts, hout⟩ := Sink.exists_whole hc
  have hcarries : Line.Carries ⟨.decompressing level' raw, sink⟩ (.decompressor (.start !raw))
      (opening (!raw) whole).history.toList := ⟨⟨rfl, rfl, rfl⟩, hlasts, congrArg Array.toList hout⟩
  obtain ⟨e, -, hhalts, he, -⟩ := halts_encode hwhole
  have hexpands := hcarries.expands (tracks_start (!raw) whole)
  have hmode : (Session.decompressing level' raw).profile.mode = .decompress := rfl
  rw [Session.decompressAll, if_neg (not_not_intro hmode), hsink]
  dsimp only
  generalize Line.expand _ whole = result at hexpands ⊢
  cases hexpands with
  | whole halts carries =>
    obtain ⟨-, rfl⟩ := hhalts.unique halts
    exact he ▸ carries.settle
  | broken halts reason _ _ =>
    obtain ⟨rfl, -⟩ := hhalts.unique halts
    cases reason

/-- A message that is compressed and decompressed again, in chunks of any sizes, is as it was. -/
theorem compression_round_trip (input : List UInt8) {level : Nat} (hl : level ≤ Session.maxLevel)
    (raw : Bool) (level' : Nat) {chunk chunk' : Nat} (hc : chunk ≤ Octets.maxSize)
    (hc' : chunk' ≤ Octets.maxSize) :
    ∃ c d whole, Session.start ⟨.portable, .compress, level, raw⟩ = .ok c ∧
      Session.start ⟨.portable, .decompress, level', raw⟩ = .ok d ∧
      (c.compressAll input chunk).1 = .ok whole ∧ (d.decompressAll whole chunk').1 = .ok input := by
  obtain ⟨blocks, hwhole, -⟩ := encode_spec level (!raw) input
  exact ⟨.compressing level raw, .decompressing level' raw, _, start_compressing hl raw, rfl,
    compressAll_eq hwhole hc, decompressAll_eq level' hwhole hc'⟩

/-- A byte at a time on the way there, all at once on the way back. -/
theorem compression_round_trip_bytewise :
    ∃ c d whole, Session.start ⟨.portable, .compress, 6, false⟩ = .ok c ∧
      Session.start ⟨.portable, .decompress, 0, false⟩ = .ok d ∧
      (c.compressAll [97, 98, 99] 0).1 = .ok whole ∧
      (d.decompressAll whole 4096).1 = .ok [97, 98, 99] :=
  compression_round_trip [97, 98, 99] (by decide) false 0 (by decide) (by decide)

/-- A chunk that does not fit in a buffer is refused. -/
theorem round_trip_refused_beyond_maxSize :
    ¬ ∃ c d whole, Session.start ⟨.portable, .compress, 6, true⟩ = .ok c ∧
      Session.start ⟨.portable, .decompress, 6, true⟩ = .ok d ∧
      (c.compressAll [] 1).1 = .ok whole ∧ (d.decompressAll whole (2 ^ 63)).1 = .ok [] := by
  rintro ⟨c, d, whole, -, hd, -, h⟩
  cases hd
  cases h

end RoundTrip

end Conduit
