import Conduit.Proofs.Packet.Resynchronising

namespace Conduit

open Cipher (Block registerAfter enciphered deciphered)

namespace CipherSession

variable {backend : Backend}

theorem transform_snd (s : CipherSession) (data : List UInt8) :
    (s.transform data).2 =
      ⟨s.backend, s.direction, s.cipher, (s.transform data).2.feedback⟩ := by
  rw [transform_eq_replies]
  induction data generalizing s with
  | nil => rfl
  | cons byte rest ih => exact ih _

theorem transform_encrypt (hb : backend.Enciphers) (key : Cipher.Key) (iv : Block)
    (message : List UInt8) :
    transform ⟨backend, .encrypt, .start backend key, iv⟩ message =
      (enciphered (.ofKey key) iv [] message, ⟨backend, .encrypt, .start backend key,
        registerAfter iv (enciphered (.ofKey key) iv [] message)⟩) := by
  obtain ⟨hout, hs⟩ := (stands_start hb .encrypt key iv).encrypt message
  refine Prod.ext hout ?_
  rw [transform_snd, hs.feedback_eq, List.nil_append]

theorem transform_decrypt (hb : backend.Enciphers) (key : Cipher.Key) (iv : Block)
    (ciphertext : List UInt8) :
    transform ⟨backend, .decrypt, .start backend key, iv⟩ ciphertext =
      (deciphered (.ofKey key) iv [] ciphertext, ⟨backend, .decrypt, .start backend key,
        registerAfter iv ciphertext⟩) := by
  obtain ⟨hout, hs⟩ := (stands_start hb .decrypt key iv).decrypt ciphertext
  refine Prod.ext hout ?_
  rw [transform_snd, hs.feedback_eq, List.nil_append]

end CipherSession

namespace PacketStream

/-- An end of a stream between two packets. -/
def between (cipherBackend digestBackend : Backend) (direction : Direction) (key : Cipher.Key)
    (feedback : Block) (counter : UInt64) : PacketStream :=
  ⟨⟨cipherBackend, direction, .start cipherBackend key, feedback⟩,
    ⟨.start digestBackend, key.toList⟩, counter⟩

variable {cipherBackend digestBackend : Backend} {key : Cipher.Key} {feedback : Block}
  {counter : UInt64}

theorem start_eq_between (cipherBackend digestBackend : Backend) (direction : Direction)
    (key : Cipher.Key) (iv : Block) :
    start cipherBackend digestBackend direction ⟨key.toList, iv.toList⟩ =
      .ok (between cipherBackend digestBackend direction key iv 0) := by
  rw [start, CipherSession.start_eq]
  rfl

theorem sealPacket_between (hc : cipherBackend.Enciphers) (hd : digestBackend.Hashes)
    (payload : List UInt8) :
    (between cipherBackend digestBackend .encrypt key feedback counter).sealPacket payload =
      (packetFor key feedback [] counter.toNat payload,
        between cipherBackend digestBackend .encrypt key
          (registerAfter feedback (packetFor key feedback [] counter.toNat payload))
          (counter + 1)) := by
  rw [between, sealPacket, Checksummer.compute_start hd, packetFor, UInt64.ofNat_toNat]
  dsimp only
  rw [← checksum, CipherSession.transform_encrypt hc]
  rfl

def verdict (key : Cipher.Key) (counter : UInt64) (plain : List UInt8) :
    Except PacketError (List UInt8) :=
  if plain.length < checksumLength then .error (.truncated plain.length)
  else if checksum key.toList counter (plain.take (plain.length - checksumLength)) =
      plain.drop (plain.length - checksumLength) then
    .ok (plain.take (plain.length - checksumLength))
  else .error (.checksum counter)

theorem openPacket_between (hc : cipherBackend.Enciphers) (hd : digestBackend.Hashes)
    (packet : List UInt8) :
    (between cipherBackend digestBackend .decrypt key feedback counter).openPacket packet =
      (verdict key counter (deciphered (.ofKey key) feedback [] packet),
        between cipherBackend digestBackend .decrypt key (registerAfter feedback packet)
          (counter + 1)) := by
  rw [between, openPacket, verdict]
  dsimp only
  rw [CipherSession.transform_decrypt hc]
  dsimp only
  rw [Checksummer.compute_start hd]
  dsimp only
  rw [← checksum]
  simp only [sameBytes_iff]
  split
  · rfl
  · split <;> rfl

theorem verdict_eq_ok {plain payload : List UInt8} :
    verdict key counter plain = .ok payload ↔
      plain = payload ++ checksum key.toList counter payload := by
  constructor
  · intro h
    rw [verdict] at h
    split at h
    · cases h
    · split at h
      next hsum =>
        obtain rfl := Except.ok.inj h
        rw [hsum, List.take_append_drop]
      next => cases h
  · rintro rfl
    have hlength : (payload ++ checksum key.toList counter payload).length =
        payload.length + checksumLength := by
      rw [List.length_append, length_checksum]
    rw [verdict, hlength, if_neg (by omega), Nat.add_sub_cancel, List.take_left, List.drop_left,
      if_pos rfl]

theorem verdict_eq_truncated {plain : List UInt8} :
    verdict key counter plain = .error (.truncated plain.length) ↔ plain.length < checksumLength := by
  rw [verdict]
  split
  next h => exact iff_of_true rfl h
  next h => split <;> exact iff_of_false nofun h

theorem verdict_eq_checksum {plain : List UInt8} :
    verdict key counter plain = .error (.checksum counter) ↔ checksumLength ≤ plain.length ∧
      ∀ payload, verdict key counter plain ≠ .ok payload := by
  rw [verdict]
  split
  next h => exact iff_of_false nofun fun hle => Nat.not_lt_of_le hle.1 h
  next h =>
    split
    next => exact iff_of_false nofun fun hne => hne.2 _ rfl
    next => exact iff_of_true rfl ⟨Nat.le_of_not_lt h, nofun⟩

theorem verdict_deciphered_eq_ok {packet payload : List UInt8} :
    verdict key counter (deciphered (.ofKey key) feedback [] packet) = .ok payload ↔
      packet = packetFor key feedback [] counter.toNat payload := by
  rw [verdict_eq_ok, packetFor, UInt64.ofNat_toNat]
  constructor
  · intro h
    rw [← h, Cipher.enciphered_deciphered]
  · rintro rfl
    rw [Cipher.deciphered_enciphered rfl]

end PacketStream

/-- From a register and a count that both ends share, a packet is opened if it is what sealing makes
of the payload, and by nothing else. Too short a packet is truncated and any other has a wrong
checksum. The end that opens takes the packet into its register and counts it, whatever it is, as
the end that seals does; and both start with the initial register and the count zero. -/
theorem opened_iff_sealed {cipherBackend cipherBackend' digestBackend digestBackend' : Backend}
    (hc : cipherBackend.Enciphers) (hc' : cipherBackend'.Enciphers) (hd : digestBackend.Hashes)
    (hd' : digestBackend'.Hashes) (key : Cipher.Key) (feedback : Block) (counter : UInt64)
    (packet : List UInt8) :
    let sealer := PacketStream.between cipherBackend digestBackend .encrypt key feedback counter
    let opener := PacketStream.between cipherBackend' digestBackend' .decrypt key feedback counter
    (∀ payload, (opener.openPacket packet).1 = .ok payload ↔
      packet = (sealer.sealPacket payload).1) ∧
    ((opener.openPacket packet).1 = .error (.truncated packet.length) ↔
      packet.length < checksumLength) ∧
    ((opener.openPacket packet).1 = .error (.checksum counter) ↔
      checksumLength ≤ packet.length ∧ ∀ payload, packet ≠ (sealer.sealPacket payload).1) ∧
    (opener.openPacket packet).2 = .between cipherBackend' digestBackend' .decrypt key
      (registerAfter feedback packet) (counter + 1) ∧
    (∀ payload, (sealer.sealPacket payload).2 = .between cipherBackend digestBackend .encrypt key
      (registerAfter feedback (sealer.sealPacket payload).1) (counter + 1)) ∧
    ∀ direction, PacketStream.start cipherBackend digestBackend direction
      ⟨key.toList, feedback.toList⟩ =
        .ok (.between cipherBackend digestBackend direction key feedback 0) := by
  intro sealer opener
  have hlength := Cipher.length_deciphered (.ofKey key) feedback [] packet
  simp only [sealer, opener, PacketStream.sealPacket_between hc hd,
    PacketStream.openPacket_between hc' hd']
  refine ⟨fun payload => PacketStream.verdict_deciphered_eq_ok, ?_, ?_, trivial,
    fun payload => trivial, fun direction => PacketStream.start_eq_between _ _ direction key feedback⟩
  · rw [← hlength]
    exact PacketStream.verdict_eq_truncated
  · rw [← hlength, PacketStream.verdict_eq_checksum]
    exact and_congr_right fun _ => forall_congr' fun payload =>
      not_congr PacketStream.verdict_deciphered_eq_ok

/-- What is sealed with the portable implementations is opened with native ones. -/
theorem sealed_opened_of_native :
    ((PacketStream.between (.native .agreeing) (.native .agreeing) .decrypt (.replicate 32 1)
        (.replicate 16 2) 5).openPacket
      ((PacketStream.between .portable .portable .encrypt (.replicate 32 1)
        (.replicate 16 2) 5).sealPacket [7]).1).1 = .ok [7] :=
  have hc : Backend.portable.Enciphers := trivial
  have hd : Backend.portable.Hashes := trivial
  ((opened_iff_sealed hc (Native.enciphers_enciphering _) hd Native.hashes_agreeing _ _ _ _).1
    [7]).mpr rfl

end Conduit
