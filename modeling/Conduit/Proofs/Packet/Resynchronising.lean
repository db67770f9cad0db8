import Conduit.Packet.Seal
import Conduit.Proofs.Cipher.Synchronising
import Conduit.Proofs.Digest.Blocks

namespace Conduit

open Cipher (Block registerAfter enciphered)

/-- The beginning of the hash of a packet's number, its payload and the key. -/
def checksum (key : List UInt8) (counter : UInt64) (payload : List UInt8) : List UInt8 :=
  (Sha256.hash (Octets.littleEndian 8 counter.toNat ++ payload ++ key)).take checksumLength

namespace Checksummer

/-- Whatever it has computed before, a checksummer starts over. -/
theorem compute_start {backend : Backend} (hb : backend.Hashes) (key : List UInt8)
    (counter : UInt64) (payload : List UInt8) :
    compute ⟨.start backend, key⟩ counter payload =
      (Sha256.hash (Octets.littleEndian 8 counter.toNat ++ payload ++ key),
        ⟨.start backend, key⟩) := by
  have hshown := (((DigestSession.shows_start hb).update
    (Octets.littleEndian 8 counter.toNat)).update payload).update key
  rw [compute, Sha256.hash_eq_ofMessage, Sha256.ofMessage_eq_standard]
  dsimp only
  rw [hshown.digest]
  rfl

end Checksummer

theorem Sha256.length_finish (s : Sha256) : s.finish.length = 32 := by
  rw [finish, Chain.bytes, Chain.words, List.length_flatMap]
  simp only [Octets.length_bigEndian]
  rfl

theorem HashEngine.length_finish (h : HashEngine) : h.finish.length = 32 := by
  cases h with
  | portable h => exact h.length_finish
  | native sha256 message => exact Vector.length_toList

theorem length_checksum (key : List UInt8) (counter : UInt64) (payload : List UInt8) :
    (checksum key counter payload).length = checksumLength := by
  rw [checksum, Sha256.hash, List.length_take, Sha256.length_finish]
  rfl

namespace PacketStream

theorem foldl_or_eq_zero {start : UInt8} {bytes : List UInt8} :
    bytes.foldl (· ||| ·) start = 0 ↔ start = 0 ∧ ∀ byte ∈ bytes, byte = 0 := by
  induction bytes generalizing start with
  | nil => simp
  | cons byte rest ih => simp [ih, and_assoc]

theorem sameBytes_iff {a b : List UInt8} : sameBytes a b = true ↔ a = b := by
  rw [sameBytes, Bool.and_eq_true, beq_iff_eq, beq_iff_eq, foldl_or_eq_zero]
  induction a generalizing b with
  | nil => cases b <;> simp
  | cons byte rest ih =>
    cases b with
    | nil => simp
    | cons byte' rest' =>
      have hrest := ih (b := rest')
      simp only [true_and] at hrest ⊢
      simp [← hrest, and_left_comm]

variable {direction : Direction} {key : Cipher.Key} {iv : Block}
  {past past' payload packet : List UInt8} {handled : Nat} {s : PacketStream}

theorem length_sealPacket (s : PacketStream) (payload : List UInt8) :
    (s.sealPacket payload).1.length = payload.length + checksumLength := by
  obtain ⟨cipher, ⟨hasher, key⟩, counter⟩ := s
  rw [sealPacket, Checksummer.compute]
  dsimp only [DigestSession.digest]
  rw [CipherSession.transform_eq_replies, length_replies, List.length_append, List.length_take,
    HashEngine.length_finish]
  rfl

/-- The end uses these keys and has handled so many packets, of which this ciphertext was made or
taken. -/
structure Stands (direction : Direction) (key : Cipher.Key) (iv : Block) (past : List UInt8)
    (handled : Nat) (s : PacketStream) : Prop where
  cipher : s.cipher.Stands direction (.ofKey key) iv past
  checksummer_eq : ∃ backend : Backend, backend.Hashes ∧
    s.checksummer = ⟨.start backend, key.toList⟩
  counter_eq : s.counter = UInt64.ofNat handled

theorem Stands.toNat_counter (h : s.Stands direction key iv past handled) :
    s.counter.toNat = handled % 2 ^ 64 := by
  rw [h.counter_eq, UInt64.toNat_ofNat']

theorem exists_start {keys : SessionKeys} (hkey : keys.key.length = 32)
    (hiv : keys.iv.length = 16) :
    ∃ (key : Cipher.Key) (iv : Block), iv.toList = keys.iv ∧
      ∀ {cipherBackend digestBackend : Backend}, cipherBackend.Enciphers → digestBackend.Hashes →
        ∀ direction, ∃ s, start cipherBackend digestBackend direction keys = .ok s ∧
          s.Stands direction key iv [] 0 := by
  refine ⟨⟨keys.key.toArray, hkey⟩, ⟨keys.iv.toArray, hiv⟩, rfl, ?_⟩
  intro cipherBackend digestBackend hc hd direction
  refine ⟨⟨⟨cipherBackend, direction, .start cipherBackend ⟨keys.key.toArray, hkey⟩,
    ⟨keys.iv.toArray, hiv⟩⟩, ⟨.start digestBackend, keys.key⟩, 0⟩, ?_,
    CipherSession.stands_start hc _ _ _, ⟨digestBackend, hd, rfl⟩, rfl⟩
  rw [start, CipherSession.start, CipherSession.fixed?, dif_pos hkey, CipherSession.fixed?,
    dif_pos hiv]

def packetFor (key : Cipher.Key) (iv : Block) (past : List UInt8) (handled : Nat)
    (payload : List UInt8) : List UInt8 :=
  enciphered (.ofKey key) iv past
    (payload ++ checksum key.toList (UInt64.ofNat handled) payload)

theorem Stands.sealPacket (h : s.Stands .encrypt key iv past handled) (payload : List UInt8) :
    (s.sealPacket payload).1 = packetFor key iv past handled payload ∧
      (s.sealPacket payload).2.Stands .encrypt key iv
        (past ++ packetFor key iv past handled payload) (handled + 1) := by
  obtain ⟨cipher, checksummer, counter⟩ := s
  obtain ⟨hcipher, ⟨backend, hb, rfl⟩, rfl⟩ := h
  obtain ⟨hpacket, hcipher'⟩ := hcipher.encrypt
    (payload ++ checksum key.toList (UInt64.ofNat handled) payload)
  rw [PacketStream.sealPacket, Checksummer.compute_start hb]
  exact ⟨hpacket, hcipher', ⟨backend, hb, rfl⟩, (UInt64.ofNat_add _ _).symm⟩

/-- Whatever comes, an end that opens takes it and counts it. -/
theorem Stands.openPacket (h : s.Stands .decrypt key iv past handled) (packet : List UInt8) :
    (s.openPacket packet).2.Stands .decrypt key iv (past ++ packet) (handled + 1) := by
  obtain ⟨cipher, checksummer, counter⟩ := s
  obtain ⟨hcipher, ⟨backend, hb, rfl⟩, rfl⟩ := h
  obtain ⟨-, hcipher'⟩ := hcipher.decrypt packet
  have hnext : Stands .decrypt key iv (past ++ packet) (handled + 1)
      ⟨(cipher.transform packet).2, ⟨.start backend, key.toList⟩, UInt64.ofNat handled + 1⟩ :=
    ⟨hcipher', ⟨backend, hb, rfl⟩, (UInt64.ofNat_add _ _).symm⟩
  rw [PacketStream.openPacket]
  dsimp only
  rw [Checksummer.compute_start hb]
  split
  · exact hnext
  · dsimp only
    split <;> exact hnext

theorem Stands.open_packetFor (h : s.Stands .decrypt key iv past' handled)
    (hr : registerAfter iv past' = registerAfter iv past) (payload : List UInt8) :
    (s.openPacket (packetFor key iv past handled payload)).1 = .ok payload := by
  obtain ⟨cipher, checksummer, counter⟩ := s
  obtain ⟨hcipher, ⟨backend, hb, rfl⟩, rfl⟩ := h
  obtain ⟨hplain, -⟩ := hcipher.decrypt (packetFor key iv past handled payload)
  rw [packetFor, Cipher.deciphered_enciphered hr, ← packetFor] at hplain
  have hlength : (payload ++ checksum key.toList (UInt64.ofNat handled) payload).length =
      payload.length + checksumLength := by
    rw [List.length_append, length_checksum]
  rw [PacketStream.openPacket]
  dsimp only
  rw [hplain, hlength, if_neg (by omega), Nat.add_sub_cancel, List.take_left, List.drop_left,
    Checksummer.compute_start hb]
  exact congrArg Prod.fst (if_pos (sameBytes_iff.mpr rfl))

theorem Stands.seals (h : s.Stands .encrypt key iv past handled) (payloads : List (List UInt8)) :
    (replies PacketStream.sealPacket s payloads).2.Stands .encrypt key iv
      (past ++ (replies PacketStream.sealPacket s payloads).1.flatten)
      (handled + payloads.length) := by
  induction payloads generalizing s past handled with
  | nil => exact (List.append_nil past).symm ▸ h
  | cons payload payloads ih =>
    obtain ⟨hpacket, hs⟩ := h.sealPacket payload
    have hrest := ih hs
    rw [← hpacket, List.append_assoc, Nat.add_right_comm] at hrest
    exact hrest

theorem Stands.opens (h : s.Stands .decrypt key iv past handled) (packets : List (List UInt8)) :
    (replies PacketStream.openPacket s packets).2.Stands .decrypt key iv (past ++ packets.flatten)
      (handled + packets.length) := by
  induction packets generalizing s past handled with
  | nil => exact (List.append_nil past).symm ▸ h
  | cons packet packets ih =>
    have hrest := ih (h.openPacket packet)
    rw [List.append_assoc, Nat.add_right_comm] at hrest
    exact hrest

/-- From where the registers agree, all packets are opened. -/
theorem Stands.opens_sealed {t : PacketStream} (h : s.Stands .decrypt key iv past' handled)
    (ht : t.Stands .encrypt key iv past handled)
    (hr : registerAfter iv past' = registerAfter iv past) (payloads : List (List UInt8)) :
    (replies PacketStream.openPacket s (replies PacketStream.sealPacket t payloads).1).1 =
      payloads.map .ok := by
  induction payloads generalizing s t past past' handled with
  | nil => rfl
  | cons payload payloads ih =>
    obtain ⟨hpacket, ht'⟩ := ht.sealPacket payload
    have hopened := h.open_packetFor hr payload
    -- the same packet goes through both, so their registers still agree
    have hrest := ih (h.openPacket (packetFor key iv past handled payload)) ht'
      (Cipher.registerAfter_append hr _)
    rw [replies_cons, replies_cons, List.map_cons, hpacket, hopened, hrest]

end PacketStream

theorem rtake_append_of_le {n : Nat} {more : List UInt8} (h : n ≤ more.length)
    (bytes : List UInt8) :
    (bytes ++ more).rtake n = more.rtake n := by
  rw [List.rtake, List.rtake, List.length_append, Nat.add_sub_assoc h, List.drop_length_add_append]

/-- Whatever was received for some packets, if it ends in the same sixteen bytes as they do, all
packets behind them are opened. Either end counts the packets that it has handled, as far as 64 bits
go. -/
theorem packets_resynchronise (keys : SessionKeys) (hkey : keys.key.length = 32)
    (hiv : keys.iv.length = 16) {cipherBackend cipherBackend' digestBackend digestBackend' : Backend}
    (hc : cipherBackend.Enciphers) (hc' : cipherBackend'.Enciphers) (hd : digestBackend.Hashes)
    (hd' : digestBackend'.Hashes) :
    ∃ sealer opener, PacketStream.start cipherBackend digestBackend .encrypt keys = .ok sealer ∧
      PacketStream.start cipherBackend' digestBackend' .decrypt keys = .ok opener ∧
      ∀ payloads, ∃ packets sealer',
        replies PacketStream.sealPacket sealer payloads = (packets, sealer') ∧
        sealer'.counter.toNat = payloads.length % 2 ^ 64 ∧
        ∀ received : List (List UInt8), received.length ≤ payloads.length →
          (keys.iv ++ received.flatten).rtake 16 =
            (keys.iv ++ (packets.take received.length).flatten).rtake 16 →
          ∀ j, received.length + j ≤ payloads.length →
            ∃ opener', replies PacketStream.openPacket
                (replies PacketStream.openPacket opener received).2
                ((packets.drop received.length).take j) =
                (((payloads.drop received.length).take j).map .ok, opener') ∧
              opener'.counter.toNat = (received.length + j) % 2 ^ 64 := by
  obtain ⟨key, iv, htoList, hstart⟩ := PacketStream.exists_start hkey hiv
  obtain ⟨sealer, hsealer, hs⟩ := hstart hc hd .encrypt
  obtain ⟨opener, hopener, ho⟩ := hstart hc' hd' .decrypt
  refine ⟨sealer, opener, hsealer, hopener, fun payloads => ⟨_, _, rfl, ?_, ?_⟩⟩
  · rw [(hs.seals payloads).toNat_counter, Nat.zero_add]
  intro received hle htail j hj
  have hlength : (payloads.take received.length).length = received.length :=
    List.length_take_of_le hle
  have hs' := hs.seals (payloads.take received.length)
  have ho' := ho.opens received
  rw [take_replies] at htail
  rw [drop_replies, take_replies]
  generalize replies PacketStream.sealPacket sealer (payloads.take received.length) = earlier at *
  have hr : registerAfter iv ([] ++ received.flatten) = registerAfter iv ([] ++ earlier.1.flatten) :=
    Cipher.registerAfter_inj.mpr (htoList ▸ htail)
  have hfollowing : ((payloads.drop received.length).take j).length = j := by
    rw [List.length_take, List.length_drop]
    omega
  rw [hlength] at hs'
  have hopened := ho'.opens_sealed hs' hr ((payloads.drop received.length).take j)
  refine ⟨_, Prod.ext hopened rfl, ?_⟩
  rw [(ho'.opens _).toNat_counter, length_replies, hfollowing, Nat.zero_add]

def Native.agreeing : Native :=
  .enciphering fun message =>
    ⟨(Sha256.hash message).toArray, List.size_toArray.trans (Sha256.length_finish _)⟩

theorem Native.hashes_agreeing : (Backend.native .agreeing).Hashes :=
  fun message => (Sha256.hash_eq_ofMessage message).trans (Sha256.ofMessage_eq_standard message)

/-- The first byte of a packet is changed on its way, and the packet behind it is opened. -/
theorem packets_resynchronise_after_first_byte :
    ∃ sealer opener byte rest packet,
      PacketStream.start .portable (.native .agreeing) .encrypt
        ⟨List.replicate 32 1, List.replicate 16 2⟩ = .ok sealer ∧
      PacketStream.start (.native .agreeing) .portable .decrypt
        ⟨List.replicate 32 1, List.replicate 16 2⟩ = .ok opener ∧
      (replies PacketStream.sealPacket sealer [List.replicate 15 3, [4]]).1 =
        [byte :: rest, packet] ∧
      (replies PacketStream.openPacket (opener.openPacket ((byte + 1) :: rest)).2 [packet]).1 =
        [.ok [4]] := by
  have hc : Backend.portable.Enciphers := trivial
  have hd : Backend.portable.Hashes := trivial
  obtain ⟨sealer, opener, hsealer, hopener, hpackets⟩ := packets_resynchronise
    ⟨List.replicate 32 1, List.replicate 16 2⟩ rfl rfl hc (Native.enciphers_enciphering _)
    Native.hashes_agreeing hd
  obtain ⟨packets, sealer', hreplies, -, hopened⟩ := hpackets [List.replicate 15 3, [4]]
  have hlength := PacketStream.length_sealPacket sealer (List.replicate 15 3)
  rcases hfirst : sealer.sealPacket (List.replicate 15 3) with ⟨_ | ⟨byte, rest⟩, next⟩ <;>
    rw [hfirst] at hlength
  · cases hlength
  have hrest : rest.length = 22 := Nat.succ.inj hlength
  have htail (byte' : UInt8) : (List.replicate 16 2 ++ [byte' :: rest].flatten).rtake 16 =
      rest.rtake 16 := by
    rw [List.flatten_singleton, List.append_cons, rtake_append_of_le (by omega)]
  rw [replies_cons, hfirst, replies_cons] at hreplies
  cases hreplies
  obtain ⟨opener', hrun, -⟩ := hopened [(byte + 1) :: rest] (Nat.le_succ 1)
    ((htail _).trans (htail _).symm) 1 (Nat.le_refl 2)
  exact ⟨sealer, opener, byte, rest, _, hsealer, hopener, by rw [replies_cons, hfirst]; rfl,
    congrArg Prod.fst hrun⟩

end Conduit
