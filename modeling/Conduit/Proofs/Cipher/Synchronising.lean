import Conduit.Cipher.Feedback
import Conduit.Cipher.Session
import Conduit.Proofs.Cipher.Blocks
import Conduit.Proofs.Replies
import Mathlib.Data.List.DropRight

namespace Conduit

open Cipher (Block registerAfter streamByte enciphered)

namespace Cipher

variable {keys : Schedule} {iv : Block} {past past' : List UInt8}

theorem length_behind (iv : Block) (past : List UInt8) :
    (iv.toList ++ past).length = past.length + 16 := by
  rw [List.length_append, Vector.length_toList, Nat.add_comm]

theorem getElem_registerAfter {i : Nat} (hi : i < 16)
    (h : past.length + i < (iv.toList ++ past).length) :
    (registerAfter iv past)[i] = (iv.toList ++ past)[past.length + i] :=
  Vector.getElem_ofFn hi

theorem toList_registerAfter (iv : Block) (past : List UInt8) :
    (registerAfter iv past).toList = (iv.toList ++ past).rtake 16 := by
  rw [List.rtake, length_behind, Nat.add_sub_cancel]
  apply List.ext_getElem
  · rw [Vector.length_toList, List.length_drop, length_behind, Nat.add_sub_cancel_left]
  · intro i hi hi'
    rw [Vector.length_toList] at hi
    have hbehind : past.length + i < (iv.toList ++ past).length := by
      rw [length_behind]
      omega
    rw [Vector.getElem_toList, getElem_registerAfter hi hbehind, List.getElem_drop]

/-- Registers are equal where the ciphertexts end in the same sixteen bytes. -/
theorem registerAfter_inj :
    registerAfter iv past = registerAfter iv past' ↔
      (iv.toList ++ past).rtake 16 = (iv.toList ++ past').rtake 16 := by
  rw [← toList_registerAfter, ← toList_registerAfter, Vector.toList_inj]

theorem registerAfter_nil (iv : Block) : registerAfter iv [] = iv := by
  rw [← Vector.toList_inj, toList_registerAfter, List.append_nil, List.rtake, Vector.length_toList,
    Nat.sub_self, List.drop_zero]

theorem registerAfter_concat (iv : Block) (past : List UInt8) (byte : UInt8) :
    registerAfter iv (past ++ [byte]) = CipherSession.shift (registerAfter iv past) byte := by
  ext i hi
  have hbehind : (past ++ [byte]).length + i < (iv.toList ++ (past ++ [byte])).length := by
    rw [length_behind]
    omega
  rw [getElem_registerAfter hi hbehind, CipherSession.shift, Vector.getElem_ofFn]
  simp only [← List.append_assoc, List.length_append, List.length_singleton, Nat.add_assoc,
    Nat.add_comm 1 i]
  by_cases hmore : i + 1 < 16
  · have hold : past.length + (i + 1) < (iv.toList ++ past).length := by
      rw [length_behind]
      omega
    rw [dif_pos hmore, getElem_registerAfter hmore hold, List.getElem_append_left hold]
  · have hnew : (iv.toList ++ past).length ≤ past.length + (i + 1) := by
      rw [length_behind]
      omega
    rw [dif_neg hmore, List.getElem_append_right hnew, List.getElem_singleton]

/-- Registers that agree still do once the same ciphertext has gone through both. -/
theorem registerAfter_append (h : registerAfter iv past' = registerAfter iv past)
    (more : List UInt8) :
    registerAfter iv (past' ++ more) = registerAfter iv (past ++ more) := by
  induction more generalizing past past' with
  | nil => rwa [List.append_nil, List.append_nil]
  | cons byte rest ih =>
    rw [List.append_cons, List.append_cons past]
    exact ih (by rw [registerAfter_concat, registerAfter_concat, h])

/-- The message of a ciphertext, behind the ciphertext that went before. -/
def deciphered (keys : Schedule) (iv : Block) (past : List UInt8) : List UInt8 → List UInt8
  | [] => []
  | byte :: rest =>
    (byte ^^^ streamByte keys iv past) :: deciphered keys iv (past ++ [byte]) rest

/-- Behind ciphertext that ends in the same sixteen bytes, a ciphertext is deciphered to its
message. -/
theorem deciphered_enciphered (h : registerAfter iv past' = registerAfter iv past)
    (message : List UInt8) :
    deciphered keys iv past' (enciphered keys iv past message) = message := by
  induction message generalizing past past' with
  | nil => rfl
  | cons byte rest ih =>
    rw [enciphered, deciphered, ih (registerAfter_append h _), streamByte, streamByte, h,
      UInt8.xor_assoc, UInt8.xor_self, UInt8.xor_zero]

theorem enciphered_deciphered (keys : Schedule) (iv : Block) (past ciphertext : List UInt8) :
    enciphered keys iv past (deciphered keys iv past ciphertext) = ciphertext := by
  induction ciphertext generalizing past with
  | nil => rfl
  | cons byte rest ih =>
    rw [deciphered, enciphered, UInt8.xor_assoc, UInt8.xor_self, UInt8.xor_zero, ih]

theorem length_deciphered (keys : Schedule) (iv : Block) (past ciphertext : List UInt8) :
    (deciphered keys iv past ciphertext).length = ciphertext.length := by
  induction ciphertext generalizing past with
  | nil => rfl
  | cons byte rest ih => rw [deciphered, List.length_cons, ih, List.length_cons]

end Cipher

/-- A native block cipher is AES-256. -/
def Backend.Enciphers : Backend → Prop
  | .portable => True
  | .native n => ∀ key block, n.encipher key block = Cipher.Standard.encrypt key block

theorem BlockCipher.encrypt_start {backend : Backend} (hb : backend.Enciphers) (key : Cipher.Key) :
    (start backend key).encrypt = (Cipher.Schedule.ofKey key).encrypt := by
  cases backend with
  | portable => rfl
  | native n => exact funext fun block =>
      (hb key block).trans (Cipher.encrypt_eq_standard key block).symm

def Engine.stuck : Engine where
  Stream := Unit
  start _ _ := ()
  run _ _ _ _ := (.ok ⟨.stuck, [], 0⟩, ())
  reset _ _ := ()
  backlog _ := 0
  consumed_le h := by
    cases h
    exact Nat.zero_le _
  backlog_lt h hmore := by
    cases h
    cases hmore

def Native.enciphering (sha256 : List UInt8 → Vector UInt8 32) : Native :=
  ⟨Cipher.Standard.encrypt, sha256, .stuck, .stuck⟩

theorem Native.enciphers_enciphering (sha256 : List UInt8 → Vector UInt8 32) :
    (Backend.native (.enciphering sha256)).Enciphers :=
  fun _ _ => rfl

namespace CipherSession

variable {direction : Direction} {keys : Cipher.Schedule} {iv : Block} {past : List UInt8}
  {s : CipherSession}

/-- The session uses these keys, and this ciphertext has gone through it. -/
structure Stands (direction : Direction) (keys : Cipher.Schedule) (iv : Block) (past : List UInt8)
    (s : CipherSession) : Prop where
  direction_eq : s.direction = direction
  encrypt_eq : s.cipher.encrypt = keys.encrypt
  feedback_eq : s.feedback = registerAfter iv past

theorem start_eq (backend : Backend) (direction : Direction) (key : Cipher.Key) (iv : Block) :
    start backend direction key.toList iv.toList =
      .ok ⟨backend, direction, .start backend key, iv⟩ := by
  rw [start, fixed?, dif_pos key.length_toList, fixed?, dif_pos iv.length_toList]
  rfl

theorem stands_start {backend : Backend} (hb : backend.Enciphers) (direction : Direction)
    (key : Cipher.Key) (iv : Block) :
    Stands direction (.ofKey key) iv [] ⟨backend, direction, .start backend key, iv⟩ :=
  ⟨rfl, BlockCipher.encrypt_start hb key, (Cipher.registerAfter_nil iv).symm⟩

theorem foldl_step (s : CipherSession) (out : Array UInt8) (data : List UInt8) :
    data.foldl (fun (out, s) byte =>
      let (result, s) := step s byte
      (out.push result, s)) (out, s) = (out ++ (replies step s data).1, (replies step s data).2) := by
  induction data generalizing out s with
  | nil => rw [replies, Array.appendList_nil]; rfl
  | cons byte rest ih =>
    rw [List.foldl_cons, replies_cons, Array.appendList_cons]
    exact ih _ _

theorem transform_eq_replies (s : CipherSession) (data : List UInt8) :
    s.transform data = replies step s data := by
  rw [transform, foldl_step]
  dsimp only
  rw [Array.toList_appendList]
  rfl

theorem Stands.step_encrypt (h : s.Stands .encrypt keys iv past) (byte : UInt8) :
    (s.step byte).1 = byte ^^^ streamByte keys iv past ∧
      (s.step byte).2.Stands .encrypt keys iv (past ++ [byte ^^^ streamByte keys iv past]) := by
  obtain ⟨backend, _, cipher, _⟩ := s
  obtain ⟨rfl, hcipher, rfl⟩ := h
  dsimp only at hcipher
  simp only [step, hcipher]
  exact ⟨rfl, rfl, hcipher, (Cipher.registerAfter_concat _ _ _).symm⟩

theorem Stands.step_decrypt (h : s.Stands .decrypt keys iv past) (byte : UInt8) :
    (s.step byte).1 = byte ^^^ streamByte keys iv past ∧
      (s.step byte).2.Stands .decrypt keys iv (past ++ [byte]) := by
  obtain ⟨backend, _, cipher, _⟩ := s
  obtain ⟨rfl, hcipher, rfl⟩ := h
  dsimp only at hcipher
  simp only [step, hcipher]
  exact ⟨rfl, rfl, hcipher, (Cipher.registerAfter_concat _ _ _).symm⟩

theorem Stands.encrypt (h : s.Stands .encrypt keys iv past) (message : List UInt8) :
    (s.transform message).1 = enciphered keys iv past message ∧
      (s.transform message).2.Stands .encrypt keys iv
        (past ++ enciphered keys iv past message) := by
  rw [transform_eq_replies]
  induction message generalizing s past with
  | nil => exact ⟨rfl, (List.append_nil past).symm ▸ h⟩
  | cons byte rest ih =>
    obtain ⟨hbyte, hs⟩ := h.step_encrypt byte
    obtain ⟨hrest, hs'⟩ := ih hs
    rw [replies_cons, enciphered, hbyte, hrest]
    rw [List.append_assoc] at hs'
    exact ⟨rfl, hs'⟩

theorem Stands.decrypt (h : s.Stands .decrypt keys iv past) (ciphertext : List UInt8) :
    (s.transform ciphertext).1 = Cipher.deciphered keys iv past ciphertext ∧
      (s.transform ciphertext).2.Stands .decrypt keys iv (past ++ ciphertext) := by
  rw [transform_eq_replies]
  induction ciphertext generalizing s past with
  | nil => exact ⟨rfl, (List.append_nil past).symm ▸ h⟩
  | cons byte rest ih =>
    obtain ⟨hbyte, hs⟩ := h.step_decrypt byte
    obtain ⟨hrest, hs'⟩ := ih hs
    rw [replies_cons, Cipher.deciphered, hbyte, hrest]
    rw [List.append_assoc] at hs'
    exact ⟨rfl, hs'⟩

end CipherSession

end Conduit
