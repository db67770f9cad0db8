import Conduit.Digest.Standard
import Conduit.Proofs.Digest.Messages
import Conduit.Proofs.Recurrences
import Conduit.Proofs.Replies
import Mathlib.Data.Nat.Prime.Basic

namespace Conduit

namespace Octets

open Sha256.Standard (number digits)

theorem ofBigEndian_eq_number (bytes : List UInt8) : ofBigEndian bytes = number bytes := by
  have hfold (n : Nat) : bytes.foldl (fun n byte => 256 * n + byte.toNat) n =
      n * 256 ^ bytes.length + number bytes := by
    induction bytes generalizing n with
    | nil => rw [List.foldl_nil, List.length_nil, Nat.pow_zero, Nat.mul_one, number, Nat.add_zero]
    | cons byte bytes ih =>
      rw [List.foldl_cons, ih, number, List.length_cons, Nat.pow_succ', Nat.add_mul,
        Nat.mul_assoc, Nat.mul_left_comm, Nat.add_assoc]
  rw [ofBigEndian, hfold, Nat.zero_mul, Nat.zero_add]

theorem littleEndian_eq_map (width n : Nat) :
    littleEndian width n = (List.range width).map fun i => UInt8.ofNat (n / 256 ^ i) := by
  induction width generalizing n with
  | zero => rfl
  | succ width ih =>
    rw [littleEndian, ih, List.range_succ_eq_map, List.map_cons, List.map_map, Nat.pow_zero,
      Nat.div_one]
    congr 1
    apply List.map_congr_left
    intro i _
    rw [Function.comp_apply, Nat.div_div_eq_div_mul, ← Nat.pow_succ']

theorem bigEndian_eq_digits (width n : Nat) : bigEndian width n = digits width n := by
  rw [bigEndian, littleEndian_eq_map, digits]
  apply List.ext_getElem
  · simp
  · intro i _ _
    simp

end Octets

namespace Sha256

open Standard (State)

variable {block message bytes : List UInt8}

theorem Standard.isPrime_iff {n : Nat} : isPrime n ↔ n.Prime := by
  rw [isPrime, Bool.and_eq_true, decide_eq_true_iff, Nat.prime_def_lt', List.all_eq_true]
  apply and_congr_right
  intro _
  apply forall_congr'
  intro m
  simp only [List.mem_range, Bool.or_eq_true, decide_eq_true_iff, bne_iff_ne,
    Nat.dvd_iff_mod_eq_zero]
  omega

theorem Standard.root_spec {exponent n bits r : Nat} (hr : r ^ exponent ≤ n)
    (hn : n < (r + 2 ^ bits) ^ exponent) :
    root exponent n bits r ^ exponent ≤ n ∧ n < (root exponent n bits r + 1) ^ exponent := by
  induction bits generalizing r with
  | zero => exact ⟨hr, hn⟩
  | succ bits ih =>
    rw [root]
    split
    next hle =>
      apply ih hle
      rwa [Nat.add_assoc, ← Nat.two_mul, ← Nat.pow_succ']
    next hlt => exact ih hr (Nat.not_le.mp hlt)

/-- The fraction is cut off behind 32 bits, and 36 bits are enough for the root. -/
theorem Standard.rootFraction_spec {exponent p : Nat} (he : 0 < exponent)
    (hp : p < 2 ^ (4 * exponent)) :
    ∃ r, rootFraction exponent p = BitVec.ofNat 32 r ∧ r ^ exponent ≤ p * 2 ^ (32 * exponent) ∧
      p * 2 ^ (32 * exponent) < (r + 1) ^ exponent := by
  refine ⟨_, rfl, root_spec ?_ ?_⟩
  · rw [Nat.zero_pow he]
    exact Nat.zero_le _
  · have hscaled := Nat.mul_lt_mul_of_pos_right hp (Nat.two_pow_pos (32 * exponent))
    rw [← Nat.pow_add, ← Nat.add_mul] at hscaled
    rwa [Nat.zero_add, ← Nat.pow_mul]

def Chain.state (x : Chain) : State where
  a := x.a.toBitVec
  b := x.b.toBitVec
  c := x.c.toBitVec
  d := x.d.toBitVec
  e := x.e.toBitVec
  f := x.f.toBitVec
  g := x.g.toBitVec
  h := x.h.toBitVec

theorem roundConstants_eq : roundConstants.map UInt32.toBitVec = Standard.constants := by
  decide +kernel

theorem state_start : Chain.start.state = State.start := by
  decide +kernel

theorem toBitVec_smallSigma0 (x : UInt32) :
    (smallSigma0 x).toBitVec = Standard.smallSigma0 x.toBitVec := rfl

theorem toBitVec_smallSigma1 (x : UInt32) :
    (smallSigma1 x).toBitVec = Standard.smallSigma1 x.toBitVec := rfl

theorem state_round (x : Chain) (constant word : UInt32) :
    (round x constant word).state = x.state.next constant.toBitVec word.toBitVec := rfl

theorem state_add (x y : Chain) : (x.add y).state = x.state.plus y.state := rfl

theorem Chain.bytes_eq (x : Chain) : x.bytes = x.state.bytes := by
  have hword (word : UInt32) : Octets.bigEndian 4 word.toNat =
      Standard.digits 4 word.toBitVec.toNat := Octets.bigEndian_eq_digits 4 word.toNat
  simp only [Chain.bytes, words, State.bytes, state, List.flatMap_cons, List.flatMap_nil, hword]

theorem blockWords_eq {n : Nat} (h : bytes.length = 4 * n) :
    blockWords bytes = (List.range n).map fun t =>
      UInt32.ofNat (Octets.ofBigEndian ((bytes.drop (4 * t)).take 4)) := by
  induction n generalizing bytes with
  | zero =>
    rw [List.length_eq_zero_iff.mp h]
    rfl
  | succ n ih =>
    obtain - | ⟨a, - | ⟨b, - | ⟨c, - | ⟨d, rest⟩⟩⟩⟩ := bytes
    all_goals simp only [List.length_cons, List.length_nil] at h
    · omega
    · omega
    · omega
    · omega
    rw [blockWords, ih (by omega), List.range_succ_eq_map, List.map_cons, List.map_map]
    rfl

def scheduled (block : List UInt8) (t : Nat) : UInt32 :=
  .ofBitVec (Standard.word block t)

theorem scheduled_of_lt {t : Nat} (h : t < 16) :
    scheduled block t = UInt32.ofNat (Octets.ofBigEndian ((block.drop (4 * t)).take 4)) := by
  rw [scheduled, Standard.word, if_pos h, ← Octets.ofBigEndian_eq_number]
  rfl

theorem scheduled_of_le {t : Nat} (h : 16 ≤ t) :
    scheduled block t = scheduled block (t - 16) + smallSigma0 (scheduled block (t - 15)) +
      scheduled block (t - 7) + smallSigma1 (scheduled block (t - 2)) := by
  apply UInt32.toBitVec_inj.mp
  simp only [UInt32.toBitVec_add, toBitVec_smallSigma0, toBitVec_smallSigma1, scheduled]
  rw [Standard.word, if_neg (by omega)]
  ac_rfl

theorem extendSchedule_spec {n : Nat} {w : Array UInt32} (h : Begins (scheduled block) 0 w)
    (h16 : 16 ≤ w.size) :
    (extendSchedule n w).size = w.size + n ∧ Begins (scheduled block) 0 (extendSchedule n w) := by
  induction n generalizing w with
  | zero => exact ⟨rfl, h⟩
  | succ n ih =>
    have hback {k : Nat} (h1 : 1 ≤ k) (hk : k ≤ 16) :
        w.getD (w.size - k) 0 = scheduled block (w.size - k) := h _ (by omega)
    rw [extendSchedule]
    dsimp only
    rw [hback (by decide) (by decide), hback (by decide) (by decide), hback (by decide) (by decide),
      hback (by decide) (by decide), ← scheduled_of_le h16]
    obtain ⟨hsize, hbegins⟩ := ih (h.push rfl) (by rw [Array.size_push]; omega)
    rw [Array.size_push] at hsize
    exact ⟨by omega, hbegins⟩

theorem schedule_spec (h : block.length = 64) :
    (schedule block).size = 64 ∧ Begins (scheduled block) 0 (schedule block) := by
  have hwords := blockWords_eq (n := 16) h
  have hsize : (blockWords block).toArray.size = 16 := by
    rw [List.size_toArray, hwords, List.length_map, List.length_range]
  have hstart : Begins (scheduled block) 0 (blockWords block).toArray := by
    intro t ht
    rw [hsize] at ht
    rw [scheduled_of_lt ht, hwords]
    simp [Array.getD, ht]
  obtain ⟨hextended, hbegins⟩ := extendSchedule_spec (n := 48) hstart hsize.ge
  exact ⟨hextended.trans (congrArg (· + 48) hsize), hbegins⟩

theorem length_zip_schedule (h : block.length = 64) :
    (roundConstants.zip (schedule block).toList).length = 64 := by
  rw [List.length_zip, (schedule block).length_toList, (schedule_spec h).1]
  rfl

theorem state_foldl_round (x : Chain) (h : block.length = 64) {t : Nat} (ht : t ≤ 64) :
    (((roundConstants.zip (schedule block).toList).take t).foldl
      (fun x (k, w) => round x k w) x).state = Standard.afterRounds x.state block t := by
  obtain ⟨hsize, hbegins⟩ := schedule_spec h
  induction t with
  | zero => rfl
  | succ t ih =>
    have hlength : t < (roundConstants.zip (schedule block).toList).length :=
      (length_zip_schedule h).symm ▸ ht
    have hconstant : t < roundConstants.length := ht
    have hentry : t < (schedule block).size := hsize.symm ▸ ht
    have hword : (schedule block)[t] = scheduled block t := by
      rw [← hbegins t hentry]
      simp [Array.getD, hsize, show t < 64 from ht]
    rw [List.take_succ_eq_append_getElem hlength, List.foldl_append, List.foldl_cons,
      List.foldl_nil, state_round, ih (by omega), Standard.afterRounds, ← roundConstants_eq]
    simp [hword, scheduled, hconstant]

theorem state_compress (x : Chain) (h : block.length = 64) :
    (compress x block).state = x.state.plus (Standard.afterRounds x.state block 64) := by
  rw [compress, state_add, ← state_foldl_round x h (Nat.le_refl 64), ← length_zip_schedule h,
    List.take_length]

theorem zeros_eq (n : Nat) : Standard.zeros n = (119 - n % 64) % 64 := by
  have hall : ∀ m < 64, Standard.zeros m = (119 - m) % 64 := by decide +kernel
  have hmod : Standard.zeros n = Standard.zeros (n % 64) := by
    rw [Standard.zeros, Standard.zeros]
    congr 2
    funext k
    congr 1
    omega
  rw [hmod, hall _ (Nat.mod_lt _ (by decide))]

theorem padded_eq (message : List UInt8) :
    Standard.padded message = message ++ padding message.length := by
  rw [Standard.padded, padding, zeros_eq, Octets.bigEndian_eq_digits]

theorem takeBlocks_padded (message : List UInt8) {n : Nat}
    (h : 64 * n ≤ (Standard.padded message).length) :
    (takeBlocks .start ((Standard.padded message).take (64 * n))).1.state =
        Standard.afterBlocks message n ∧
      (takeBlocks .start ((Standard.padded message).take (64 * n))).2 = [] := by
  induction n with
  | zero =>
    rw [Nat.mul_zero, List.take_zero, takeBlocks_of_lt (by decide), state_start]
    exact ⟨rfl, rfl⟩
  | succ n ih =>
    have hblock : (Standard.block message n).length = 64 := by
      rw [Standard.block, List.length_take, List.length_drop]
      omega
    obtain ⟨hstate, hrest⟩ := ih (by omega)
    rw [Nat.mul_succ, List.take_add, takeBlocks_append, hrest, List.nil_append, ← Standard.block,
      ← List.append_nil (Standard.block message n), takeBlocks_block _ hblock,
      takeBlocks_of_lt (by decide), state_compress _ hblock, hstate, Standard.afterBlocks]
    exact ⟨rfl, rfl⟩

theorem ofMessage_eq_standard (message : List UInt8) :
    ofMessage message = Standard.hash message := by
  have hlength : (Standard.padded message).length % 64 = 0 := by
    rw [padded_eq, List.length_append, length_padding]
  obtain ⟨hstate, -⟩ :=
    takeBlocks_padded message (Nat.mul_div_le (Standard.padded message).length 64)
  rw [Nat.mul_div_cancel' (Nat.dvd_of_mod_eq_zero hlength), List.take_length] at hstate
  rw [ofMessage, ← padded_eq, compressAll_eq_takeBlocks hlength, Chain.bytes_eq, hstate,
    Standard.hash]

end Sha256

/-- A native hash is SHA-256. -/
def Backend.Hashes : Backend → Prop
  | .portable => True
  | .native n => ∀ message, (n.sha256 message).toList = Sha256.Standard.hash message

namespace HashEngine

inductive Shows (message : List UInt8) : Backend → HashEngine → Prop
  | portable {h : Sha256} (shown : h.Shows message) : Shows message .portable (.portable h)
  | native {n : Native} (hashes : (Backend.native n).Hashes) :
      Shows message (.native n) (.native n.sha256 message)

variable {backend : Backend} {message : List UInt8} {h : HashEngine}

theorem shows_start (hb : backend.Hashes) : (start backend).Shows [] backend := by
  cases backend with
  | portable => exact .portable Sha256.shows_start
  | native n => exact .native hb

theorem Shows.update (hs : h.Shows message backend) (data : List UInt8) :
    (h.update data).Shows (message ++ data) backend := by
  cases hs with
  | portable shown => exact .portable (shown.update data)
  | native hashes => exact .native hashes

theorem Shows.finish (hs : h.Shows message backend) : h.finish = Sha256.Standard.hash message := by
  cases hs with
  | portable shown => rw [finish, shown.finish, Sha256.ofMessage_eq_standard]
  | native hashes => exact hashes message

end HashEngine

namespace DigestSession

structure Shows (backend : Backend) (message : List UInt8) (s : DigestSession) : Prop where
  backend_eq : s.backend = backend
  engine : s.engine.Shows message backend
  pending_eq : s.pending = message.length

variable {backend : Backend} {message : List UInt8} {s : DigestSession}

theorem shows_start (hb : backend.Hashes) : (start backend).Shows backend [] :=
  ⟨rfl, HashEngine.shows_start hb, rfl⟩

theorem Shows.update (h : s.Shows backend message) (data : List UInt8) :
    (s.update data).Shows backend (message ++ data) := by
  rw [DigestSession.update]
  split
  next hnil =>
    rw [hnil, List.append_nil]
    exact h
  next =>
    refine ⟨h.backend_eq, h.engine.update data, ?_⟩
    rw [List.length_append, ← h.pending_eq]

theorem Shows.digest (h : s.Shows backend message) :
    s.digest = (Sha256.Standard.hash message, start backend) := by
  rw [DigestSession.digest, h.engine.finish, h.backend_eq]

inductive Act where
  | update (data : List UInt8)
  | digest

def act (s : DigestSession) : Act → (Option (List UInt8) × Nat) × DigestSession
  | .update data =>
    let s := s.update data
    ((none, s.pending), s)
  | .digest =>
    let (sum, s) := s.digest
    ((some sum, s.pending), s)

/-- The same by the standard, with the message kept until it is hashed. -/
def plainAct (message : List UInt8) : Act → (Option (List UInt8) × Nat) × List UInt8
  | .update data => ((none, (message ++ data).length), message ++ data)
  | .digest => ((some (Sha256.Standard.hash message), 0), [])

theorem Shows.act (hb : backend.Hashes) (h : s.Shows backend message) (a : Act) :
    (s.act a).1 = (plainAct message a).1 ∧ (s.act a).2.Shows backend (plainAct message a).2 := by
  cases a with
  | update data =>
    have hupdate := h.update data
    exact ⟨congrArg (none, ·) hupdate.pending_eq, hupdate⟩
  | digest =>
    rw [DigestSession.act, h.digest]
    exact ⟨rfl, shows_start hb⟩

end DigestSession

/-- Each digest is the standard's hash of the bytes since the one before, and as many are pending,
in whatever pieces they were given. -/
theorem digests_of_messages (acts : List DigestSession.Act) :
    (replies DigestSession.act (.start .portable) acts).1 =
      (replies DigestSession.plainAct [] acts).1 :=
  have hb : Backend.portable.Hashes := trivial
  (replies_of_related (R := fun s message => s.Shows .portable message) (DigestSession.Shows.act hb)
    (DigestSession.shows_start hb) acts).1

end Conduit
