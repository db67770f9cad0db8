import Mathlib.Tactic.NormNum
import Conduit.Proofs.Huffman.Completeness
import Conduit.Proofs.Machine.Decoding

namespace Conduit.Huffman

open Bits BitParser

def sentBits (lengths codes : List Nat) (symbol : Nat) : List Bool :=
  Bits.ofNat (lengths.getD symbol 0) (codes.getD symbol 0)

def putCodes (lengths codes : List Nat) (w : BitWriter) (message : List Nat) : BitWriter :=
  message.foldl (fun w symbol => w.put (codes.getD symbol 0) (lengths.getD symbol 0)) w

def Table.decodeAll (t : Table) : (count : Nat) → BitParser Flaw (List Nat)
  | 0 => pure []
  | count + 1 => do
    let symbol ← t.decode
    let rest ← t.decodeAll count
    return symbol :: rest

/-- The codes of the symbols that have one are written so that none begins another, and reading as
many symbols as were written gives them back and stops right behind them. -/
structure Decodable (lengths codes : List Nat) (t : Table) : Prop where
  length_eq : codes.length = lengths.length
  prefixFree : ∀ s s', 0 < lengths.getD s 0 → 0 < lengths.getD s' 0 →
    sentBits lengths codes s <+: sentBits lengths codes s' → s = s'
  returns : ∀ message : List Nat, (∀ s ∈ message, 0 < lengths.getD s 0) →
    ∀ (w : BitWriter) (before : List Bool), w.Wrote before →
      ∃ sent, (putCodes lengths codes w message).Wrote (before ++ sent) ∧
        ∀ (r : BitReader) (tail : List Bool), r.Holds (sent ++ tail) →
          t.decodeAll message.length r =
            .value message { r with position := r.position + sent.length }

section Space

variable {lengths : List Nat}

theorem claimed_le_iff (hle : ∀ length ∈ lengths, length ≤ maxLength) :
    claimed lengths ≤ 2 ^ maxLength ↔ kraftSum lengths ≤ 1 := by
  have hmul := kraftSum_mul hle
  have hclaimed := claimed_eq hle (Nat.le_refl maxLength)
  rw [Nat.sub_self, Nat.pow_zero, Nat.one_mul] at hclaimed
  have hpos : (0 : ℚ) < 2 ^ maxLength := pow_pos two_pos maxLength
  rw [hclaimed, ← mul_le_mul_iff_left₀ hpos, hmul, one_mul]
  exact_mod_cast Iff.rfl

theorem feasible_iff (hle : ∀ length ∈ lengths, length ≤ maxLength) :
    Feasible lengths ↔ kraftSum lengths ≤ 1 := by
  rw [← claimed_le_iff hle]
  exact and_iff_right hle

theorem ofLengths_eq_error_iff (hle : ∀ length ∈ lengths, length ≤ maxLength)
    (hn : lengths.length < 2 ^ 16) :
    Table.ofLengths lengths = .error .overSubscribed ↔ ¬ Feasible lengths := by
  constructor
  · intro herror h
    rw [Table.ofLengths_eq_ok h hn] at herror
    cases herror
  · intro h
    have hfits : fits 1 (lengthCounts lengths) = false := by
      by_contra hfits
      apply h
      exact feasible_of_fits hle (Bool.eq_true_of_not_eq_false hfits)
    rw [Table.ofLengths, Table.countable_of_le hle hn, hfits]
    rfl

end Space

section Message

variable {lengths : List Nat}

theorem getElem?_of_getD_pos {s : Nat} (h : 0 < lengths.getD s 0) :
    lengths[s]? = some (lengths.getD s 0) := by
  rw [List.getD_eq_getElem?_getD] at h ⊢
  cases hs : lengths[s]? with
  | none =>
    rw [hs] at h
    cases h
  | some own => rfl

/-- The numbered codes are the canonical ones. -/
theorem sentBits_reversedCodes (hle : ∀ length ∈ lengths, length ≤ maxLength) {s : Nat}
    (h : 0 < lengths.getD s 0) :
    sentBits lengths (reversedCodes lengths) s = codeBits lengths s := by
  have hs := getElem?_of_getD_pos h
  obtain ⟨hown, hcode⟩ := code_ofLengths hs
  rw [← ofNat_code hs (hle _ (List.mem_of_getElem? hs)), hown, sentBits,
    List.getD_eq_getElem?_getD (l := reversedCodes lengths), hcode]
  rfl

/-- If one code begins another, both are decoded from the longer one, which gives one symbol. -/
theorem Feasible.eq_of_codeBits (h : Feasible lengths) {s s' : Nat} (hs : 0 < lengths.getD s 0)
    (hs' : 0 < lengths.getD s' 0) (hp : codeBits lengths s <+: codeBits lengths s') : s = s' := by
  obtain ⟨rest, hrest⟩ := hp
  have hshort := Table.yields_decode h (getElem?_of_getD_pos hs) hs rest
  have hlong := Table.yields_decode h (getElem?_of_getD_pos hs') hs' []
  rw [List.append_nil, ← hrest] at hlong
  exact (hlong.det hshort).1

theorem wrote_putCodes {w : BitWriter} {before : List Bool} (h : w.Wrote before)
    (lengths codes message : List Nat) :
    (putCodes lengths codes w message).Wrote
      (before ++ message.flatMap (sentBits lengths codes)) := by
  apply h.foldl
  intro w bits s _ hw
  exact hw.put _ _

theorem Feasible.decode_eq (h : Feasible lengths) (hn : lengths.length < 2 ^ 16) {s : Nat}
    (hs : 0 < lengths.getD s 0) {r : BitReader} {tail : List Bool}
    (hr : r.Holds (codeBits lengths s ++ tail)) :
    (Table.ofFeasible lengths).decode r =
      .value s { r with position := r.position + (codeBits lengths s).length } := by
  have hrenders := Machine.Decoder.renders_ofTable (Table.ofLengths_eq_ok h hn)
  apply hrenders.follows_decode.reads hr
  exact Table.yields_decode h (getElem?_of_getD_pos hs) hs tail

theorem Feasible.decodeAll_eq (h : Feasible lengths) (hn : lengths.length < 2 ^ 16)
    {message : List Nat} (hm : ∀ s ∈ message, 0 < lengths.getD s 0) {r : BitReader}
    {tail : List Bool} (hr : r.Holds (message.flatMap (codeBits lengths) ++ tail)) :
    (Table.ofFeasible lengths).decodeAll message.length r =
      .value message
        { r with position := r.position + (message.flatMap (codeBits lengths)).length } := by
  induction message generalizing r with
  | nil => rfl
  | cons s message ih =>
    rw [List.flatMap_cons, List.append_assoc] at hr
    have hfirst := h.decode_eq hn (hm s List.mem_cons_self) hr
    -- the reader stands at the first bit of the next code
    have hnext := hr.skip (n := (codeBits lengths s).length)
      (List.length_append ▸ Nat.le_add_right _ _)
    rw [List.drop_left] at hnext
    have hrest := ih (fun s' hs' => hm s' (List.mem_cons_of_mem s hs')) hnext
    rw [List.length_cons, Table.decodeAll, bind_value hfirst, bind_value hrest, List.flatMap_cons,
      List.length_append, ← Nat.add_assoc]
    rfl

theorem Feasible.decodable (h : Feasible lengths) (hn : lengths.length < 2 ^ 16) :
    Decodable lengths (reversedCodes lengths) (Table.ofFeasible lengths) where
  length_eq := length_assignCodes _ lengths
  prefixFree s s' hs hs' hp := by
    rw [sentBits_reversedCodes h.1 hs, sentBits_reversedCodes h.1 hs'] at hp
    exact h.eq_of_codeBits hs hs' hp
  returns message hm w before hw := by
    have hsent : message.flatMap (sentBits lengths (reversedCodes lengths)) =
        message.flatMap (codeBits lengths) := by
      apply List.flatMap_congr
      intro s hs
      exact sentBits_reversedCodes h.1 (hm s hs)
    have hwrote := wrote_putCodes hw lengths (reversedCodes lengths) message
    rw [hsent] at hwrote
    exact ⟨_, hwrote, fun r tail hr => h.decodeAll_eq hn hm hr⟩

/-- Lengths are turned down exactly if they claim more than the whole code space. Otherwise, also
where some of it is left over, what is written with the codes is decoded. -/
theorem canonical_code_decodable (hle : ∀ length ∈ lengths, length ≤ 15)
    (hn : lengths.length ≤ 65535) :
    (Table.ofLengths lengths = .error .overSubscribed ↔ 1 < kraftSum lengths) ∧
      (kraftSum lengths ≤ 1 → ∃ t codes, Table.ofLengths lengths = .ok t ∧
        reversedCodes? lengths = some codes ∧ Decodable lengths codes t) := by
  have hn : lengths.length < 2 ^ 16 := Nat.lt_succ_of_le hn
  constructor
  · rw [ofLengths_eq_error_iff hle hn, feasible_iff hle, not_le]
  · intro hsum
    have h := (feasible_iff hle).mpr hsum
    exact ⟨_, _, Table.ofLengths_eq_ok h hn, h.reversedCodes?_eq, h.decodable hn⟩

/-- A code of seven eighths of the code space, with a symbol that has no code. -/
theorem canonical_code_decodable_of_incomplete :
    kraftSum [2, 0, 3, 1] = 7 / 8 ∧
      ∃ t codes, Table.ofLengths [2, 0, 3, 1] = .ok t ∧
        reversedCodes? [2, 0, 3, 1] = some codes ∧ Decodable [2, 0, 3, 1] codes t := by
  have hsum : kraftSum [2, 0, 3, 1] = 7 / 8 := by
    simp only [kraftSum]
    norm_num
  refine ⟨hsum, (canonical_code_decodable (by decide) (by decide)).2 ?_⟩
  rw [hsum]
  norm_num

end Message

end Conduit.Huffman
