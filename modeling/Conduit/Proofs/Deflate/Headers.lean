import Conduit.Proofs.Deflate.Accepting
import Conduit.Proofs.Deflate.Heads
import Conduit.Proofs.Machine.Grammar

namespace Conduit.Deflate

open Bits
open Huffman (codeBits length_codeBits)

structure Header.Sendable (h : Header) : Prop where
  literalCount : 257 ≤ h.literalCount ∧ h.literalCount ≤ literalSymbols
  literalLengths : h.literalLengths.length = literalSymbols
  distanceCount : 1 ≤ h.distanceCount ∧ h.distanceCount ≤ distanceSymbols
  distanceLengths : h.distanceLengths.length = distanceSymbols
  headerCount : 4 ≤ h.headerCount ∧ h.headerCount ≤ codeLengthSymbols
  runs : ∀ run ∈ h.runs, 0 < h.headerLengths.getD run.symbol 0

/-- What is sent for a header takes what it costs, together with the three bits before it, and is
read as these tables, whatever follows. -/
structure Header.ReadAs (h : Header) (sent : List Bool) (tables : Tables) : Prop where
  wrote : ∀ (w : BitWriter) (before : List Bool), w.Wrote before →
    (h.write w).Wrote (before ++ sent)
  cost_eq : 3 + sent.length = h.cost
  literals : Huffman.Table.ofLengths (h.literalLengths.take h.literalCount) = .ok tables.literals
  distances :
    Huffman.Table.ofLengths (h.distanceLengths.take h.distanceCount) = .ok tables.distances
  read : ∀ (r : BitReader) (tail : List Bool), r.Holds (sent ++ tail) →
    readTables r = .value tables { r with position := r.position + sent.length }

theorem Format.Head.Legal.length_bits {h : Format.Head} (hl : h.Legal) :
    h.bits.length = 14 + 3 * h.sent +
      (h.runs.map fun run => h.own.getD run.symbol 0 + Run.extraBits run.symbol).sum := by
  have hrun (run : Run) : (codeBits h.own run.symbol ++
      ofNat (Run.extraBits run.symbol) run.extra).length =
      h.own.getD run.symbol 0 + Run.extraBits run.symbol := by
    rw [List.length_append, length_codeBits, length_ofNat]
  rw [Format.Head.bits_eq]
  simp only [List.length_append, length_ofNat, length_flatMap_ofNat, length_sent hl]
  rw [List.length_flatMap]
  simp only [hrun]

section Frequencies

variable {literals distances : List Nat}

theorem sendable_ofFrequencies (hl : literals.length = literalSymbols)
    (hd : distances.length = distanceSymbols) (hend : 0 < literals.getD endOfBlock 0) :
    (Header.ofFrequencies literals distances).Sendable where
  literalCount := ⟨Nat.le_max_right _ 257, length_literalLengths hl ▸ literalCount_le hl⟩
  literalLengths := length_literalLengths hl
  distanceCount := ⟨Nat.le_max_right _ 1, length_distanceLengths hd ▸ distanceCount_le hd⟩
  distanceLengths := length_distanceLengths hd
  headerCount := (legal_toHead hl hd hend).sent_range
  runs run hm := ((legal_toHead hl hd hend).run_coded run hm).1

/-- The bits of a legal head are its header's cost, less the three bits before them. -/
theorem Header.cost_eq {h : Header} (hl : h.toHead.Legal) : 3 + h.toHead.bits.length = h.cost := by
  rw [hl.length_bits, Header.cost, Header.toHead, Huffman.total_eq_sum]
  dsimp only
  omega

/-- Of any header that stands for a legal head, the reader makes out that head's codes. -/
theorem Header.readAs {h : Header} (hl : h.toHead.Legal)
    (hlit : h.literalCount ≤ h.literalLengths.length)
    (hdist : h.distanceCount ≤ h.distanceLengths.length) :
    h.ReadAs h.toHead.bits
      ⟨.ofFeasible h.toHead.literals, .ofFeasible h.toHead.distances⟩ where
  wrote _ _ hw := wrote_header hl hw hlit hdist
  cost_eq := Header.cost_eq hl
  literals := Huffman.Table.ofLengths_eq_ok hl.literals_feasible
    (hl.literals_length.2.trans_lt (by decide))
  distances := Huffman.Table.ofLengths_eq_ok hl.distances_feasible
    (hl.distances_length.2.trans_lt (by decide))
  read _ tail hr := Machine.follows_decoders.reads hr (yields_readTables hl tail)

/-- Whatever occurs in a block that ends, its header can be sent, and is read back whole. -/
theorem dynamic_header_read_back (hl : literals.length = literalSymbols)
    (hd : distances.length = distanceSymbols) (hend : 0 < literals.getD endOfBlock 0) :
    (Header.ofFrequencies literals distances).Sendable ∧
      ∃ sent tables, (Header.ofFrequencies literals distances).ReadAs sent tables :=
  ⟨sendable_ofFrequencies hl hd hend, _, _,
    Header.readAs (legal_toHead hl hd hend) (literalCount_le hl) (distanceCount_le hd)⟩

/-- Literals with gaps between them, lengths and distances, whose code lengths take all forms of
runs. -/
theorem dynamic_header_read_back_of_all_runs :
    ∃ literals distances, literals = [1, 1, 1, 1, 1] ++ List.replicate 5 0 ++ [4] ++
        List.replicate 245 0 ++ [1, 2, 1] ++ List.replicate 27 0 ∧
      distances = [3, 1] ++ List.replicate 28 0 ∧ 0 < literals.getD endOfBlock 0 ∧
      (∀ symbol ∈ [16, 17, 18],
        symbol ∈ (Header.ofFrequencies literals distances).runs.map Run.symbol) ∧
      (Header.ofFrequencies literals distances).Sendable ∧
      ∃ sent tables, (Header.ofFrequencies literals distances).ReadAs sent tables :=
  ⟨_, _, rfl, rfl, by decide +kernel, by decide +kernel,
    dynamic_header_read_back (by decide +kernel) rfl (by decide +kernel)⟩

end Frequencies

end Conduit.Deflate
