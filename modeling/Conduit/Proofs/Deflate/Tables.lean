import Conduit.Deflate.Format

namespace Conduit.Deflate.Format

theorem lengthClasses_eq : lengthClasses = Deflate.lengthClasses := rfl

theorem distanceClasses_eq : distanceClasses = Deflate.distanceClasses := rfl

theorem fixedLiterals_eq : fixedLiterals = fixedLiteralLengths := by
  decide +kernel

theorem fixedDistances_eq : fixedDistances = fixedDistanceLengths := rfl

theorem inSendingOrder_eq (lengths : List Nat) :
    inSendingOrder lengths = Header.ordered lengths := rfl

theorem runBits_eq (symbol : Nat) : runBits symbol = Run.extraBits symbol := by
  by_cases h16 : symbol = 16
  · rw [h16]
    rfl
  by_cases h17 : symbol = 17
  · rw [h17]
    rfl
  by_cases h18 : symbol = 18
  · rw [h18]
    rfl
  rw [runBits, if_neg h16, if_neg h17, if_neg h18, Run.extraBits] <;> assumption

theorem Head.bits_eq (h : Head) :
    h.bits = Bits.ofNat 5 (h.literals.length - 257) ++ Bits.ofNat 5 (h.distances.length - 1) ++
      Bits.ofNat 4 (h.sent - 4) ++ ((Header.ordered h.own).take h.sent).flatMap (Bits.ofNat 3) ++
      h.runs.flatMap fun run =>
        Huffman.codeBits h.own run.symbol ++ Bits.ofNat (Run.extraBits run.symbol) run.extra := by
  simp only [bits, inSendingOrder_eq, runBits_eq]

theorem Head.Legal.extra_lt {h : Head} (hl : h.Legal) :
    ∀ run ∈ h.runs, 0 < h.own.getD run.symbol 0 ∧ run.extra < 2 ^ Run.extraBits run.symbol := by
  intro run hm
  rw [← runBits_eq]
  exact hl.run_coded run hm

end Conduit.Deflate.Format
