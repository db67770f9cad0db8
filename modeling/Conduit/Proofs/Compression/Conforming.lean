import Conduit.Proofs.Compression.Driving
import Conduit.Proofs.Deflate.Accepting

namespace Conduit

open Bits Deflate Relation

variable {blocks : List Format.Block} {out : List UInt8}

theorem halts_stream (hne : blocks ≠ []) (hlegal : ∀ block ∈ blocks, block.Legal)
    (he : Format.expand blocks = some out) :
    ∃ e bits, Halts false (opening false (Format.stream blocks)) .ended e ∧
      e.history.toList = out ∧ e.reader.Holds bits ∧ bits.length < 8 := by
  have hr : (opening false (Format.stream blocks)).reader.Holds
      (pad (Format.streamBits [] blocks)) := by
    rw [← ofBytes_pack]
    exact BitReader.holds_empty.push _
  obtain ⟨fill, hfill, hpad⟩ := exists_fill (Format.streamBits [] blocks)
  have hbits : [] ++ pad (Format.streamBits [] blocks) = Format.streamBits [] blocks ++ fill := hpad
  obtain ⟨r', history', hr', hafter, hleads⟩ := leads_stream false #[] hne hlegal he hr hbits
    (length_pad_mod _)
  exact ⟨_, _, .of_leads hleads ⟨by simp, _, .refl, rfl⟩, hafter, hr', hfill⟩

/-- Every list of legal blocks is read to its end, and its expansion comes out. -/
theorem conforming_stream_accepted (hne : blocks ≠ []) (hlegal : ∀ block ∈ blocks, block.Legal)
    (he : Format.expand blocks = some out) (level : Nat) {s : Schedule} (hs : s.Feeds) :
    ∃ session t, Session.start ⟨.portable, .decompress, level, true⟩ = .ok session ∧
      s.Ends session (Format.stream blocks) t ∧ t.finished = true ∧ t.error? = none ∧
      t.output.toList = out ∧ t.left = [] ∧ t.consumed = (Format.stream blocks).length := by
  obtain ⟨session, t, hstart, hends, hshows⟩ := hs.ends level true (Format.stream blocks)
  obtain ⟨e, bits, hhalts, hout, hholds, hlt⟩ := halts_stream hne hlegal he
  refine ⟨session, t, hstart, hends, ?_⟩
  cases hshows with
  | finished hh ho hr hb hc hf herr =>
    obtain ⟨-, rfl⟩ := hhalts.unique hh
    have hleft : t.left = [] := by
      have hlen := congrArg List.length (hholds.unique hr)
      rw [List.length_append, length_ofBytes] at hlen
      exact List.length_eq_zero_iff.mp (by omega)
    rw [hleft, List.length_nil, Nat.add_zero] at hc
    exact ⟨hf, herr, ho.trans hout, hleft, hc⟩
  | failed hh hr _ _ _ _ =>
    obtain ⟨rfl, -⟩ := hhalts.unique hh
    cases hr

/-- A stored block and a fixed one whose copy reaches back into it. -/
theorem conforming_stream_accepted_across_blocks :
    ∃ session t, Session.start ⟨.portable, .decompress, 6, true⟩ = .ok session ∧
      Schedule.Ends ⟨fun _ => some 1, fun _ => 1, true⟩ session
        (Format.stream [.stored [1, 2], .fixed [.literal 7, .copy ⟨0, 0⟩ ⟨2, 0⟩]]) t ∧
      t.finished = true ∧ t.error? = none ∧ t.output.toList = [1, 2, 7, 1, 2, 7] ∧ t.left = [] ∧
      t.consumed =
        (Format.stream [.stored [1, 2], .fixed [.literal 7, .copy ⟨0, 0⟩ ⟨2, 0⟩]]).length :=
  conforming_stream_accepted (by decide)
    (by
      intro block hb
      simp only [List.mem_cons, List.not_mem_nil, or_false] at hb
      obtain rfl | rfl := hb
      · exact Nat.le_of_ble_eq_true rfl
      · intro item hi
        simp only [List.mem_cons, List.not_mem_nil, or_false] at hi
        obtain rfl | rfl := hi
        · exact ⟨rfl, by decide +kernel, by simp [Format.Item.distanceSymbol?]⟩
        · refine ⟨rfl, by decide +kernel, ?_⟩
          intro symbol hsymbol
          cases hsymbol
          decide +kernel)
    rfl 6 ⟨⟨by simp, rfl⟩, by simp⟩

end Conduit
