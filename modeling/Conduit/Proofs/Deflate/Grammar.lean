import Conduit.Deflate.Decompressor
import Conduit.Proofs.Huffman.Decoding
import Conduit.Proofs.Huffman.Lengths

namespace Conduit.Deflate

open BitParser

abbrev Flaw.Reported (flaw : Flaw) : Prop :=
  flaw ≠ .code .outOfRange

/-- What the data can be objected to for before its checksum is looked at. -/
abbrev Flaw.Grammatical (flaw : Flaw) : Prop :=
  flaw.Reported ∧ flaw ≠ .dataCheck

def Tables.Sound (t : Tables) : Prop :=
  t.literals.Holds (fun _ => True) ∧ t.distances.Holds (fun _ => True)

section Incremental

theorem incremental_table (lengths : List Nat) : Incremental (table lengths) :=
  Incremental.ofExcept _

theorem incremental_symbol (t : Huffman.Table) : Incremental (symbol t) :=
  Incremental.mapCause (Huffman.Table.incremental_decode t) Flaw.code

theorem incremental_readFrameHeader : Incremental readFrameHeader := by
  refine (Incremental.bits 8).bind fun _ => (Incremental.bits 8).bind fun _ => ?_
  repeat' split
  all_goals first | exact Incremental.refuse _ | exact Incremental.pure ()

theorem incremental_readRun (t : Huffman.Table) (earlier : Array Nat) :
    Incremental (readRun t earlier) := by
  apply (incremental_symbol t).bind
  intro s
  split
  · split
    · exact Incremental.refuse _
    · exact (Incremental.bits 2).bind fun _ => Incremental.pure _
  · exact (Incremental.bits 3).bind fun _ => Incremental.pure _
  · exact (Incremental.bits 7).bind fun _ => Incremental.pure _
  · exact Incremental.pure _

theorem readLengths_eq (t : Huffman.Table) (total : Nat) (lengths : Array Nat) :
    readLengths t total lengths =
      if lengths.size < total then do
        let run ← readRun t lengths
        if total < lengths.size + (run.2 + 1) then refuse .lengthRepeat
        else readLengths t total (lengths ++ Array.replicate (run.2 + 1) run.1)
      else pure lengths := by
  funext r
  rw [readLengths]
  split
  · change _ = BitParser.bind _ _ r
    rw [BitParser.bind]
    cases readRun t lengths r with
    | value run rest =>
      dsimp only
      split <;> rfl
    | short rest => rfl
    | refused flaw rest => rfl
  · rfl

theorem incremental_readLengths (t : Huffman.Table) (total : Nat) (lengths : Array Nat) :
    Incremental (readLengths t total lengths) := by
  induction h : total - lengths.size using Nat.strong_induction_on generalizing lengths with
  | _ n ih =>
    rw [readLengths_eq]
    split
    · apply (incremental_readRun t lengths).bind
      intro run
      split
      · exact Incremental.refuse _
      · refine ih _ ?_ _ rfl
        rw [Array.size_append, Array.size_replicate]
        omega
    · exact Incremental.pure _

theorem incremental_readTables : Incremental readTables := by
  refine (Incremental.bits 5).bind fun _ => (Incremental.bits 5).bind fun _ =>
    (Incremental.bits 4).bind fun _ => ?_
  dsimp only
  split
  · exact Incremental.refuse _
  · refine (Incremental.fields 3 _).bind fun _ => (incremental_table _).bind fun _ =>
      (incremental_readLengths _ _ _).bind fun _ => ?_
    split
    · exact Incremental.refuse _
    · exact (incremental_table _).bind fun _ => (incremental_table _).bind fun _ =>
        Incremental.pure _

theorem incremental_fixedTables : Incremental fixedTables :=
  (incremental_table _).bind fun _ => (incremental_table _).bind fun _ => Incremental.pure _

theorem incremental_readBlockHead : Incremental readBlockHead := by
  refine (Incremental.bits 1).bind fun _ => (Incremental.bits 2).bind fun _ => ?_
  split
  · refine Incremental.align.bind fun _ => (Incremental.bits 16).bind fun _ =>
      (Incremental.bits 16).bind fun _ => ?_
    split
    · exact Incremental.refuse _
    · exact Incremental.pure _
  · exact incremental_fixedTables.bind fun _ => Incremental.pure _
  · exact incremental_readTables.bind fun _ => Incremental.pure _
  · exact Incremental.refuse _

theorem incremental_readToken (tables : Tables) (reach : Nat) :
    Incremental (readToken tables reach) := by
  apply (incremental_symbol _).bind
  intro s
  repeat' split
  · exact Incremental.pure _
  · exact Incremental.pure _
  · exact Incremental.refuse _
  · refine (Incremental.bits _).bind fun _ => (incremental_symbol _).bind fun _ => ?_
    split
    · exact Incremental.refuse _
    · apply (Incremental.bits _).bind
      intro offset
      dsimp only
      split
      · exact Incremental.refuse _
      · exact Incremental.pure _

theorem incremental_readTrailer : Incremental readTrailer :=
  Incremental.align.bind fun _ => (Incremental.fields 8 4).bind fun _ => Incremental.pure _

end Incremental

section Meets

theorem meets_table {lengths : List Nat} (h : ∀ length ∈ lengths, length ≤ Huffman.maxLength)
    (hn : lengths.length < 2 ^ 16) :
    Meets (table lengths) (·.Holds (· < lengths.length)) Flaw.Grammatical := by
  rw [table]
  cases ht : Huffman.Table.ofLengths lengths with
  | ok t => exact Meets.pure (Huffman.Table.holds_of_ofLengths ht)
  | error flaw =>
    refine Meets.refuse ⟨fun he => ?_, nofun⟩
    cases he
    exact Huffman.Table.ofLengths_ne_outOfRange h hn ht

theorem meets_symbol {t : Huffman.Table} {p : Nat → Prop} (h : t.Holds p) :
    Meets (symbol t) p Flaw.Grammatical :=
  h.meets_decode.mapCause fun _ hc => ⟨fun he => hc (Flaw.code.inj he), nofun⟩

theorem meets_readFrameHeader : Meets readFrameHeader (fun _ => True) Flaw.Grammatical := by
  refine (Meets.bits 8 _).bind fun _ _ => (Meets.bits 8 _).bind fun _ _ => ?_
  repeat' split
  all_goals first | exact Meets.pure trivial | exact Meets.refuse (by decide)

def Admissible (lengths : Array Nat) : Prop :=
  ∀ length ∈ lengths, length ≤ Huffman.maxLength

theorem meets_readRun {t : Huffman.Table} {earlier : Array Nat}
    (ht : t.Holds (· < codeLengthSymbols)) (he : Admissible earlier) :
    Meets (readRun t earlier) (fun run => run.1 ≤ Huffman.maxLength) Flaw.Grammatical := by
  apply (meets_symbol ht).bind
  intro s hs
  split
  · split
    · exact Meets.refuse (by decide)
    next length hb =>
      refine (Meets.bits 2 _).bind fun _ _ => Meets.pure ?_
      exact he length (Array.mem_of_back? hb)
  · exact (Meets.bits 3 _).bind fun _ _ => Meets.pure (Nat.zero_le _)
  · exact (Meets.bits 7 _).bind fun _ _ => Meets.pure (Nat.zero_le _)
  next h16 h17 h18 =>
    apply Meets.pure
    simp only [codeLengthSymbols] at hs
    have : s ≠ 16 := fun h => h16 h
    have : s ≠ 17 := fun h => h17 h
    have : s ≠ 18 := fun h => h18 h
    simp only [Huffman.maxLength]
    omega

theorem meets_readLengths {t : Huffman.Table} {total : Nat} {lengths : Array Nat}
    (ht : t.Holds (· < codeLengthSymbols)) (hl : Admissible lengths) (hs : lengths.size ≤ total) :
    Meets (readLengths t total lengths) (fun a => Admissible a ∧ a.size ≤ total)
      Flaw.Grammatical := by
  induction h : total - lengths.size using Nat.strong_induction_on generalizing lengths with
  | _ n ih =>
    rw [readLengths_eq]
    split
    · apply (meets_readRun ht hl).bind
      intro run hrun
      split
      · exact Meets.refuse (by decide)
      · have hsize : (lengths ++ Array.replicate (run.2 + 1) run.1).size =
            lengths.size + (run.2 + 1) := by
          rw [Array.size_append, Array.size_replicate]
        refine ih _ (by omega) ?_ (by omega) rfl
        intro length hm
        obtain hm | hm := Array.mem_append.mp hm
        · exact hl length hm
        · rw [(Array.mem_replicate.mp hm).2]
          exact hrun
    · exact Meets.pure ⟨hl, hs⟩

theorem headerLengths_eq (sent : List Nat) :
    headerLengths sent =
      (Huffman.place (codeLengthOrder.zip sent) (Array.replicate codeLengthSymbols 0)).toList := rfl

theorem length_headerLengths (sent : List Nat) :
    (headerLengths sent).length = codeLengthSymbols := by
  rw [headerLengths_eq, Array.length_toList, Huffman.size_place, Array.size_replicate]

theorem mem_headerLengths {sent : List Nat} {n : Nat} (h : ∀ length ∈ sent, length ≤ n) :
    ∀ length ∈ headerLengths sent, length ≤ n := by
  intro length hl
  rw [headerLengths_eq, Array.mem_toList_iff] at hl
  obtain hl | ⟨place, hp⟩ := Huffman.mem_place hl
  · rw [(Array.mem_replicate.mp hl).2]
    exact Nat.zero_le n
  · exact h length (List.of_mem_zip hp).2

theorem meets_readTables : Meets readTables Tables.Sound Flaw.Grammatical := by
  refine (Meets.bits 5 _).bind fun a ha => (Meets.bits 5 _).bind fun b hb =>
    (Meets.bits 4 _).bind fun c hc => ?_
  dsimp only
  split
  · exact Meets.refuse (by decide)
  next hle =>
    simp only [literalSymbols, distanceSymbols] at hle
    refine (Meets.fields 3 _ _).bind fun sent hsent => ?_
    have hheader : ∀ length ∈ headerLengths sent, length ≤ Huffman.maxLength :=
      mem_headerLengths fun length hl => by
        have := hsent.2 length hl
        simp only [Huffman.maxLength]
        omega
    refine (meets_table hheader (by rw [length_headerLengths]; decide)).bind fun t ht => ?_
    rw [length_headerLengths] at ht
    refine (meets_readLengths ht (by simp [Admissible]) (Nat.zero_le _)).bind fun lengths hl => ?_
    split
    · exact Meets.refuse (by decide)
    · have hall : ∀ length ∈ lengths.toList, length ≤ Huffman.maxLength := fun length hm =>
        hl.1 length (by simpa using hm)
      have hlen : lengths.toList.length ≤ 320 := by
        rw [Array.length_toList]
        omega
      refine (meets_table (fun length hm => hall length (List.mem_of_mem_take hm)) ?_).bind
        fun literals hlit => ?_
      · rw [List.length_take]
        omega
      refine (meets_table (fun length hm => hall length (List.mem_of_mem_drop hm)) ?_).bind
        fun distances hdist => ?_
      · rw [List.length_drop]
        omega
      exact Meets.pure ⟨hlit.mono fun _ _ => trivial, hdist.mono fun _ _ => trivial⟩

theorem meets_fixedTables : Meets fixedTables Tables.Sound Flaw.Grammatical := by
  refine (meets_table (fun length hl => ?_) (by decide +kernel)).bind fun literals hlit => ?_
  · simp only [fixedLiteralLengths, List.mem_append, List.mem_replicate] at hl
    simp only [Huffman.maxLength]
    omega
  refine (meets_table (fun length hd => ?_) (by decide)).bind fun distances hdist => ?_
  · rw [(List.mem_replicate.mp hd).2]
    decide
  exact Meets.pure ⟨hlit.mono fun _ _ => trivial, hdist.mono fun _ _ => trivial⟩

def BlockHead.Sound : BlockHead → Prop
  | .stored _ => True
  | .coded tables => tables.Sound

theorem meets_readBlockHead :
    Meets readBlockHead (fun head => head.2.Sound) Flaw.Grammatical := by
  refine (Meets.bits 1 _).bind fun _ _ => (Meets.bits 2 _).bind fun _ _ => ?_
  split
  · refine (Meets.align _).bind fun _ _ => (Meets.bits 16 _).bind fun _ _ =>
      (Meets.bits 16 _).bind fun _ _ => ?_
    split
    · exact Meets.refuse (by decide)
    · exact Meets.pure trivial
  · exact meets_fixedTables.bind fun _ ht => Meets.pure ht
  · exact meets_readTables.bind fun _ ht => Meets.pure ht
  · exact Meets.refuse (by decide)

def Token.Within (reach : Nat) : Token → Prop
  | .literal _ => True
  | .copy length distance =>
    minMatch ≤ length ∧ length ≤ maxMatch ∧ 1 ≤ distance ∧ distance ≤ windowSize ∧ distance ≤ reach

theorem lengthClasses_range {i least extraBits offset : Nat}
    (h : lengthClasses[i]? = some (least, extraBits)) (ho : offset < 2 ^ extraBits) :
    minMatch ≤ least + offset ∧ least + offset ≤ maxMatch := by
  have hall : ∀ c ∈ lengthClasses, minMatch ≤ c.1 ∧ c.1 + 2 ^ c.2 ≤ maxMatch + 1 := by decide
  have := hall _ (List.mem_of_getElem? h)
  simp only at this
  omega

theorem distanceClasses_range {i least extraBits offset : Nat}
    (h : distanceClasses[i]? = some (least, extraBits)) (ho : offset < 2 ^ extraBits) :
    1 ≤ least + offset ∧ least + offset ≤ windowSize := by
  have hall : ∀ c ∈ distanceClasses, 1 ≤ c.1 ∧ c.1 + 2 ^ c.2 ≤ windowSize + 1 := by decide
  have := hall _ (List.mem_of_getElem? h)
  simp only at this
  omega

theorem meets_readToken {tables : Tables} (ht : tables.Sound) (reach : Nat) :
    Meets (readToken tables reach) (fun t => ∀ token ∈ t, token.Within reach) Flaw.Grammatical := by
  apply (meets_symbol ht.1).bind
  intro s _
  split
  · exact Meets.pure (by simp [Token.Within])
  split
  · exact Meets.pure (by simp)
  split
  · exact Meets.refuse (by decide)
  next least extraBits hclass =>
    refine (Meets.bits _ _).bind fun offset ho => (meets_symbol ht.2).bind fun d _ => ?_
    have hlength := lengthClasses_range hclass ho
    split
    · exact Meets.refuse (by decide)
    next least extraBits hclass =>
      refine (Meets.bits _ _).bind fun offset ho => ?_
      have hdistance := distanceClasses_range hclass ho
      dsimp only
      split
      · exact Meets.refuse (by decide)
      next hreach =>
        apply Meets.pure
        intro token hm
        cases hm
        exact ⟨hlength.1, hlength.2, hdistance.1, hdistance.2, Nat.not_lt.mp hreach⟩

theorem meets_readTrailer : Meets readTrailer (fun _ => True) Flaw.Grammatical :=
  (Meets.align _).bind fun _ _ => (Meets.fields 8 4 _).bind fun _ _ => Meets.pure trivial

theorem position_readBlockHead {r r' : BitReader} {last : Bool} {length : Nat}
    (h : readBlockHead r = .value (last, .stored length) r') : r'.position % 8 = 0 := by
  rw [readBlockHead] at h
  obtain ⟨_, _, -, h⟩ := bind_eq_value.mp h
  obtain ⟨_, _, -, h⟩ := bind_eq_value.mp h
  split at h
  · obtain ⟨_, s, hs, h⟩ := bind_eq_value.mp h
    obtain ⟨_, t, ht, h⟩ := bind_eq_value.mp h
    obtain ⟨_, u, hu, h⟩ := bind_eq_value.mp h
    split at h <;> cases h
    have hs : s.position % 8 = 0 := by
      cases hs
      exact Nat.mul_mod_left _ 8
    rw [position_bits hu, position_bits ht]
    omega
  · obtain ⟨_, _, -, h⟩ := bind_eq_value.mp h
    cases h
  · obtain ⟨_, _, -, h⟩ := bind_eq_value.mp h
    cases h
  · cases h

end Meets

/-- Beyond the window the reach does not matter, since no distance is so great. -/
theorem readToken_congr (tables : Tables) {m n : Nat} (h : min m windowSize = min n windowSize) :
    readToken tables m = readToken tables n := by
  have hreach (distance : Nat) (hd : distance ≤ windowSize) : m < distance ↔ n < distance := by
    omega
  rw [readToken, readToken]
  apply bind_congr
  intro s
  split
  · rfl
  split
  · rfl
  split
  · rfl
  apply bind_congr
  intro offset
  apply bind_congr
  intro d
  split
  · rfl
  next least extraBits hclass =>
    apply (Meets.bits extraBits Flaw.Grammatical).bind_congr
    intro offset ho
    simp only [hreach _ (distanceClasses_range hclass ho).2]

end Conduit.Deflate
