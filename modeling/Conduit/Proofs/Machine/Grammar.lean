import Conduit.Proofs.Deflate.Grammar
import Conduit.Proofs.Machine.Decoding

namespace Conduit.Machine

open Deflate Checked

structure Decoders where
  literals : Decoder
  distances : Decoder

inductive Head where
  | stored (length : Nat)
  | coded (decoders : Decoders)

def cut? {α : Type} (l : List α) (n : Nat) : Option (List α × List α) :=
  if n ≤ l.length then some (l.take n, l.drop n) else none

def fill? (a : Array Nat) (i n x : Nat) : Option (Array Nat) :=
  if i + n ≤ a.size then
    some (a.extract 0 i ++ Array.replicate n x ++ a.extract (i + n) a.size)
  else none

def frameHeader : Checked Flaw Unit := do
  let (method, flags) ← both (bits 8) (bits 8)
  if method % 16 ≠ 8 then refuse .unknownMethod
  else if 7 < method / 16 then refuse .windowSize
  else if (method * 256 + flags) % 31 ≠ 0 then refuse .headerCheck
  else if flags / 32 % 2 = 1 then refuse .presetDictionary
  else return ()

def decoder (lengths : List Nat) : Checked Flaw Decoder := do
  match ← need (Decoder.ofLengths? lengths) with
  | .ok d => return d
  | .error flaw => refuse (.code flaw)

def symbol (d : Decoder) : Checked Flaw Nat :=
  d.decode.mapCause .code

def enter : (order : List Nat) → (lengths : Array Nat) → Checked Flaw (Array Nat)
  | [], lengths => return lengths
  | s :: order, lengths => do
    let length ← bits 3
    let lengths ← need (put? lengths s length)
    enter order lengths

def lengthRun (d : Decoder) (lengths : Array Nat) (i : Nat) : Checked Flaw (Nat × Nat) := do
  let s ← symbol d
  if s ≤ 15 then return (s, 0)
  else if s = 16 then
    if i = 0 then refuse .lengthRepeat
    else
      let extra ← bits 2
      let length ← need ((sub? i 1).bind fun j => lengths[j]?)
      return (length, 2 + extra)
  else if s = 17 then return (0, 2 + (← bits 3))
  else return (0, 10 + (← bits 7))

def fillLengths (d : Decoder) (total : Nat) (lengths : Array Nat) (i : Nat) :
    Checked Flaw (Array Nat) :=
  fun r =>
    if i < total then
      match lengthRun d lengths i r with
      | none => none
      | some (.value (length, more) rest) =>
        if total < i + (more + 1) then some (.refused .lengthRepeat rest)
        else
          match fill? lengths i (more + 1) length with
          | none => none
          | some lengths => fillLengths d total lengths (i + (more + 1)) rest
      | some (.short rest) => some (.short rest)
      | some (.refused flaw rest) => some (.refused flaw rest)
    else some (.value lengths r)
termination_by total - i

def headerDecoder (count : Nat) : Checked Flaw Decoder := do
  let (order, _) ← need (cut? codeLengthOrder count)
  let lengths ← enter order (Array.replicate codeLengthSymbols 0)
  decoder lengths.toList

def blockDecoders (lengths : Array Nat) (literalCount : Nat) : Checked Flaw Decoders := do
  let ending ← need lengths[endOfBlock]?
  if ending = 0 then refuse .missingEndOfBlock
  else
    let (first, second) ← need (cut? lengths.toList literalCount)
    let literals ← decoder first
    let distances ← decoder second
    return ⟨literals, distances⟩

def decoders : Checked Flaw Decoders := do
  let (a, b, c) ← both (bits 5) (both (bits 5) (bits 4))
  let literalCount := 257 + a
  let distanceCount := 1 + b
  let headerCount := 4 + c
  if literalSymbols < literalCount ∨ distanceSymbols < distanceCount then refuse .tooManySymbols
  else
    let d ← headerDecoder headerCount
    let total := literalCount + distanceCount
    let lengths ← fillLengths d total (Array.replicate total 0) 0
    blockDecoders lengths literalCount

def fixedDecoders : Checked Flaw Decoders := do
  let literals ← decoder fixedLiteralLengths
  let distances ← decoder fixedDistanceLengths
  return ⟨literals, distances⟩

def blockHead : Checked Flaw (Bool × Head) := do
  let (last, kind) ← both (bits 1) (bits 2)
  match kind with
  | 0 =>
    align
    let (length, complement) ← both (bits 16) (bits 16)
    let expected ← need (sub? maxStored complement)
    if length ≠ expected then refuse .storedLengths
    else return (last = 1, .stored length)
  | 1 => return (last = 1, .coded (← fixedDecoders))
  | 2 => return (last = 1, .coded (← decoders))
  | _ => refuse .blockType

def token (d : Decoders) (reach : Nat) : Checked Flaw (Option Token) := do
  let s ← symbol d.literals
  if s < endOfBlock then return some (.literal (UInt8.ofNat s))
  else if s = endOfBlock then return none
  else if s < literalSymbols then
    let i ← need (sub? s 257)
    let (least, extraBits) ← need lengthClasses[i]?
    let length := least + (← bits extraBits)
    let j ← symbol d.distances
    if distanceClasses.length ≤ j then refuse .distanceCode
    else
      let (least, extraBits) ← need distanceClasses[j]?
      let distance := least + (← bits extraBits)
      if reach < distance then refuse .tooFarBack
      else return some (.copy length distance)
  else refuse .literalCode

def trailer : Checked Flaw Nat := do
  align
  await 32
  let bytes ← fields 8 4
  return Octets.ofBigEndian (bytes.map UInt8.ofNat)

theorem cut?_of_le {α : Type} {l : List α} {n : Nat} (h : n ≤ l.length) :
    cut? l n = some (l.take n, l.drop n) := if_pos h

theorem follows_frameHeader : Follows (fun _ _ => True) frameHeader readFrameHeader := by
  refine (Follows.bits 8).bind_both (Follows.bits 8) fun method _ flags _ hm hf => ?_
  obtain ⟨rfl, -⟩ := hm
  obtain ⟨rfl, -⟩ := hf
  dsimp only
  repeat' split
  all_goals first | exact .refuse _ | exact .pure trivial

theorem follows_symbol {t : Huffman.Table} {d : Decoder} (h : d.Renders t) {p : Nat → Prop}
    (ht : t.Holds p) : Follows (fun a b => b = a ∧ p a) (symbol d) (Deflate.symbol t) :=
  (h.follows_decode.mapCause Flaw.code).meets (meets_symbol ht)

theorem follows_decoder {lengths : List Nat}
    (hl : ∀ length ∈ lengths, length ≤ Huffman.maxLength) (hn : lengths.length < 2 ^ 16) :
    Follows (fun t d => d.Renders t) (decoder lengths) (table lengths) := by
  rw [decoder, table]
  refine .need (Decoder.ofLengths?_eq hl hn) ?_
  cases h : Huffman.Table.ofLengths lengths with
  | ok t => exact .pure (Decoder.renders_ofTable h)
  | error flaw => exact .refuse _

section Lengths

variable {t : Huffman.Table} {d : Decoder} {done lengths : Array Nat} {total : Nat}

theorem follows_enter (order : List Nat) {a : Array Nat} (h : ∀ s ∈ order, s < a.size) :
    Follows (fun sent b => b = Huffman.place (order.zip sent) a) (enter order a)
      (BitParser.fields 3 order.length) := by
  induction order generalizing a with
  | nil => exact .pure rfl
  | cons s order ih =>
    refine (Follows.bits 3).bind fun _ length hlength => ?_
    obtain ⟨rfl, -⟩ := hlength
    refine .need (put?_of_lt length (h s (by simp))) ?_
    refine (ih fun s' hs' => ?_).map _ fun sent b hb => ?_
    · rw [Array.size_setIfInBounds]
      exact h s' (List.mem_cons_of_mem _ hs')
    · rw [hb, List.zip_cons_cons, Huffman.place_cons]

structure Filled (total : Nat) (done lengths : Array Nat) : Prop where
  size_eq : lengths.size = total
  size_le : done.size ≤ total
  get : ∀ i < done.size, lengths[i]? = done[i]?

theorem filled_empty (lengths : Array Nat) : Filled lengths.size #[] lengths :=
  ⟨rfl, Nat.zero_le _, fun _ h => absurd h (Nat.not_lt_zero _)⟩

theorem Filled.eq (h : Filled total done lengths) (ht : total ≤ done.size) : lengths = done := by
  apply Array.ext_getElem?
  intro i
  have hsize := h.size_eq
  by_cases hi : i < done.size
  · exact h.get i hi
  · rw [Array.getElem?_eq_none (by omega), Array.getElem?_eq_none (by omega)]

theorem Filled.fill? (h : Filled total done lengths) {n : Nat} (hn : done.size + n ≤ total)
    (x : Nat) :
    ∃ lengths', Machine.fill? lengths done.size n x = some lengths' ∧
      Filled total (done ++ Array.replicate n x) lengths' := by
  have hsize := h.size_eq
  refine ⟨_, if_pos (by omega), ?_, ?_, ?_⟩
  · simp only [Array.size_append, Array.size_extract, Array.size_replicate]
    omega
  · rw [Array.size_append, Array.size_replicate]
    exact hn
  · intro i hi
    rw [Array.size_append, Array.size_replicate] at hi
    have hfront : (lengths.extract 0 done.size).size = done.size := by
      rw [Array.size_extract]
      omega
    rw [Array.getElem?_append_left (by
      rw [Array.size_append, Array.size_replicate, hfront]
      exact hi)]
    by_cases hd : i < done.size
    · rw [Array.getElem?_append_left (by rwa [hfront]), Array.getElem?_append_left hd,
        Array.getElem?_extract, if_pos (by omega), Nat.zero_add, h.get i hd]
    · rw [Array.getElem?_append_right (by rw [hfront]; omega),
        Array.getElem?_append_right (by omega), hfront]

theorem follows_lengthRun (h : d.Renders t) (ht : t.Holds (· < codeLengthSymbols))
    (hf : Filled total done lengths) :
    Follows (fun a b => b = a) (lengthRun d lengths done.size) (readRun t done) := by
  refine (follows_symbol h ht).bind fun _ s hs => ?_
  obtain ⟨rfl, hs⟩ := hs
  rw [codeLengthSymbols] at hs
  obtain hle | rfl | rfl | rfl : s ≤ 15 ∨ s = 16 ∨ s = 17 ∨ s = 18 := by omega
  · rw [if_pos hle]
    split
    · omega
    · omega
    · omega
    · exact .pure rfl
  · rw [if_neg (by decide), if_pos rfl]
    by_cases h0 : done.size = 0
    · rw [if_pos h0, Array.eq_empty_of_size_eq_zero h0]
      exact .refuse _
    · have hlast : done.size - 1 < done.size := by omega
      rw [if_neg h0, Array.back?_eq_getElem?, Array.getElem?_eq_getElem hlast]
      refine (Follows.bits 2).bind fun _ extra hextra => ?_
      obtain ⟨rfl, -⟩ := hextra
      refine .need ?_ (.pure rfl)
      rw [sub?_of_le (Nat.pos_of_ne_zero h0), Option.bind_some, hf.get _ hlast,
        Array.getElem?_eq_getElem hlast]
  · rw [if_neg (by decide), if_neg (by decide), if_pos rfl]
    refine (Follows.bits 3).bind fun _ extra hextra => .pure ?_
    rw [hextra.1]
  · rw [if_neg (by decide), if_neg (by decide), if_neg (by decide)]
    refine (Follows.bits 7).bind fun _ extra hextra => .pure ?_
    rw [hextra.1]

theorem fillLengths_eq (d : Decoder) (total : Nat) (lengths : Array Nat) (i : Nat) :
    fillLengths d total lengths i =
      if i < total then do
        let run ← lengthRun d lengths i
        if total < i + (run.2 + 1) then refuse .lengthRepeat
        else
          let lengths ← need (fill? lengths i (run.2 + 1) run.1)
          fillLengths d total lengths (i + (run.2 + 1))
      else pure lengths := by
  funext r
  rw [fillLengths]
  split
  · change _ = Checked.bind _ _ r
    rw [Checked.bind]
    obtain _ | ⟨⟨length, more⟩, rest⟩ | _ | _ := lengthRun d lengths i r
    · rfl
    · dsimp only
      split
      · rfl
      · change _ = Checked.bind _ _ rest
        rw [Checked.bind, need]
        cases fill? lengths i (more + 1) length <;> rfl
    · rfl
    · rfl
  · rfl

theorem follows_fillLengths (h : d.Renders t) (ht : t.Holds (· < codeLengthSymbols))
    (hf : Filled total done lengths) :
    Follows (fun a b => b = a ∧ a.size = total) (fillLengths d total lengths done.size)
      (readLengths t total done) := by
  induction hn : total - done.size using Nat.strong_induction_on generalizing done lengths with
  | _ n ih =>
    rw [fillLengths_eq, readLengths_eq]
    split
    · refine (follows_lengthRun h ht hf).bind fun _ run hrun => ?_
      subst hrun
      split
      · exact .refuse _
      · obtain ⟨lengths', hfill, hf'⟩ := hf.fill? (Nat.not_lt.mp ‹_›) run.1
        have hsize : (done ++ Array.replicate (run.2 + 1) run.1).size =
            done.size + (run.2 + 1) := by rw [Array.size_append, Array.size_replicate]
        have hnext := ih _ (by omega) hf' rfl
        rw [hsize] at hnext
        exact .need hfill hnext
    next hge =>
      have heq := hf.eq (Nat.not_lt.mp hge)
      exact .pure ⟨heq, heq ▸ hf.size_eq⟩

end Lengths

structure Decoders.Renders (t : Tables) (d : Decoders) : Prop where
  literals : d.literals.Renders t.literals
  distances : d.distances.Renders t.distances

inductive Head.Renders : BlockHead → Head → Prop
  | stored (length : Nat) : Renders (.stored length) (.stored length)
  | coded {t : Tables} {d : Decoders} (h : d.Renders t) : Renders (.coded t) (.coded d)

theorem follows_headerDecoder {count : Nat} (h : count ≤ codeLengthOrder.length) :
    Follows (fun t d => d.Renders t ∧ t.Holds (· < codeLengthSymbols)) (headerDecoder count)
      (BitParser.fields 3 count >>= fun sent => table (headerLengths sent)) := by
  have horder : (codeLengthOrder.take count).length = count := List.length_take_of_le h
  have hplaces : ∀ s ∈ codeLengthOrder.take count,
      s < (Array.replicate codeLengthSymbols 0).size := by
    have hall : ∀ s ∈ codeLengthOrder, s < codeLengthSymbols := by decide
    rw [Array.size_replicate]
    exact fun s hs => hall s (List.mem_of_mem_take hs)
  have henter := follows_enter _ hplaces
  rw [horder] at henter
  refine .need (cut?_of_le h) ?_
  refine (henter.meets (BitParser.Meets.fields 3 _ fun _ => True)).bind fun sent _ hsent => ?_
  obtain ⟨rfl, hlen, hsent⟩ := hsent
  have hzip : (codeLengthOrder.take count).zip sent = codeLengthOrder.zip sent := by
    conv_rhs => rw [List.zip_eq_zip_take_min, hlen, Nat.min_eq_right h, ← hlen,
      List.take_length, hlen]
  have hheader : ∀ length ∈ headerLengths sent, length ≤ Huffman.maxLength :=
    mem_headerLengths fun length hl => by
      have := hsent length hl
      simp only [Huffman.maxLength]
      omega
  have hsize : (headerLengths sent).length < 2 ^ 16 := by
    rw [length_headerLengths]
    decide
  rw [hzip, ← headerLengths_eq]
  refine ((follows_decoder hheader hsize).meets (meets_table hheader hsize)).mono fun t d ht => ?_
  rwa [length_headerLengths] at ht

theorem follows_blockDecoders {lengths : Array Nat} (hl : Admissible lengths) {literalCount : Nat}
    (hend : endOfBlock < literalCount) (hle : literalCount ≤ lengths.size)
    (hn : lengths.size < 2 ^ 16) :
    Follows (fun t d => d.Renders t) (blockDecoders lengths literalCount)
      (if lengths.getD endOfBlock 0 = 0 then BitParser.refuse .missingEndOfBlock
      else do
        let literals ← table (lengths.toList.take literalCount)
        let distances ← table (lengths.toList.drop literalCount)
        return ⟨literals, distances⟩) := by
  have hall : ∀ length ∈ lengths.toList, length ≤ Huffman.maxLength := fun length hm =>
    hl length (Array.mem_toList_iff.mp hm)
  have hlength : lengths.toList.length = lengths.size := Array.length_toList
  have hi : endOfBlock < lengths.size := by omega
  refine .need (Array.getElem?_eq_getElem hi) ?_
  rw [Array.getD_eq_getD_getElem?, Array.getElem?_eq_getElem hi, Option.getD_some]
  split
  · exact .refuse _
  refine .need (cut?_of_le (by omega)) ?_
  refine (follows_decoder (fun length hm => hall length (List.mem_of_mem_take hm)) ?_).bind
    fun _ _ hliterals => ?_
  · rw [List.length_take]
    omega
  refine (follows_decoder (fun length hm => hall length (List.mem_of_mem_drop hm)) ?_).bind
    fun _ _ hdistances => ?_
  · rw [List.length_drop]
    omega
  exact .pure ⟨hliterals, hdistances⟩

theorem follows_decoders : Follows (fun t d => d.Renders t) decoders readTables := by
  refine (Follows.bits 5).bind_three (Follows.bits 5) (Follows.bits 4)
    fun _ a _ b _ c ha hb hc => ?_
  obtain ⟨rfl, ha⟩ := ha
  obtain ⟨rfl, hb⟩ := hb
  obtain ⟨rfl, hc⟩ := hc
  dsimp only
  split
  · exact .refuse _
  next hle =>
    simp only [literalSymbols, distanceSymbols] at hle
    have hcount : 4 + c ≤ codeLengthOrder.length := by
      change 4 + c ≤ 19
      omega
    refine .assoc ((follows_headerDecoder hcount).bind fun t d ht => ?_)
    have hempty := filled_empty (Array.replicate (257 + a + (1 + b)) 0)
    rw [Array.size_replicate] at hempty
    refine ((follows_fillLengths ht.1 ht.2 hempty).meets (meets_readLengths ht.2
      (by simp [Admissible]) (Nat.zero_le _))).bind fun _ lengths hlengths => ?_
    obtain ⟨⟨rfl, htotal⟩, hadmissible, -⟩ := hlengths
    exact follows_blockDecoders hadmissible (by rw [endOfBlock]; omega) (by omega) (by omega)

theorem follows_fixedDecoders : Follows (fun t d => d.Renders t) fixedDecoders fixedTables := by
  refine (follows_decoder (fun length hl => ?_) (by decide +kernel)).bind fun _ _ hliterals => ?_
  · simp only [fixedLiteralLengths, List.mem_append, List.mem_replicate] at hl
    simp only [Huffman.maxLength]
    omega
  refine (follows_decoder (fun length hd => ?_) (by decide)).bind fun _ _ hdistances => ?_
  · rw [(List.mem_replicate.mp hd).2]
    decide
  exact .pure ⟨hliterals, hdistances⟩

theorem follows_blockHead :
    Follows (fun a b => b.1 = a.1 ∧ b.2.Renders a.2) blockHead readBlockHead := by
  refine (Follows.bits 1).bind_both (Follows.bits 2) fun _ last _ kind hlast hkind => ?_
  obtain ⟨rfl, -⟩ := hlast
  obtain ⟨rfl, hkind⟩ := hkind
  obtain rfl | rfl | rfl | rfl : kind = 0 ∨ kind = 1 ∨ kind = 2 ∨ kind = 3 := by omega
  · refine Follows.align.bind fun _ _ _ => ?_
    refine (Follows.bits 16).bind_both (Follows.bits 16) fun _ length _ complement hl hc => ?_
    obtain ⟨rfl, hl⟩ := hl
    obtain ⟨rfl, hc⟩ := hc
    refine .need (sub?_of_le (by rw [maxStored]; omega)) ?_
    by_cases hsum : length + complement = maxStored
    · rw [if_neg (not_not_intro hsum), if_neg (by omega)]
      exact .pure ⟨rfl, .stored length⟩
    · rw [if_pos hsum, if_pos (by rw [maxStored] at hsum ⊢; omega)]
      exact .refuse _
  · exact follows_fixedDecoders.bind fun _ _ h => .pure ⟨rfl, .coded h⟩
  · exact follows_decoders.bind fun _ _ h => .pure ⟨rfl, .coded h⟩
  · exact .refuse _

theorem Decoder.Renders.holds {t : Huffman.Table} {d : Decoder} (h : d.Renders t) :
    t.Holds fun _ => True :=
  ⟨h.sums, fun _ _ => trivial⟩

theorem Decoders.Renders.sound {t : Tables} {d : Decoders} (h : d.Renders t) : t.Sound :=
  ⟨h.literals.holds, h.distances.holds⟩

theorem Decoders.Renders.follows_token {t : Tables} {d : Decoders} (h : d.Renders t) (reach : Nat) :
    Follows (fun a b => b = a) (token d reach) (readToken t reach) := by
  refine (follows_symbol h.literals h.literals.holds).bind fun _ s hs => ?_
  obtain ⟨rfl, -⟩ := hs
  split
  · exact .pure rfl
  split
  · exact .pure rfl
  next hge hne =>
    have hlength : lengthClasses.length = 29 := rfl
    rw [endOfBlock] at hge hne
    split
    next hlt =>
      rw [literalSymbols] at hlt
      obtain ⟨⟨least, extraBits⟩, hclass⟩ : ∃ c, lengthClasses[s - 257]? = some c :=
        ⟨_, List.getElem?_eq_getElem (by omega)⟩
      rw [hclass]
      refine .need (sub?_of_le (by omega)) (.need hclass ?_)
      refine (Follows.bits _).bind fun _ extra hextra => ?_
      obtain ⟨rfl, -⟩ := hextra
      refine (follows_symbol h.distances h.distances.holds).bind fun _ j hj => ?_
      obtain ⟨rfl, -⟩ := hj
      split
      next hge =>
        rw [List.getElem?_eq_none hge]
        exact .refuse _
      next hlt =>
        obtain ⟨⟨least, extraBits⟩, hclass⟩ : ∃ c, distanceClasses[j]? = some c :=
          ⟨_, List.getElem?_eq_getElem (Nat.not_le.mp hlt)⟩
        rw [hclass]
        refine .need rfl ?_
        refine (Follows.bits _).bind fun _ extra hextra => ?_
        obtain ⟨rfl, -⟩ := hextra
        dsimp only
        split
        · exact .refuse _
        · exact .pure rfl
    next hge =>
      rw [literalSymbols] at hge
      rw [List.getElem?_eq_none (by omega)]
      exact .refuse _

theorem follows_trailer : Follows (fun a b => b = a) trailer readTrailer := by
  refine Follows.align.bind fun _ _ _ => ?_
  refine Follows.await ((Follows.fields 8 4).bind fun bytes _ hbytes => .pure ?_) fun r hr hlt => ?_
  · rw [hbytes]
  · have hless : r.available < 8 * 4 := hlt
    obtain ⟨rest, hrest⟩ := short_fields hr hless
    exact ⟨rest, BitParser.bind_short hrest⟩

end Conduit.Machine
