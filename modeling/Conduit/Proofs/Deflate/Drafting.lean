import Mathlib.Data.List.Induction
import Conduit.Deflate.Compressor
import Conduit.Proofs.Deflate.Blocks

namespace Conduit.Deflate

open Bits

/-- The window, the chains and the blocks written so far. -/
structure Draft where
  window : Window := {}
  chains : Chains := .empty
  blocks : List Format.Block := []

namespace Draft

def cut (level : Nat) (d : Draft) (n : Nat) : Option Draft :=
  let ⟨⟨bytes, base, cursor⟩, chains, blocks⟩ := d
  let data := (bytes.extract cursor (cursor + n)).toList
  let window := (⟨bytes, base, cursor + n⟩ : Window).trim
  if level = 0 then some ⟨window, chains, blocks ++ pieces data⟩
  else
    match tokenize (.ofLevel level) bytes base (cursor + n) cursor chains #[] with
    | none => none
    | some (tokens, chains) =>
      some ⟨window, chains,
        blocks ++ blocksAs tokens.toList data (kindOf tokens.toList data.length)⟩

def extend (d : Draft) (bytes : List UInt8) : Draft :=
  { d with window := { d.window with bytes := d.window.bytes ++ bytes } }

/-- Takes in one byte, and cuts off the block that it completes. -/
def absorb (level : Nat) (d : Draft) (byte : UInt8) : Option Draft :=
  if d.window.pending + 1 = blockSize then (d.extend [byte]).cut level blockSize
  else some (d.extend [byte])

def ofInput (level : Nat) (input : List UInt8) : Option Draft :=
  input.foldlM (absorb level) {}

/-- The window ends what has been taken in, and the blocks stand for what lies before its cursor. -/
structure Sound (d : Draft) (input : List UInt8) : Prop where
  sized : d.chains.Sized
  cursor_le : d.window.cursor ≤ d.window.bytes.size
  adds : ∃ dropped, dropped ++ d.window.bytes.toList = input ∧
    Adds d.blocks [] (dropped ++ d.window.bytes.toList.take d.window.cursor)

variable {d : Draft} {input : List UInt8} {window : Window} {chains : Chains}
  {blocks : List Format.Block}

theorem sound_start : ({} : Draft).Sound [] :=
  ⟨sized_empty, Nat.le_refl 0, [], rfl, adds_nil []⟩

theorem Sound.extend (h : d.Sound input) (bytes : List UInt8) :
    (d.extend bytes).Sound (input ++ bytes) := by
  obtain ⟨dropped, rfl, hadds⟩ := h.adds
  have hb : (d.extend bytes).window.bytes.toList = d.window.bytes.toList ++ bytes :=
    Array.toList_appendList
  refine ⟨h.sized, ?_, dropped, ?_, ?_⟩
  · have := h.cursor_le
    rw [← Array.length_toList, hb, List.length_append, Array.length_toList]
    exact Nat.le_add_right_of_le this
  · rw [hb, List.append_assoc]
  · have hle : (d.extend bytes).window.cursor ≤ d.window.bytes.toList.length := by
      rw [Array.length_toList]
      exact h.cursor_le
    rw [hb, List.take_append_of_le_length hle]
    exact hadds

theorem pending_extend (d : Draft) (bytes : List UInt8)
    (h : d.window.cursor ≤ d.window.bytes.size) :
    (d.extend bytes).window.pending = d.window.pending + bytes.length := by
  have hs : (d.window.bytes ++ bytes).size = d.window.bytes.size + bytes.length := by
    rw [← Array.length_toList, Array.toList_appendList, List.length_append, Array.length_toList]
  simp only [Window.pending, Draft.extend, hs]
  omega

theorem pending_trim (h : window.cursor ≤ window.bytes.size) :
    window.trim.pending = window.pending := by
  rw [Window.trim]
  split
  · simp only [Window.pending, Array.size_extract]
    omega
  · rfl

theorem Sound.trim (h : Sound ⟨window, chains, blocks⟩ input) :
    Sound ⟨window.trim, chains, blocks⟩ input := by
  obtain ⟨hsized, hle, dropped, hinput, hadds⟩ := h
  obtain ⟨bytes, base, cursor⟩ := window
  dsimp only at hle hinput hadds
  rw [Window.trim]
  split
  next hlt =>
    have hb : (bytes.extract (cursor - windowSize) bytes.size).toList =
        bytes.toList.drop (cursor - windowSize) := by
      rw [Array.toList_extract, List.extract_eq_take_drop]
      exact List.take_of_length_le (by simp)
    refine ⟨hsized, ?_, dropped ++ bytes.toList.take (cursor - windowSize), ?_, ?_⟩
    · simp only [Array.size_extract]
      omega
    · rw [hb, List.append_assoc, List.take_append_drop, hinput]
    · have hadd : cursor = cursor - windowSize + windowSize := by omega
      rw [hb, List.append_assoc, ← List.take_add, ← hadd]
      exact hadds
  next => exact ⟨hsized, hle, dropped, hinput, hadds⟩

/-- What becomes of a draft when `n` bytes are cut off: there are new blocks, and these are what a
compressor with the same window and chains writes. -/
structure Cuts (level n : Nat) (d d' : Draft) (new : List Format.Block) : Prop where
  cut_eq : d.cut level n = some d'
  blocks_eq : d'.blocks = d.blocks ++ new
  nonempty : new ≠ []
  pending_eq : d'.window.pending = d.window.pending - n
  writes : ∀ {w : BitWriter} {bits : List Bool} (last : Bool), w.Wrote bits →
    ∃ w', Compressor.writeNext level d.window d.chains w n last =
        some (d'.window, d'.chains, w') ∧
      w'.Wrote (appendBlocks bits last new)

theorem extract_eq (bytes : Array UInt8) (i n : Nat) :
    bytes.toList.take i ++ (bytes.extract i (i + n)).toList = bytes.toList.take (i + n) := by
  rw [Array.toList_extract, List.extract_eq_take_drop, Nat.add_sub_cancel_left, List.take_add]

theorem Sound.advance {bytes : Array UInt8} {base cursor n : Nat} {chains' : Chains}
    {new : List Format.Block} (h : Sound ⟨⟨bytes, base, cursor⟩, chains, blocks⟩ input)
    (hc : chains'.Sized) (hn : cursor + n ≤ bytes.size)
    (hnew : ∀ before, Adds new (before ++ bytes.toList.take cursor)
      (bytes.extract cursor (cursor + n)).toList) :
    Sound ⟨(⟨bytes, base, cursor + n⟩ : Window).trim, chains', blocks ++ new⟩ input := by
  obtain ⟨-, -, dropped, hinput, hadds⟩ := h
  apply Sound.trim
  refine ⟨hc, hn, dropped, hinput, ?_⟩
  rw [← extract_eq, ← List.append_assoc]
  exact hadds.append (hnew dropped)

theorem pending_advance {bytes : Array UInt8} (base : Nat) {cursor n : Nat}
    (hn : cursor + n ≤ bytes.size) :
    (⟨bytes, base, cursor + n⟩ : Window).trim.pending =
      (⟨bytes, base, cursor⟩ : Window).pending - n := by
  rw [pending_trim hn]
  exact Nat.sub_add_eq _ _ _

theorem Sound.cursor_add_pending (h : d.Sound input) :
    d.window.cursor + d.window.pending = d.window.bytes.size :=
  Nat.add_sub_cancel' h.cursor_le

theorem cut_spec (level : Nat) {n : Nat} (h : d.Sound input)
    (hn : d.window.cursor + n ≤ d.window.bytes.size) :
    ∃ d' new, Cuts level n d d' new ∧ d'.Sound input := by
  obtain ⟨⟨bytes, base, cursor⟩, chains, blocks⟩ := d
  dsimp only at hn
  have hpending := pending_advance base hn
  by_cases h0 : level = 0
  · refine ⟨⟨(⟨bytes, base, cursor + n⟩ : Window).trim, chains,
      blocks ++ pieces (bytes.extract cursor (cursor + n)).toList⟩, _,
      ⟨?_, rfl, pieces_ne_nil _, hpending, ?_⟩,
      h.advance h.sized hn fun before => adds_pieces _ _⟩
    · rw [cut, if_pos h0]
    · intro w bits last hw
      rw [Compressor.writeNext, if_pos h0]
      exact ⟨_, rfl, wrote_stored hw _ last⟩
  · obtain ⟨new, chains', htokens, hsized, hcovers⟩ :=
      tokenize_spec (.ofLevel level) base h.sized hn (Nat.le_add_right _ _) #[]
    have hlist : ((#[] : Array Token) ++ new).toList = new := by simp
    refine ⟨⟨(⟨bytes, base, cursor + n⟩ : Window).trim, chains', blocks ++ blocksAs new
      (bytes.extract cursor (cursor + n)).toList
        (kindOf new (bytes.extract cursor (cursor + n)).toList.length)⟩, _,
      ⟨?_, rfl, blocksAs_ne_nil _ _ _, hpending, ?_⟩,
      h.advance hsized hn fun before => adds_blocksAs hcovers (extract_eq _ _ _) before _⟩
    · rw [cut, if_neg h0, htokens]
      dsimp only
      rw [hlist]
    · intro w bits last hw
      rw [Compressor.writeNext, if_neg h0, htokens]
      dsimp only
      rw [hlist]
      exact ⟨_, rfl, wrote_block hw hcovers.within _ last⟩

section Absorb

theorem extend_extend (d : Draft) (bytes more : List UInt8) :
    (d.extend bytes).extend more = d.extend (bytes ++ more) := by
  have hb : d.window.bytes ++ bytes ++ more = d.window.bytes ++ (bytes ++ more) := by
    apply Array.toList_inj.mp
    simp
  simp only [Draft.extend, hb]

/-- What is taken in at once is taken in byte by byte, as long as it does not pass a boundary. -/
theorem foldlM_absorb (level : Nat) {bytes : List UInt8}
    (hle : d.window.cursor ≤ d.window.bytes.size) (hne : bytes ≠ [])
    (hb : d.window.pending + bytes.length ≤ blockSize) :
    bytes.foldlM (absorb level) d =
      if d.window.pending + bytes.length = blockSize then (d.extend bytes).cut level blockSize
      else some (d.extend bytes) := by
  induction bytes generalizing d with
  | nil => exact absurd rfl hne
  | cons byte bytes ih =>
    rw [List.foldlM_cons]
    rw [List.length_cons] at hb ⊢
    by_cases hnil : bytes = []
    · subst hnil
      rw [absorb]
      exact bind_pure _
    · have hpos := List.length_pos_iff.mpr hnil
      have hpending := pending_extend d [byte] hle
      rw [List.length_singleton] at hpending
      have hle' : (d.extend [byte]).window.cursor ≤ (d.extend [byte]).window.bytes.size := by
        rw [Window.pending, Window.pending] at hpending
        omega
      rw [absorb, if_neg (by omega)]
      change List.foldlM _ (d.extend [byte]) bytes = _
      rw [ih hle' hnil (by omega), extend_extend, hpending, List.singleton_append, Nat.add_assoc,
        Nat.add_comm 1]

theorem absorb_cases (level : Nat) (h : d.Sound input) (hp : d.window.pending < blockSize)
    (byte : UInt8) :
    (d.absorb level byte = some (d.extend [byte]) ∧
      (d.extend [byte]).window.pending = d.window.pending + 1 ∧
      d.window.pending + 1 < blockSize) ∨
    ∃ d' new, d.absorb level byte = some d' ∧ Cuts level blockSize (d.extend [byte]) d' new ∧
      (d.extend [byte]).window.pending = blockSize ∧ d.window.pending + 1 = blockSize ∧
      d'.Sound (input ++ [byte]) := by
  have hext := h.extend [byte]
  have hpending := pending_extend d [byte] h.cursor_le
  rw [List.length_singleton] at hpending
  rw [absorb]
  split
  next hfull =>
    rw [hfull] at hpending
    have hn := hext.cursor_add_pending.le
    rw [hpending] at hn
    obtain ⟨d', new, hcuts, hsound⟩ := cut_spec level hext hn
    exact Or.inr ⟨d', new, hcuts.cut_eq, hcuts, hpending, hfull, hsound⟩
  next hpart => exact Or.inl ⟨rfl, hpending, by omega⟩

theorem absorb_spec (level : Nat) (h : d.Sound input) (hp : d.window.pending < blockSize)
    (byte : UInt8) :
    ∃ d', d.absorb level byte = some d' ∧ d'.Sound (input ++ [byte]) ∧
      d'.window.pending < blockSize := by
  obtain ⟨hd, hpending, hlt⟩ | ⟨d', new, hd, hcuts, hfull, -, hsound⟩ := absorb_cases level h hp byte
  · exact ⟨_, hd, h.extend [byte], hpending ▸ hlt⟩
  · refine ⟨d', hd, hsound, ?_⟩
    rw [hcuts.pending_eq, hfull, Nat.sub_self]
    decide

theorem ofInput_append (level : Nat) (input more : List UInt8) :
    ofInput level (input ++ more) = (ofInput level input).bind (more.foldlM (absorb level)) := by
  rw [ofInput, ofInput, List.foldlM_append]
  rfl

theorem ofInput_concat (level : Nat) (input : List UInt8) (byte : UInt8) :
    ofInput level (input ++ [byte]) = (ofInput level input).bind (absorb level · byte) := by
  rw [ofInput_append]
  congr 1
  funext d
  exact bind_pure _

theorem ofInput_spec (level : Nat) (input : List UInt8) :
    ∃ d, ofInput level input = some d ∧ d.Sound input ∧ d.window.pending < blockSize := by
  induction input using List.reverseRecOn with
  | nil => exact ⟨{}, rfl, sound_start, by decide⟩
  | append_singleton input byte ih =>
    obtain ⟨d, hd, hsound, hp⟩ := ih
    obtain ⟨d', hd', hsound', hp'⟩ := absorb_spec level hsound hp byte
    exact ⟨d', by rw [ofInput_concat, hd, Option.bind_some, hd'], hsound', hp'⟩

theorem pending_ofInput {level : Nat} (h : ofInput level input = some d) :
    d.window.pending = input.length % blockSize := by
  induction input using List.reverseRecOn generalizing d with
  | nil =>
    cases h
    rfl
  | append_singleton input byte ih =>
    obtain ⟨d₀, hd₀, hsound, hp⟩ := ofInput_spec level input
    have hmod := ih hd₀
    rw [ofInput_concat, hd₀, Option.bind_some] at h
    rw [List.length_append, List.length_singleton]
    rw [blockSize] at hmod ⊢
    obtain ⟨hd, hpending, hlt⟩ | ⟨d', new, hd, hcuts, hfull, hone, -⟩ :=
      absorb_cases level hsound hp byte
    · cases hd.symm.trans h
      rw [blockSize] at hlt
      omega
    · cases hd.symm.trans h
      rw [hcuts.pending_eq, hfull, Nat.sub_self]
      rw [blockSize] at hone
      omega

end Absorb

theorem Sound.adds_all (h : d.Sound input) (h0 : d.window.pending = 0) :
    Adds d.blocks [] input := by
  obtain ⟨dropped, rfl, hadds⟩ := h.adds
  have hlen : d.window.bytes.toList.length ≤ d.window.cursor := by
    rw [Window.pending] at h0
    rw [Array.length_toList]
    omega
  rwa [List.take_of_length_le hlen] at hadds

end Draft

def front (level : Nat) (framed : Bool) : List UInt8 :=
  if framed then frameHeader level else []

def back (framed : Bool) (input : List UInt8) : List UInt8 :=
  if framed then frameTrailer (Adler.start.update input) else []

/-- The stream for an input, made at once. -/
def encode (level : Nat) (framed : Bool) (input : List UInt8) : Option (List UInt8) := do
  let gathered ← Draft.ofInput level input
  let closed ← gathered.cut level gathered.window.pending
  return pack (Format.streamBits (ofBytes (front level framed)) closed.blocks) ++ back framed input

theorem encode_of_cuts {level : Nat} {input : List UInt8} {d d' : Draft} {new : List Format.Block}
    (hd : Draft.ofInput level input = some d) (h : Draft.Cuts level d.window.pending d d' new)
    (framed : Bool) :
    encode level framed input = some
      (pack (Format.streamBits (ofBytes (front level framed)) d'.blocks) ++ back framed input) := by
  rw [encode, hd]
  change Option.bind (d.cut level d.window.pending) _ = _
  rw [h.cut_eq]
  rfl

/-- Every input has a stream, of blocks that stand for it. -/
theorem encode_spec (level : Nat) (framed : Bool) (input : List UInt8) :
    ∃ blocks, encode level framed input =
        some (pack (Format.streamBits (ofBytes (front level framed)) blocks) ++ back framed input) ∧
      blocks ≠ [] ∧ Adds blocks [] input := by
  obtain ⟨d, hd, hsound, -⟩ := Draft.ofInput_spec level input
  obtain ⟨d', new, hcuts, hsound'⟩ := Draft.cut_spec level hsound hsound.cursor_add_pending.le
  refine ⟨d'.blocks, encode_of_cuts hd hcuts framed, ?_, hsound'.adds_all ?_⟩
  · rw [hcuts.blocks_eq]
    exact List.append_ne_nil_of_right_ne_nil _ hcuts.nonempty
  · rw [hcuts.pending_eq, Nat.sub_self]

end Conduit.Deflate
