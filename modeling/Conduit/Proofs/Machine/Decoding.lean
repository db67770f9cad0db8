import Mathlib.Data.List.Nodup
import Conduit.Deflate.Grammar
import Conduit.Proofs.Huffman.Decoding
import Conduit.Proofs.Machine.Parsing

namespace Conduit.Machine

open Huffman

/-- The number of codes of each length, with none of length zero, and the symbols in code order. -/
structure Decoder where
  counts : Array Nat
  symbols : Array Nat

namespace Decoder

def tally? (counts : Array Nat) : List Nat → Option (Array Nat)
  | [] => some counts
  | length :: lengths => do
    let count ← word? ((← counts[length]?) + 1)
    tally? (← put? counts length count) lengths

/-- Whether `n` lengths from `length` on claim no more than there is, `left` being left over of the
length before. -/
def claim? (counts : Array Nat) : (n length left : Nat) → Option Bool
  | 0, _, _ => some true
  | n + 1, length, left => do
    let count ← counts[length]?
    if 2 * left < count then return false
    else claim? counts n (length + 1) (← sub? (2 * left) count)

def offsets? (counts : Array Nat) : (n length : Nat) → Array Nat → Option (Array Nat)
  | 0, _, offsets => some offsets
  | n + 1, length, offsets => do
    let offset ← word? ((← offsets[length]?) + (← counts[length]?))
    offsets? counts n (length + 1) (← put? offsets (length + 1) offset)

/-- Puts the symbols from `symbol` on that have a code where the next of their length belongs. -/
def place? (offsets symbols : Array Nat) (symbol : Nat) : List Nat → Option (Array Nat)
  | [] => some symbols
  | length :: lengths =>
    if length = 0 then place? offsets symbols (symbol + 1) lengths
    else do
      let offset ← offsets[length]?
      let symbols ← put? symbols offset (← word? symbol)
      let offsets ← put? offsets length (← word? (offset + 1))
      place? offsets symbols (symbol + 1) lengths

def ofLengths? (lengths : List Nat) : Option (Except Huffman.Flaw Decoder) := do
  let counts ← tally? (Array.replicate (maxLength + 1) 0) lengths
  if !(← claim? counts maxLength 1 1) then return .error .overSubscribed
  else
    let offsets ← offsets? counts (maxLength - 1) 1 (Array.replicate (maxLength + 1) 0)
    let coded := lengths.countP (0 < ·)
    let symbols ← place? offsets (Array.replicate coded 0) 0 lengths
    return .ok ⟨← put? counts 0 0, symbols⟩

/-- Follows a code for `n` more bits, the first of them that of codes of length `length`. `first` is
the first code of that length and `index` the number of symbols with shorter codes. -/
def follow (d : Decoder) : (n length code first index : Nat) → Checked Huffman.Flaw Nat
  | 0, _, _, _, _ => Checked.refuse .invalidCode
  | n + 1, length, code, first, index => do
    let bit ← Checked.bits 1
    let code := code + bit
    let count ← Checked.need d.counts[length]?
    let rank ← Checked.need (sub? code first)
    if rank < count then Checked.need d.symbols[index + rank]?
    else d.follow n (length + 1) (2 * code) (2 * (first + count)) (index + count)

def decode (d : Decoder) : Checked Huffman.Flaw Nat :=
  d.follow maxLength 1 0 0 0

end Decoder

structure Lists (table : Array Nat) (f : Nat → Nat) : Prop where
  size : table.size = maxLength + 1
  get : ∀ i ≤ maxLength, table[i]? = some (f i)

namespace Lists

variable {table counts offsets : Array Nat} {f g : Nat → Nat} {lengths : List Nat}

theorem replicate (x : Nat) : Lists (Array.replicate (maxLength + 1) x) fun _ => x where
  size := Array.size_replicate
  get i hi := by rw [Array.getElem?_replicate, if_pos (Nat.lt_succ_of_le hi)]

theorem put (h : Lists table f) {i : Nat} (hi : i ≤ maxLength) (x : Nat) :
    ∃ table', put? table i x = some table' ∧ Lists table' (Function.update f i x) := by
  have hlt : i < table.size := by
    rw [h.size]
    omega
  refine ⟨_, put?_of_lt x hlt, by rw [Array.size_setIfInBounds, h.size], fun j hj => ?_⟩
  rw [Array.getElem?_setIfInBounds]
  by_cases hij : i = j
  · subst hij
    rw [if_pos rfl, if_pos hlt, Function.update_self]
  · rw [if_neg hij, Function.update_of_ne (Ne.symm hij), h.get j hj]

theorem eq_toArray (h : Lists table f) :
    table = ((List.range (maxLength + 1)).map f).toArray := by
  apply Array.ext_getElem?
  intro i
  by_cases hi : i ≤ maxLength
  · rw [h.get i hi, List.getElem?_toArray, List.getElem?_map,
      List.getElem?_range (Nat.lt_succ_of_le hi), Option.map_some]
  · have hsize := h.size
    rw [Array.getElem?_eq_none (by omega), List.getElem?_toArray, List.getElem?_eq_none]
    rw [List.length_map, List.length_range]
    omega

theorem tally (h : Lists counts f) (hl : ∀ length ∈ lengths, length ≤ maxLength)
    (hb : ∀ i, f i + lengths.length < 2 ^ 16) :
    ∃ counts', Decoder.tally? counts lengths = some counts' ∧
      Lists counts' fun i => f i + countOf i lengths := by
  induction lengths generalizing counts f with
  | nil => exact ⟨counts, rfl, h⟩
  | cons length lengths ih =>
    have hlength := hl length (by simp)
    have hword : f length + 1 < 2 ^ 16 := by
      have := hb length
      rw [List.length_cons] at this
      omega
    obtain ⟨counts₁, hput, h₁⟩ := h.put hlength (f length + 1)
    obtain ⟨counts', htally, h'⟩ := ih h₁ (fun l hm => hl l (List.mem_cons_of_mem _ hm)) fun i => by
      have := hb i
      rw [List.length_cons] at this
      rw [Function.update_apply]
      split
      next hi =>
        subst hi
        omega
      · omega
    refine ⟨counts', ?_, ?_⟩
    · simp only [Decoder.tally?, h.get length hlength, Option.bind_eq_bind, Option.bind_some,
        word?_of_lt hword, hput, htally]
    · convert h' using 2 with i
      by_cases hi : i = length
      · subst hi
        rw [countOf_cons_self, Function.update_self]
        omega
      · rw [countOf_cons_of_ne (Ne.symm hi), Function.update_of_ne hi]

theorem claim (h : Lists counts fun i => countOf i lengths) (n start left : Nat)
    (hn : start + n ≤ maxLength + 1) :
    Decoder.claim? counts n start left = some (fits left (countsFrom lengths start n)) := by
  induction n generalizing start left with
  | zero => rfl
  | succ n ih =>
    rw [countsFrom_succ, fits]
    simp only [Decoder.claim?, h.get start (by omega), Option.bind_eq_bind, Option.bind_some]
    split
    next hlt =>
      rw [decide_eq_false (by omega), Bool.false_and]
      rfl
    next hle =>
      rw [sub?_of_le (by omega), Option.bind_some, ih (start + 1) _ (by omega),
        decide_eq_true (by omega), Bool.true_and]

/-- The symbols of a length begin where those of all shorter ones end. -/
theorem starts (hc : Lists counts fun i => countOf i lengths) (ho : Lists offsets g) (n start : Nat)
    (hn : start + n ≤ maxLength) (hb : g start + (countsFrom lengths start n).sum < 2 ^ 16) :
    ∃ offsets' g', Decoder.offsets? counts n start offsets = some offsets' ∧ Lists offsets' g' ∧
      (∀ i ≤ start, g' i = g i) ∧
      ∀ k ≤ n, g' (start + k) = g start + (countsFrom lengths start k).sum := by
  induction n generalizing start offsets g with
  | zero =>
    refine ⟨offsets, g, rfl, ho, fun i _ => rfl, fun k hk => ?_⟩
    obtain rfl := Nat.eq_zero_of_le_zero hk
    rfl
  | succ n ih =>
    rw [countsFrom_succ, List.sum_cons, ← Nat.add_assoc] at hb
    have hword : g start + countOf start lengths < 2 ^ 16 := by omega
    obtain ⟨offsets₁, hput, h₁⟩ := ho.put (by omega : start + 1 ≤ maxLength)
      (g start + countOf start lengths)
    obtain ⟨offsets', g', hrest, h', hlow, hhigh⟩ := ih h₁ (start + 1) (by omega) (by
      rwa [Function.update_self])
    refine ⟨offsets', g', ?_, h', fun i hi => ?_, fun k hk => ?_⟩
    · simp only [Decoder.offsets?, ho.get start (by omega), hc.get start (by omega),
        Option.bind_eq_bind, Option.bind_some, word?_of_lt hword, hput, hrest]
    · rw [hlow i (by omega), Function.update_of_ne (by omega)]
    · cases k with
      | zero =>
        rw [Nat.add_zero, hlow start (by omega), Function.update_of_ne (by omega)]
        rfl
      | succ k =>
        have hnext := hhigh k (by omega)
        rw [Function.update_self] at hnext
        have hindex : start + (k + 1) = start + 1 + k := by omega
        rw [countsFrom_succ, List.sum_cons, hindex, hnext, Nat.add_assoc]

end Lists

section Order

variable {lengths : List Nat}

theorem take_countsFrom (lengths : List Nat) (start : Nat) {k n : Nat} (h : k ≤ n) :
    (countsFrom lengths start n).take k = countsFrom lengths start k := by
  rw [countsFrom, countsFrom, ← List.map_take, List.take_range'_of_length_ge h]

theorem mem_ofLength {symbol length : Nat} :
    symbol ∈ Table.ofLength lengths 0 length ↔ lengths[symbol]? = some length := by
  rw [Table.ofLength, List.mem_filterMap]
  constructor
  · rintro ⟨⟨l, s⟩, hmem, hs⟩
    rw [Option.ite_none_right_eq_some, Option.some.injEq] at hs
    obtain ⟨rfl, rfl⟩ := hs
    exact List.mk_mem_zipIdx_iff_getElem?.mp hmem
  · intro h
    exact ⟨(length, symbol), List.mk_mem_zipIdx_iff_getElem?.mpr h, if_pos rfl⟩

theorem nodup_ofLength (lengths : List Nat) (length : Nat) :
    (Table.ofLength lengths 0 length).Nodup := by
  have hpairs : lengths.zipIdx.Nodup := by
    apply List.Nodup.of_map Prod.snd
    rw [List.zipIdx_map_snd]
    exact List.nodup_range'
  refine hpairs.filterMap ?_
  rintro ⟨l, s⟩ ⟨l', s'⟩ b hb hb'
  simp only [Option.mem_def, Option.ite_none_right_eq_some, Option.some.injEq] at hb hb'
  obtain ⟨rfl, rfl⟩ := hb
  obtain ⟨rfl, rfl⟩ := hb'
  rfl

theorem nodup_codeOrder (lengths : List Nat) : (Table.codeOrder lengths).Nodup := by
  rw [Table.codeOrder_eq, Table.orderFrom, List.nodup_flatMap]
  refine ⟨fun length _ => nodup_ofLength lengths length, ?_⟩
  refine (List.pairwise_lt_range' 1).imp fun {i j} hlt symbol hi hj => ?_
  rw [mem_ofLength] at hi hj
  cases hi.symm.trans hj
  exact Nat.lt_irrefl _ hlt

theorem countOf_add_countP (lengths : List Nat) (start n : Nat) :
    countOf start lengths +
        lengths.countP (fun length => start + 1 ≤ length ∧ length < start + 1 + n) =
      lengths.countP fun length => start ≤ length ∧ length < start + (n + 1) := by
  induction lengths with
  | nil => rfl
  | cons length lengths ih =>
    rw [countOf] at ih ⊢
    rw [List.count_cons, List.countP_cons, List.countP_cons, ← ih]
    simp only [decide_eq_true_eq, beq_iff_eq]
    split_ifs <;> omega

theorem sum_countsFrom (lengths : List Nat) (start n : Nat) :
    (countsFrom lengths start n).sum =
      lengths.countP fun length => start ≤ length ∧ length < start + n := by
  induction n generalizing start with
  | zero =>
    symm
    rw [countsFrom, List.range'_zero, List.map_nil, List.sum_nil, List.countP_eq_zero]
    intro length _
    simp
  | succ n ih => rw [countsFrom_succ, List.sum_cons, ih, countOf_add_countP]

theorem length_codeOrder (hl : ∀ length ∈ lengths, length ≤ maxLength) :
    (Table.codeOrder lengths).length = lengths.countP (0 < ·) := by
  rw [Table.codeOrder_eq, Table.length_orderFrom, sum_countsFrom]
  refine List.countP_congr fun length hm => ?_
  have := hl length hm
  simp only [decide_eq_true_eq]
  omega

theorem getElem?_codeOrder {symbol own : Nat} (h : lengths[symbol]? = some own) (h0 : 0 < own)
    (hm : own ≤ maxLength) :
    (Table.codeOrder lengths)[(countsFrom lengths 1 (own - 1)).sum +
      countOf own (lengths.take symbol)]? = some symbol := by
  have horder := Table.getElem?_orderFrom 1 maxLength h h0 (by omega)
  rwa [take_countsFrom lengths 1 (by omega)] at horder

def placed (lengths : List Nat) (n : Nat) : List Nat :=
  (Table.codeOrder lengths).map fun symbol => if symbol < n then symbol else 0

theorem placed_zero (lengths : List Nat) :
    placed lengths 0 = List.replicate (Table.codeOrder lengths).length 0 := by
  simp [placed, List.map_const']

theorem placed_length (lengths : List Nat) :
    placed lengths lengths.length = Table.codeOrder lengths := by
  rw [placed]
  conv_rhs => rw [← List.map_id (Table.codeOrder lengths)]
  refine List.map_congr_left fun symbol hs => ?_
  rw [Table.codeOrder_eq, Table.orderFrom, List.mem_flatMap] at hs
  obtain ⟨length, -, hs⟩ := hs
  have := Table.lt_of_mem_ofLength hs
  rw [if_pos (by omega), id_eq]

theorem placed_succ_of_zero {symbol : Nat} (h : lengths[symbol]? = some 0) :
    placed lengths (symbol + 1) = placed lengths symbol := by
  refine List.map_congr_left fun s hs => ?_
  rw [Table.codeOrder_eq, Table.orderFrom, List.mem_flatMap] at hs
  obtain ⟨length, hlength, hs⟩ := hs
  rw [mem_ofLength] at hs
  have hne : s ≠ symbol := by
    rintro rfl
    cases hs.symm.trans h
    simp at hlength
  have hiff : s < symbol + 1 ↔ s < symbol := by omega
  simp only [hiff]

theorem set_placed {symbol i : Nat} (h : (Table.codeOrder lengths)[i]? = some symbol) :
    (placed lengths symbol).set i symbol = placed lengths (symbol + 1) := by
  obtain ⟨hi, -⟩ := List.getElem?_eq_some_iff.mp h
  apply List.ext_getElem?
  intro j
  rw [List.getElem?_set, placed, placed, List.length_map, List.getElem?_map, List.getElem?_map]
  split
  next hij =>
    subst hij
    rw [h, Option.map_some, if_pos (Nat.lt_succ_self symbol)]
  next hij =>
    cases hj : (Table.codeOrder lengths)[j]? with
    | none => rfl
    | some s =>
      have hne : s ≠ symbol := by
        rintro rfl
        exact hij ((List.getElem?_inj hi (nodup_codeOrder lengths)).mp (h.trans hj.symm))
      have hiff : s < symbol + 1 ↔ s < symbol := by omega
      simp only [Option.map_some, hiff]

end Order

section Build

variable {lengths : List Nat}

theorem Lists.place (hl : ∀ length ∈ lengths, length ≤ maxLength) (hn : lengths.length < 2 ^ 16)
    {before rest : List Nat} (hb : lengths = before ++ rest) {offsets symbols : Array Nat}
    {g : Nat → Nat} (ho : Lists offsets g)
    (hg : ∀ length, 1 ≤ length → length ≤ maxLength →
      g length = (countsFrom lengths 1 (length - 1)).sum + countOf length before)
    (hs : symbols.toList = placed lengths before.length) :
    Decoder.place? offsets symbols before.length rest =
      some (Table.codeOrder lengths).toArray := by
  induction rest generalizing before offsets symbols g with
  | nil =>
    rw [List.append_nil] at hb
    subst hb
    rw [placed_length] at hs
    rw [Decoder.place?, ← hs]
  | cons own rest ih =>
    have hbefore : lengths.take before.length = before := by rw [hb, List.take_left]
    have hown : lengths[before.length]? = some own := by simp [hb]
    have hle := hl own (List.mem_of_getElem? hown)
    have hnext : lengths = (before ++ [own]) ++ rest := by rw [hb, List.append_assoc]; rfl
    have hlength : (before ++ [own]).length = before.length + 1 := by simp
    have hcount (length : Nat) : countOf length (before ++ [own]) =
        countOf length before + if own = length then 1 else 0 := by
      rw [countOf, List.count_append, List.count_singleton]
      simp [countOf]
    rw [Decoder.place?]
    split
    next h0 =>
      -- a symbol without a code has no place
      subst h0
      rw [← hlength]
      refine ih hnext ho (fun length h1 hm => ?_) ?_
      · rw [hcount, if_neg (by omega)]
        exact hg length h1 hm
      · rw [hlength, placed_succ_of_zero hown, hs]
    next h0 =>
      -- the next place for its length is the one that it has in code order
      have hpos : 0 < own := Nat.pos_of_ne_zero h0
      have horder := getElem?_codeOrder hown hpos hle
      rw [hbefore, ← hg own hpos hle] at horder
      obtain ⟨hi, -⟩ := List.getElem?_eq_some_iff.mp horder
      have hsize : symbols.size = (Table.codeOrder lengths).length := by
        rw [← Array.length_toList, hs, placed, List.length_map]
      have hcoded := length_codeOrder hl ▸ hi
      have hcountP := List.countP_le_length (p := (0 < ·)) (l := lengths)
      have hsymbol : before.length < 2 ^ 16 := by
        have := congrArg List.length hb
        rw [List.length_append] at this
        omega
      obtain ⟨offsets', hput, ho'⟩ := ho.put hle (g own + 1)
      have hword : g own + 1 < 2 ^ 16 := by omega
      simp only [ho.get own hle, Option.bind_eq_bind, Option.bind_some, word?_of_lt hsymbol,
        put?_of_lt _ (hsize ▸ hi), word?_of_lt hword, hput]
      rw [← hlength]
      refine ih hnext ho' (fun length h1 hm => ?_) ?_
      · rw [hcount, Function.update_apply]
        by_cases he : length = own
        · subst he
          rw [if_pos rfl, if_pos rfl, hg length h1 hm, Nat.add_assoc]
        · rw [if_neg he, if_neg (Ne.symm he), hg length h1 hm, Nat.add_zero]
      · rw [Array.toList_setIfInBounds, hs, hlength, set_placed horder]

def Decoder.ofTable (t : Table) : Decoder :=
  ⟨(0 :: t.counts).toArray, t.symbols⟩

theorem Decoder.ofLengths?_eq (hl : ∀ length ∈ lengths, length ≤ maxLength)
    (hn : lengths.length < 2 ^ 16) :
    ofLengths? lengths = some ((Table.ofLengths lengths).map ofTable) := by
  obtain ⟨counts, htally, hc⟩ := (Lists.replicate 0).tally hl fun _ => by omega
  simp only [Nat.zero_add] at hc
  have hclaim := hc.claim maxLength 1 1 (by decide)
  rw [← lengthCounts_eq] at hclaim
  rw [ofLengths?, Table.ofLengths, Table.countable_of_le hl hn]
  simp only [htally, hclaim, Option.bind_eq_bind, Option.bind_some, Bool.not_true,
    Bool.false_eq_true, if_false]
  split
  · rfl
  · have hsum : (countsFrom lengths 1 (maxLength - 1)).sum < 2 ^ 16 := by
      rw [sum_countsFrom]
      exact List.countP_le_length.trans_lt hn
    obtain ⟨offsets, g, hoffsets, ho, -, hg⟩ := hc.starts (Lists.replicate 0) (maxLength - 1) 1
      (by decide) (by omega)
    have hplace : place? offsets (Array.replicate (lengths.countP (0 < ·)) 0) 0 lengths =
        some (Table.codeOrder lengths).toArray := by
      refine Lists.place hl hn (List.nil_append lengths).symm ho (fun length h1 hm => ?_) ?_
      · have hstart := hg (length - 1) (by omega)
        rwa [Nat.add_sub_cancel' h1, Nat.zero_add] at hstart
      · rw [Array.toList_replicate, List.length_nil, placed_zero, length_codeOrder hl]
    obtain ⟨counts', hput, hc'⟩ := hc.put (Nat.zero_le maxLength) 0
    have htable : counts' = (0 :: lengthCounts lengths).toArray := by
      rw [hc'.eq_toArray, List.range_succ_eq_map, List.map_cons, List.map_map, lengthCounts]
      rfl
    simp only [hoffsets, hplace, hput, Option.bind_some, htable]
    rfl

end Build

namespace Decoder

structure Renders (t : Table) (d : Decoder) : Prop where
  eq : d = ofTable t
  full : t.counts.length = maxLength
  sums : t.counts.sum = t.symbols.size

theorem renders_ofTable {lengths : List Nat} {t : Table} (h : Table.ofLengths lengths = .ok t) :
    Renders t (ofTable t) := by
  refine ⟨rfl, ?_, (Table.holds_of_ofLengths h).sum_counts⟩
  unfold Table.ofLengths at h
  split at h
  · cases h
  split at h
  · cases h
  cases h
  rw [lengthCounts_eq, length_countsFrom]

/-- The offset of a code is not negative and its symbol is in the table. -/
theorem follows_follow {d : Decoder} (counts : List Nat) (length code first index : Nat)
    (hc : d.counts.toList.drop length = counts) (hf : first ≤ code)
    (hs : index + counts.sum ≤ d.symbols.size) :
    Checked.Follows (fun a b => b = a)
      (d.follow counts.length length (2 * code) (2 * first) index)
      (Table.walk d.symbols counts code first index) := by
  induction counts generalizing length code first index with
  | nil => exact .refuse _
  | cons count counts ih =>
    rw [List.sum_cons] at hs
    have hcount : d.counts[length]? = some count := by
      rw [← Array.getElem?_toList, ← Nat.add_zero length, ← List.getElem?_drop, hc]
      rfl
    have hrest : d.counts.toList.drop (length + 1) = counts := by
      rw [← List.drop_drop, hc]
      rfl
    rw [Table.walk_cons, List.length_cons, follow]
    refine (Checked.Follows.bits 1).bind fun _ bit hbit => ?_
    obtain ⟨rfl, -⟩ := hbit
    refine .need hcount (.need (sub?_of_le (by omega)) ?_)
    by_cases hlt : 2 * code + bit < 2 * first + count
    · have hi : index + (2 * code + bit - 2 * first) < d.symbols.size := by omega
      rw [if_pos hlt, if_pos (by omega), Table.choose, Table.symbol?, if_pos (by omega),
        Array.getElem?_eq_getElem hi]
      exact .need_pure rfl rfl
    · -- the code is not one of this length, so it stays at or above the first of the next
      rw [if_neg hlt, if_neg (by omega)]
      exact ih (length + 1) _ _ _ hrest (by omega) (by omega)

theorem Renders.follows_decode {t : Table} {d : Decoder} (h : Renders t d) :
    Checked.Follows (fun a b => b = a) d.decode t.decode := by
  have hfollow := follows_follow (d := d) t.counts 1 0 0 0 (by rw [h.eq]; rfl) (Nat.le_refl 0)
    (by rw [h.eq, Nat.zero_add, h.sums]; exact Nat.le_refl _)
  rw [h.full] at hfollow
  rw [h.eq] at hfollow ⊢
  exact hfollow

end Decoder

end Conduit.Machine
