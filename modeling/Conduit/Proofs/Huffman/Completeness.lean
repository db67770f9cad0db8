import Mathlib.Algebra.BigOperators.Ring.List
import Mathlib.Algebra.Order.Ring.Rat
import Mathlib.Data.List.MinMax
import Mathlib.Tactic.Ring
import Conduit.Proofs.Huffman.Lengths

namespace Conduit.Huffman

section Shorten

variable {limit size longest : Nat} {codes : List Coded}

theorem dvd_space {lengths : List Nat} (h : ∀ l ∈ lengths, l ≤ longest) :
    2 ^ (limit - longest) ∣ (lengths.map fun l => 2 ^ (limit - l)).sum := by
  apply List.dvd_sum
  intro x hx
  obtain ⟨l, hl, rfl⟩ := List.mem_map.mp hx
  exact Nat.pow_dvd_pow 2 (Nat.sub_le_sub_left (h l hl) limit)

theorem dvd_shares (h : ∀ c ∈ codes, c.length ≤ longest) :
    2 ^ (limit - longest) ∣ shares limit codes := by
  have hdvd : 2 ^ (limit - longest) ∣
      ((codes.map Coded.length).map fun l => 2 ^ (limit - l)).sum :=
    dvd_space (List.forall_mem_map.mpr h)
  simp only [shares, share_eq]
  rwa [List.map_map] at hdvd

theorem mul_le_shares (h : ∀ c ∈ codes, c.length ≤ longest) :
    codes.length * 2 ^ (limit - longest) ≤ shares limit codes := by
  induction codes with
  | nil => simp [shares]
  | cons c codes ih =>
    have hc : 2 ^ (limit - longest) ≤ share limit c.length := by
      rw [share_eq]
      exact Nat.pow_le_pow_right (by decide) (Nat.sub_le_sub_left (h c List.mem_cons_self) limit)
    have hcodes := ih fun d hd => h d (List.mem_cons_of_mem _ hd)
    rw [shares] at hcodes ⊢
    rw [List.length_cons, Nat.add_one_mul, List.map_cons, total_cons, Nat.add_comm]
    exact Nat.add_le_add hc hcodes

theorem exists_longest (hne : codes ≠ []) : ∃ c ∈ codes, ∀ d ∈ codes, d.length ≤ c.length := by
  cases hmax : codes.argmax Coded.length with
  | none => exact absurd (List.argmax_eq_none.mp hmax) hne
  | some c => exact ⟨c, List.argmax_mem hmax, fun d hd => List.le_of_mem_argmax hd hmax⟩

/-- As long as some of the code space is free, a longest code can take as much again: what is free
is a multiple of its share, and two codes of one bit would leave nothing free. -/
theorem Codes.exists_mayShorten (h : Codes limit size codes) (htwo : 2 ≤ codes.length)
    (hs : shares limit codes < 2 ^ limit) :
    ∃ c ∈ codes, mayShorten limit (1 <<< limit - shares limit codes) c = true := by
  have hne : codes ≠ [] := List.ne_nil_of_length_pos (by omega)
  obtain ⟨c, hc, hlongest⟩ := exists_longest hne
  refine ⟨c, hc, ?_⟩
  have hpos := h.pos c hc
  have hle := h.le c hc
  have hlong : 1 < c.length := by
    by_contra hshort
    have hone : c.length = 1 := by omega
    rw [hone] at hlongest hle
    have htwice : 2 * 2 ^ (limit - 1) ≤ shares limit codes :=
      (Nat.mul_le_mul_right _ htwo).trans (mul_le_shares hlongest)
    rw [← Nat.pow_succ', Nat.succ_eq_add_one, Nat.sub_add_cancel hle] at htwice
    omega
  have hdvd : 2 ^ (limit - c.length) ∣ 2 ^ limit - shares limit codes :=
    Nat.dvd_sub (Nat.pow_dvd_pow 2 (Nat.sub_le limit c.length)) (dvd_shares hlongest)
  have hfree := Nat.le_of_dvd (by omega) hdvd
  rw [mayShorten, share_eq, Nat.one_shiftLeft]
  simp [hlong, hfree]

theorem Codes.shares_shorten (h : Codes limit size codes) (htwo : 2 ≤ codes.length)
    (hs : shares limit codes ≤ 2 ^ limit) : shares limit (shorten limit codes) = 2 ^ limit := by
  fun_induction shorten limit codes with
  | case1 codes hfull =>
    rw [Nat.one_shiftLeft] at hfull
    exact Nat.le_antisymm hs hfull
  | case2 codes hfree free hnone =>
    rw [Nat.one_shiftLeft] at hfree
    obtain ⟨c, hc, hmay⟩ := h.exists_mayShorten htwo (Nat.not_le.mp hfree)
    rw [greatest?_eq_none hnone hc] at hmay
    contradiction
  | case3 codes hfree free c hc ih =>
    obtain ⟨hmem, hmay⟩ := greatest?_mem hc
    obtain ⟨hcodes, hshares⟩ := h.shortened hmem hmay
    apply ih hcodes _ hshares
    rwa [Huffman.adjust, List.length_map]

theorem shares_limitLengths (hn : (codes.map Coded.symbol).Nodup)
    (hlt : ∀ c ∈ codes, c.symbol < size) (hpos : ∀ c ∈ codes, 0 < c.length) (hlimit : 0 < limit)
    (htwo : 2 ≤ codes.length) (hcount : codes.length ≤ 2 ^ limit) :
    shares limit (limitLengths limit codes) = 2 ^ limit := by
  obtain ⟨hcodes, hshares, hsymbols⟩ :=
    lengthen_spec (codes_cut hn hlt hpos hlimit) (by rwa [List.length_map])
  apply hcodes.shares_shorten _ hshares
  have hlen := congrArg List.length hsymbols
  rw [List.length_map, List.length_map, List.length_map] at hlen
  rwa [hlen]

end Shorten

section Count

variable {freqs : List Nat} {limit size : Nat} {codes : List Coded}

def occurring (freqs : List Nat) : List Nat :=
  freqs.zipIdx.filterMap fun x => if 0 < x.1 then some x.2 else none

def absent (freqs : List Nat) : List Nat :=
  freqs.zipIdx.filterMap fun x => if x.1 = 0 then some x.2 else none

/-- The symbols that receive a code although they do not occur. -/
def fillers (freqs : List Nat) : List Nat :=
  (absent freqs).take (2 - (freqs.filter (0 < ·)).length)

theorem codedSymbols_eq (freqs : List Nat) :
    codedSymbols freqs = freqs.zipIdx.filterMap fun x =>
      if 0 < x.1 || (fillers freqs).contains x.2 then some x.2 else none := rfl

theorem mem_filterMap_zipIdx {p : Nat × Nat → Prop} [DecidablePred p] {s : Nat} :
    s ∈ (freqs.zipIdx.filterMap fun x => if p x then some x.2 else none) ↔
      ∃ f, freqs[s]? = some f ∧ p (f, s) := by
  rw [List.mem_filterMap]
  constructor
  · rintro ⟨⟨f, t⟩, hmem, hp⟩
    split at hp
    next h =>
      cases hp
      exact ⟨f, List.mk_mem_zipIdx_iff_getElem?.mp hmem, h⟩
    · cases hp
  · rintro ⟨f, hf, hp⟩
    exact ⟨(f, s), List.mk_mem_zipIdx_iff_getElem?.mpr hf, if_pos hp⟩

theorem nodup_filterMap_zipIdx (freqs : List Nat) (p : Nat × Nat → Prop) [DecidablePred p] :
    (freqs.zipIdx.filterMap fun x => if p x then some x.2 else none).Nodup := by
  have h := filterMap_sublist freqs.zipIdx fun x => p x
  rw [List.zipIdx_map_snd, ← List.range_eq_range'] at h
  simp only [decide_eq_true_eq] at h
  exact h.nodup List.nodup_range

theorem length_filterMap_zipIdx (freqs : List Nat) (p : Nat → Bool) :
    (freqs.zipIdx.filterMap fun x => if p x.1 then some x.2 else none).length =
      freqs.countP p := by
  rw [List.length_filterMap_eq_countP]
  conv_rhs => rw [← List.zipIdx_map_fst 0 freqs, List.countP_map]
  congr 1
  funext x
  cases hp : p x.1 <;> simp [hp]

theorem perm_codedSymbols (freqs : List Nat) :
    (codedSymbols freqs).Perm (occurring freqs ++ fillers freqs) := by
  have hfillers : ∀ s ∈ fillers freqs, freqs[s]? = some 0 := by
    intro s hs
    obtain ⟨f, hf, rfl⟩ := mem_filterMap_zipIdx.mp (List.mem_of_mem_take hs)
    exact hf
  have hnodup : (occurring freqs ++ fillers freqs).Nodup := by
    apply (nodup_filterMap_zipIdx _ _).append ((nodup_filterMap_zipIdx _ _).take)
    intro s ho hs
    obtain ⟨f, hf, hpos⟩ := mem_filterMap_zipIdx.mp ho
    rw [hfillers s hs, Option.some.injEq] at hf
    simp [← hf] at hpos
  apply (List.perm_ext_iff_of_nodup (nodup_codedSymbols freqs) hnodup).mpr
  intro s
  rw [codedSymbols_eq, mem_filterMap_zipIdx, List.mem_append, occurring, mem_filterMap_zipIdx]
  simp only [Bool.or_eq_true, decide_eq_true_eq, List.contains_iff_mem]
  constructor
  · rintro ⟨f, hf, hpos | hs⟩
    · exact Or.inl ⟨f, hf, hpos⟩
    · exact Or.inr hs
  · rintro (⟨f, hf, hpos⟩ | hs)
    · exact ⟨f, hf, Or.inl hpos⟩
    · exact ⟨0, hfillers s hs, Or.inr hs⟩

theorem length_occurring (freqs : List Nat) :
    (occurring freqs).length = freqs.countP (0 < ·) := by
  rw [← length_filterMap_zipIdx]
  simp [occurring]

theorem length_codedSymbols (htwo : 2 ≤ freqs.length) :
    (codedSymbols freqs).length = max 2 (freqs.countP (0 < ·)) := by
  have habsent : (absent freqs).length = freqs.countP (· = 0) := by
    rw [← length_filterMap_zipIdx]
    simp [absent]
  have hsplit := List.length_eq_countP_add_countP (l := freqs) (fun f => 0 < f)
  have hnot : freqs.countP (fun f => ¬ decide (0 < f) = true) = freqs.countP (· = 0) := by
    congr 1
    funext f
    simp
  rw [(perm_codedSymbols freqs).length_eq, List.length_append, fillers, List.length_take,
    length_occurring, habsent, ← List.countP_eq_length_filter]
  omega

theorem sum_map_pos (l : List Nat) :
    (l.map fun x => if 0 < x then 1 else 0).sum = l.countP (0 < ·) := by
  induction l with
  | nil => rfl
  | cons x l ih =>
    rw [List.map_cons, List.sum_cons, List.countP_cons, ih, Nat.add_comm]
    simp

theorem Codes.countP_scatter (h : Codes limit size codes) :
    (scatter size codes).countP (0 < ·) = codes.length := by
  have hone : (codes.map fun c => if 0 < c.length then 1 else 0) = codes.map fun _ => 1 := by
    apply List.map_congr_left
    intro c hc
    exact if_pos (h.pos c hc)
  rw [← sum_map_pos, h.sum_map_scatter _ rfl, hone, List.map_const', List.sum_replicate]
  exact Nat.mul_one _

end Count

section Kraft

variable {freqs lengths : List Nat} {limit : Nat}

/-- The share of all bit strings that begin with a code. -/
def kraftSum (lengths : List Nat) : ℚ :=
  ((lengths.filter (0 < ·)).map fun length => (1 / 2 : ℚ) ^ length).sum

theorem kraftSum_mul (h : ∀ l ∈ lengths, l ≤ limit) :
    kraftSum lengths * 2 ^ limit = spaceTaken limit lengths := by
  induction lengths with
  | nil => simp [kraftSum, spaceTaken]
  | cons l lengths ih =>
    have hle := h l List.mem_cons_self
    have ih := ih fun x hx => h x (List.mem_cons_of_mem _ hx)
    rw [kraftSum] at ih ⊢
    rw [spaceTaken] at ih ⊢
    by_cases h0 : l = 0
    · subst h0
      simpa using ih
    · have hpos : 0 < l := Nat.pos_of_ne_zero h0
      have hshare : (1 / 2 : ℚ) ^ l * 2 ^ limit = 2 ^ (limit - l) := by
        rw [← Nat.sub_add_cancel hle, pow_add, Nat.add_sub_cancel, mul_comm, mul_assoc, ← mul_pow]
        norm_num
      rw [List.filter_cons_of_pos (by simpa using hpos), List.map_cons, List.sum_cons, add_mul, ih,
        hshare, List.map_cons, List.sum_cons, if_neg h0]
      push_cast
      rfl

theorem kraftSum_eq_one (h : ∀ l ∈ lengths, l ≤ limit)
    (hs : spaceTaken limit lengths = 2 ^ limit) : kraftSum lengths = 1 := by
  have hmul := kraftSum_mul h
  rw [hs] at hmul
  push_cast at hmul
  exact mul_right_cancel₀ (pow_ne_zero limit two_ne_zero) (hmul.trans (one_mul _).symm)

end Kraft

section Build

variable {freqs lengths : List Nat} {limit : Nat} {codes : List Coded}

/-- The lengths of a complete code for the symbols that occur, and for no more others than are
wanted for two symbols. -/
structure Complete (lengths freqs : List Nat) (limit : Nat) : Prop where
  length_eq : lengths.length = freqs.length
  pos : ∀ s, 0 < freqs.getD s 0 → 0 < lengths.getD s 0
  count_eq : lengths.countP (0 < ·) = max 2 (freqs.countP (0 < ·))
  le : ∀ l ∈ lengths, l ≤ limit
  kraftSum_eq : kraftSum lengths = 1

theorem Codes.complete (h : Codes limit freqs.length codes) (hs : shares limit codes = 2 ^ limit)
    (hall : codes.map Coded.symbol = codedSymbols freqs) (htwo : 2 ≤ freqs.length) :
    Complete (scatter freqs.length codes) freqs limit := by
  have hsuits := h.suits hs.le hall
  refine ⟨hsuits.length_eq, hsuits.pos, ?_, hsuits.le, ?_⟩
  · rw [h.countP_scatter, ← length_codedSymbols htwo, ← hall, List.length_map]
  · exact kraftSum_eq_one hsuits.le (h.spaceTaken_scatter.trans hs)

theorem complete_buildLengths (htwo : 2 ≤ freqs.length) (hlimit : 0 < limit)
    (hroom : max 2 (freqs.countP (0 < ·)) ≤ 2 ^ limit) :
    Complete (buildLengths freqs limit) freqs limit := by
  have hmap := map_symbol_treeCodes freqs
  have hlen : (treeCodes freqs).length = max 2 (freqs.countP (0 < ·)) := by
    rw [← length_codedSymbols htwo, ← hmap, List.length_map]
  have hmany : 2 ≤ (treeCodes freqs).length := hlen ▸ Nat.le_max_left _ _
  have hlt {c : Coded} (hc : c ∈ treeCodes freqs) := lt_of_mem_treeCodes hc
  have hpos {c : Coded} (hc : c ∈ treeCodes freqs) := pos_of_mem_treeCodes hmany hc
  rw [buildLengths]
  rw [if_neg (Nat.not_lt.mpr hmany)]
  split
  next =>
    have hcount : (treeCodes freqs).length ≤ 2 ^ limit := hlen ▸ hroom
    obtain ⟨hcodes, -, hsymbols⟩ := limitLengths_spec (nodup_treeCodes freqs)
      (fun c hc => hlt hc) (fun c hc => hpos hc) hlimit hcount
    have hshares := shares_limitLengths (nodup_treeCodes freqs) (fun c hc => hlt hc)
      (fun c hc => hpos hc) hlimit hmany hcount
    exact hcodes.complete hshares (hsymbols.trans hmap) htwo
  next hfits =>
    have hle : ∀ c ∈ treeCodes freqs, c.length ≤ limit := by
      simpa only [List.any_eq_true, decide_eq_true_eq, not_exists, not_and,
        Nat.not_lt] using hfits
    exact (codes_treeCodes hmany hle).complete (shares_treeCodes hle (by omega)) hmap htwo

/-- Whatever the frequencies, if the limit leaves room for the symbols that need a code, the lengths
are those of a complete code within the limit. -/
theorem built_lengths_complete (htwo : 2 ≤ freqs.length) (hpos : 1 ≤ limit) (hle : limit ≤ 15)
    (hroom : max 2 (freqs.countP (0 < ·)) ≤ 2 ^ limit) :
    ∃ lengths, buildLengths? freqs limit = some lengths ∧ Complete lengths freqs limit := by
  refine ⟨_, if_neg ?_, complete_buildLengths htwo hpos hroom⟩
  omega

/-- A tree of depth five, cut to three, among symbols that do not occur. -/
theorem built_lengths_complete_of_skewed :
    max 2 (List.countP (0 < ·) [0, 1, 1, 2, 3, 5, 8, 0]) ≤ 2 ^ 3 ∧
      (treeCodes [0, 1, 1, 2, 3, 5, 8, 0]).any (fun c => 3 < c.length) = true ∧
      ∃ lengths, buildLengths? [0, 1, 1, 2, 3, 5, 8, 0] 3 = some lengths ∧
        Complete lengths [0, 1, 1, 2, 3, 5, 8, 0] 3 :=
  ⟨by decide, by decide +kernel,
    built_lengths_complete (by decide) (by decide) (by decide) (by decide)⟩

end Build

end Conduit.Huffman
