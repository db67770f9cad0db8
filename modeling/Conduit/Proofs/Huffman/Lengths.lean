import Mathlib.Data.List.Nodup
import Mathlib.Data.List.Perm.Lattice
import Mathlib.Algebra.BigOperators.Group.List.Basic
import Mathlib.Algebra.Order.BigOperators.Group.List
import Mathlib.Algebra.Order.Ring.Nat
import Conduit.Huffman.Canonical
import Conduit.Huffman.Lengths

namespace Conduit.Huffman

theorem total_eq_sum (numbers : List Nat) : total numbers = numbers.sum := rfl

section Place

def place (pairs : List (Nat × Nat)) (a : Array Nat) : Array Nat :=
  pairs.foldl (fun a (i, value) => a.setIfInBounds i value) a

theorem place_cons (pair : Nat × Nat) (pairs : List (Nat × Nat)) (a : Array Nat) :
    place (pair :: pairs) a = place pairs (a.setIfInBounds pair.1 pair.2) := rfl

theorem size_place (pairs : List (Nat × Nat)) (a : Array Nat) : (place pairs a).size = a.size := by
  induction pairs generalizing a with
  | nil => rfl
  | cons pair pairs ih => rw [place_cons, ih, Array.size_setIfInBounds]

theorem mem_place {pairs : List (Nat × Nat)} {a : Array Nat} {x : Nat} (h : x ∈ place pairs a) :
    x ∈ a ∨ ∃ i, (i, x) ∈ pairs := by
  induction pairs generalizing a with
  | nil => exact Or.inl h
  | cons pair pairs ih =>
    obtain h | ⟨i, hp⟩ := ih h
    · obtain h | rfl := Array.mem_or_eq_of_mem_setIfInBounds h
      · exact Or.inl h
      · exact Or.inr ⟨pair.1, List.mem_cons_self⟩
    · exact Or.inr ⟨i, List.mem_cons_of_mem _ hp⟩

theorem getElem?_place_of_notMem {pairs : List (Nat × Nat)} {a : Array Nat} {i : Nat}
    (h : i ∉ pairs.map Prod.fst) : (place pairs a)[i]? = a[i]? := by
  induction pairs generalizing a with
  | nil => rfl
  | cons pair pairs ih =>
    rw [List.map_cons, List.mem_cons, not_or] at h
    rw [place_cons, ih h.2, Array.getElem?_setIfInBounds_ne (Ne.symm h.1)]

theorem getElem?_place_of_mem {pairs : List (Nat × Nat)} {a : Array Nat} {i x : Nat}
    (hn : (pairs.map Prod.fst).Nodup) (h : (i, x) ∈ pairs) (hi : i < a.size) :
    (place pairs a)[i]? = some x := by
  induction pairs generalizing a with
  | nil => cases h
  | cons pair pairs ih =>
    rw [List.map_cons, List.nodup_cons] at hn
    rw [place_cons]
    obtain rfl | h := List.mem_cons.mp h
    · rw [getElem?_place_of_notMem hn.1, Array.getElem?_setIfInBounds_self_of_lt hi]
    · exact ih hn.2 h (by rwa [Array.size_setIfInBounds])

theorem sum_map_set {l : List Nat} {i : Nat} (f : Nat → Nat) (h : l[i]? = some 0) (h0 : f 0 = 0)
    (value : Nat) : ((l.set i value).map f).sum = (l.map f).sum + f value := by
  induction l generalizing i with
  | nil => simp at h
  | cons x l ih =>
    cases i with
    | zero =>
      rw [List.getElem?_cons_zero, Option.some.injEq] at h
      rw [List.set_cons_zero, List.map_cons, List.map_cons, List.sum_cons, List.sum_cons, h, h0]
      omega
    | succ i =>
      rw [List.getElem?_cons_succ] at h
      rw [List.set_cons_succ, List.map_cons, List.map_cons, List.sum_cons, List.sum_cons, ih h]
      omega

theorem sum_map_place {pairs : List (Nat × Nat)} {a : Array Nat} (f : Nat → Nat) (h0 : f 0 = 0)
    (hn : (pairs.map Prod.fst).Nodup) (hz : ∀ i ∈ pairs.map Prod.fst, a[i]? = some 0) :
    ((place pairs a).toList.map f).sum = (a.toList.map f).sum + (pairs.map fun p => f p.2).sum := by
  induction pairs generalizing a with
  | nil => rfl
  | cons pair pairs ih =>
    rw [List.map_cons, List.nodup_cons] at hn
    have hfirst : a.toList[pair.1]? = some 0 := by
      rw [Array.getElem?_toList]
      exact hz _ List.mem_cons_self
    rw [place_cons, ih hn.2, Array.toList_setIfInBounds, sum_map_set f hfirst h0, List.map_cons,
      List.sum_cons, Nat.add_assoc]
    intro i hi
    rw [Array.getElem?_setIfInBounds_ne]
    · exact hz i (List.mem_cons_of_mem _ hi)
    · rintro rfl
      exact hn.1 hi

end Place

section Tree

def Tree.symbols : Tree → List Nat
  | .leaf symbol => [symbol]
  | .node left right => left.symbols ++ right.symbols

theorem map_fst_depths (t : Tree) (depth : Nat) : (t.depths depth).map Prod.fst = t.symbols := by
  induction t generalizing depth with
  | leaf symbol => rfl
  | node left right ihl ihr => rw [Tree.depths, List.map_append, ihl, ihr, Tree.symbols]

theorem depths_succ (t : Tree) (depth : Nat) :
    t.depths (depth + 1) = (t.depths depth).map fun p => (p.1, p.2 + 1) := by
  induction t generalizing depth with
  | leaf symbol => rfl
  | node left right ihl ihr => rw [Tree.depths, Tree.depths, List.map_append, ihl, ihr]

theorem le_of_mem_depths {t : Tree} {depth : Nat} {p : Nat × Nat} (h : p ∈ t.depths depth) :
    depth ≤ p.2 := by
  induction t generalizing depth with
  | leaf symbol =>
    rw [Tree.depths, List.mem_singleton] at h
    exact h ▸ Nat.le_refl _
  | node left right ihl ihr =>
    obtain h | h := List.mem_append.mp h
    · exact Nat.le_of_succ_le (ihl h)
    · exact Nat.le_of_succ_le (ihr h)

theorem depths_ne_nil (t : Tree) (depth : Nat) : t.depths depth ≠ [] := by
  induction t generalizing depth with
  | leaf symbol => exact List.cons_ne_nil _ _
  | node left right ihl ihr => exact List.append_ne_nil_of_left_ne_nil (ihl (depth + 1)) _

/-- The leaves of a tree share out the code space without a rest. -/
theorem sum_depths {limit : Nat} {t : Tree} {depth : Nat} (h : ∀ p ∈ t.depths depth, p.2 ≤ limit) :
    ((t.depths depth).map fun p => 2 ^ (limit - p.2)).sum = 2 ^ (limit - depth) := by
  induction t generalizing depth with
  | leaf symbol => simp [Tree.depths]
  | node left right ihl ihr =>
    rw [Tree.depths] at h ⊢
    have hlt : depth + 1 ≤ limit := by
      obtain ⟨p, hp⟩ := List.exists_mem_of_ne_nil _ (depths_ne_nil left (depth + 1))
      exact Nat.le_trans (le_of_mem_depths hp) (h p (List.mem_append_left _ hp))
    rw [List.map_append, List.sum_append, ihl fun p hp => h p (List.mem_append_left _ hp),
      ihr fun p hp => h p (List.mem_append_right _ hp), ← Nat.two_mul, ← Nat.pow_succ']
    congr 1
    omega

theorem perm_enqueue (t : Waiting) (queue : List Waiting) :
    (enqueue t queue).Perm (t :: queue) := by
  induction queue with
  | nil => exact List.Perm.refl _
  | cons q queue ih =>
    rw [enqueue]
    split
    · exact List.Perm.refl _
    · exact (ih.cons q).trans (List.Perm.swap t q queue)

def symbolsOf (queue : List Waiting) : List Nat :=
  queue.flatMap fun w => w.tree.symbols

theorem symbols_merge {queue : List Waiting} {rank : Nat} {t : Tree}
    (h : merge queue rank = some t) : t.symbols.Perm (symbolsOf queue) := by
  fun_induction merge queue rank with
  | case1 => cases h
  | case2 rank w =>
    cases h
    rw [symbolsOf, List.flatMap_singleton]
  | case3 rank a b rest ih =>
    refine (ih h).trans (((perm_enqueue _ rest).flatMap_right _).trans ?_)
    simp only [symbolsOf, List.flatMap_cons, Tree.symbols, List.append_assoc]
    exact List.Perm.refl _

theorem merge_ne_none {queue : List Waiting} (rank : Nat) (h : queue ≠ []) :
    merge queue rank ≠ none := by
  fun_induction merge queue rank with
  | case1 => exact absurd rfl h
  | case2 rank w => simp
  | case3 rank a b rest ih =>
    apply ih
    intro he
    have := length_enqueue ⟨a.weight + b.weight, rank, .node a.tree b.tree⟩ rest
    rw [he, List.length_nil] at this
    omega

/-- A symbol that waits as a tree of its own. One that does not occur counts as occurring once. -/
def leafOf (freqs : List Nat) (p : Nat × Nat) : Waiting :=
  ⟨max (freqs.getD p.1 0) 1, p.2, .leaf p.1⟩

theorem perm_leaves (freqs : List Nat) :
    (leaves freqs).Perm ((codedSymbols freqs).zipIdx.map (leafOf freqs)) := by
  have fold (l : List (Nat × Nat)) (queue : List Waiting) :
      (l.foldl (fun queue p => enqueue (leafOf freqs p) queue) queue).Perm
        (queue ++ l.map (leafOf freqs)) := by
    induction l generalizing queue with
    | nil => simp
    | cons p l ih =>
      refine (ih _).trans (((perm_enqueue _ queue).append_right _).trans ?_)
      exact List.perm_middle.symm
  exact fold _ []

theorem symbolsOf_leaves (freqs : List Nat) :
    (symbolsOf (leaves freqs)).Perm (codedSymbols freqs) := by
  have hsymbols :
      symbolsOf ((codedSymbols freqs).zipIdx.map (leafOf freqs)) = codedSymbols freqs := by
    rw [symbolsOf, List.flatMap_map]
    exact List.map_eq_flatMap.symm.trans (List.zipIdx_map_fst 0 _)
  have hperm := (perm_leaves freqs).flatMap_right fun w => w.tree.symbols
  rwa [← symbolsOf, ← symbolsOf, hsymbols] at hperm

end Tree

section Coded

variable {freqs : List Nat} {limit : Nat}

theorem filterMap_sublist (l : List (Nat × Nat)) (p : Nat × Nat → Bool) :
    (l.filterMap fun x => if p x then some x.2 else none).Sublist (l.map Prod.snd) := by
  induction l with
  | nil => exact List.Sublist.refl _
  | cons x l ih =>
    rw [List.filterMap_cons, List.map_cons]
    by_cases hp : p x
    · rw [if_pos hp]
      exact ih.cons_cons x.2
    · rw [if_neg hp]
      exact ih.cons x.2

theorem codedSymbols_sublist (freqs : List Nat) :
    (codedSymbols freqs).Sublist (List.range freqs.length) := by
  have h := filterMap_sublist freqs.zipIdx fun x => 0 < x.1 ||
    ((freqs.zipIdx.filterMap fun (f, s) => if f = 0 then some s else none).take
      (2 - (freqs.filter (0 < ·)).length)).contains x.2
  rwa [List.zipIdx_map_snd, ← List.range_eq_range'] at h

theorem nodup_codedSymbols (freqs : List Nat) : (codedSymbols freqs).Nodup :=
  (codedSymbols_sublist freqs).nodup List.nodup_range

theorem lt_of_mem_codedSymbols {s : Nat} (h : s ∈ codedSymbols freqs) : s < freqs.length :=
  List.mem_range.mp ((codedSymbols_sublist freqs).subset h)

theorem mem_codedSymbols {s : Nat} (h : 0 < freqs.getD s 0) : s ∈ codedSymbols freqs := by
  have hs : freqs[s]? = some (freqs.getD s 0) := by
    rw [List.getD_eq_getElem?_getD] at h ⊢
    cases hl : freqs[s]? with
    | none => simp [hl] at h
    | some f => rfl
  refine List.mem_filterMap.mpr ⟨(freqs.getD s 0, s), List.mk_mem_zipIdx_iff_getElem?.mpr hs, ?_⟩
  simp only [h, decide_true, Bool.true_or, if_true]

def depthIn (freqs : List Nat) (t : Tree) (s : Nat) : Nat :=
  (place (t.depths 0) (Array.replicate freqs.length 0)).getD s 0

theorem treeCodes_eq {t : Tree} (h : tree? freqs = some t) :
    treeCodes freqs =
      (codedSymbols freqs).map fun s => ⟨s, freqs.getD s 0, depthIn freqs t s⟩ := by
  rw [treeCodes, h]
  rfl

theorem exists_tree (h : codedSymbols freqs ≠ []) : ∃ t, tree? freqs = some t := by
  apply Option.ne_none_iff_exists'.mp
  apply merge_ne_none
  intro he
  have hp := symbolsOf_leaves freqs
  rw [he, symbolsOf, List.flatMap_nil] at hp
  exact h hp.symm.eq_nil

theorem map_symbol_treeCodes (freqs : List Nat) :
    (treeCodes freqs).map Coded.symbol = codedSymbols freqs := by
  by_cases h : codedSymbols freqs = []
  · rw [h, treeCodes]
    cases tree? freqs with
    | none => rfl
    | some t => simp only [h, List.map_nil]
  · obtain ⟨t, ht⟩ := exists_tree h
    rw [treeCodes_eq ht, List.map_map]
    exact List.map_id _

theorem perm_symbols {t : Tree} (h : tree? freqs = some t) :
    t.symbols.Perm (codedSymbols freqs) :=
  (symbols_merge h).trans (symbolsOf_leaves freqs)

theorem coded_of_mem_depths {t : Tree} (h : tree? freqs = some t) {p : Nat × Nat}
    (hp : p ∈ t.depths 0) : p.1 ∈ codedSymbols freqs := by
  rw [← (perm_symbols h).mem_iff, ← map_fst_depths t 0]
  exact List.mem_map_of_mem hp

theorem depthIn_eq {t : Tree} (h : tree? freqs = some t) {p : Nat × Nat} (hp : p ∈ t.depths 0) :
    depthIn freqs t p.1 = p.2 := by
  have hn : ((t.depths 0).map Prod.fst).Nodup := by
    rw [map_fst_depths]
    exact (perm_symbols h).nodup_iff.mpr (nodup_codedSymbols freqs)
  rw [depthIn, Array.getD_eq_getD_getElem?, getElem?_place_of_mem hn hp, Option.getD_some]
  rw [Array.size_replicate]
  exact lt_of_mem_codedSymbols (coded_of_mem_depths h hp)

theorem mem_depths {t : Tree} (h : tree? freqs = some t) {s : Nat} (hs : s ∈ codedSymbols freqs) :
    (s, depthIn freqs t s) ∈ t.depths 0 := by
  rw [← (perm_symbols h).mem_iff, ← map_fst_depths t 0] at hs
  obtain ⟨p, hp, rfl⟩ := List.mem_map.mp hs
  rwa [depthIn_eq h hp]

theorem perm_lengths {t : Tree} (h : tree? freqs = some t) :
    ((treeCodes freqs).map Coded.length).Perm ((t.depths 0).map Prod.snd) := by
  have hd : (t.depths 0).map Prod.snd = t.symbols.map (depthIn freqs t) := by
    rw [← map_fst_depths t 0, List.map_map]
    exact List.map_congr_left fun p hp => (depthIn_eq h hp).symm
  rw [hd, treeCodes_eq h, List.map_map]
  exact ((perm_symbols h).map (depthIn freqs t)).symm

end Coded

/-- The code space that lengths claim, zero standing for no code. -/
def spaceTaken (limit : Nat) (lengths : List Nat) : Nat :=
  (lengths.map fun length => if length = 0 then 0 else 2 ^ (limit - length)).sum

/-- Codes of at least one bit and at most `limit` for different symbols. -/
structure Codes (limit size : Nat) (codes : List Coded) : Prop where
  nodup : (codes.map Coded.symbol).Nodup
  lt : ∀ c ∈ codes, c.symbol < size
  pos : ∀ c ∈ codes, 0 < c.length
  le : ∀ c ∈ codes, c.length ≤ limit

section Limit

variable {limit size : Nat} {codes : List Coded} {c : Coded} {f : Nat → Nat}

theorem share_eq (limit length : Nat) : share limit length = 2 ^ (limit - length) :=
  Nat.one_shiftLeft _

theorem map_symbol_adjust (codes : List Coded) (symbol : Nat) (f : Nat → Nat) :
    (adjust codes symbol f).map Coded.symbol = codes.map Coded.symbol := by
  rw [adjust, List.map_map]
  apply List.map_congr_left
  intro d _
  simp only [Function.comp]
  split <;> rfl

theorem eq_of_symbol_eq (h : (codes.map Coded.symbol).Nodup) {d : Coded} (hc : c ∈ codes)
    (hd : d ∈ codes) (he : d.symbol = c.symbol) : d = c :=
  List.inj_on_of_nodup_map h hd hc he

theorem mem_adjust (h : (codes.map Coded.symbol).Nodup) (hc : c ∈ codes) {d : Coded}
    (hd : d ∈ adjust codes c.symbol f) : d ∈ codes ∨ d = { c with length := f c.length } := by
  obtain ⟨e, he, rfl⟩ := List.mem_map.mp hd
  split
  next hs =>
    rw [eq_of_symbol_eq h hc he hs]
    exact Or.inr rfl
  next => exact Or.inl he

theorem adjust_of_notMem (h : c.symbol ∉ codes.map Coded.symbol) :
    adjust codes c.symbol f = codes := by
  rw [adjust]
  conv_rhs => rw [← List.map_id codes]
  apply List.map_congr_left
  intro d hd
  rw [if_neg, id]
  intro he
  exact h (he ▸ List.mem_map_of_mem hd)

theorem shares_adjust (h : (codes.map Coded.symbol).Nodup) (hc : c ∈ codes) :
    shares limit (adjust codes c.symbol f) + share limit c.length =
      shares limit codes + share limit (f c.length) := by
  induction codes with
  | nil => cases hc
  | cons d codes ih =>
    rw [List.map_cons, List.nodup_cons] at h
    obtain rfl | hc := List.mem_cons.mp hc
    · have hrest : adjust (c :: codes) c.symbol f =
          { c with length := f c.length } :: adjust codes c.symbol f := by
        rw [adjust, List.map_cons, if_pos rfl, adjust]
      rw [hrest, adjust_of_notMem h.1]
      simp only [shares, List.map_cons, total_cons]
      omega
    · have hne : d.symbol ≠ c.symbol := by
        intro he
        exact h.1 (he ▸ List.mem_map_of_mem hc)
      have hrest : adjust (d :: codes) c.symbol f = d :: adjust codes c.symbol f := by
        rw [adjust, List.map_cons, if_neg hne, adjust]
      have ih := ih h.2 hc
      rw [hrest]
      simp only [shares, List.map_cons, total_cons] at ih ⊢
      omega

theorem Codes.adjust (h : Codes limit size codes) (hc : c ∈ codes) (hpos : 0 < f c.length)
    (hle : f c.length ≤ limit) : Codes limit size (adjust codes c.symbol f) where
  nodup := by
    rw [map_symbol_adjust]
    exact h.nodup
  lt d hd := by
    obtain hd | rfl := mem_adjust h.nodup hc hd
    · exact h.lt d hd
    · exact h.lt c hc
  pos d hd := by
    obtain hd | rfl := mem_adjust h.nodup hc hd
    · exact h.pos d hd
    · exact hpos
  le d hd := by
    obtain hd | rfl := mem_adjust h.nodup hc hd
    · exact h.le d hd
    · exact hle

theorem foldl_eq_none {α β : Type} {step : Option β → α → Option β} {p : α → Prop}
    (hstep : ∀ best a, step best a = none → best = none ∧ p a) {l : List α} {best : Option β}
    (h : l.foldl step best = none) : best = none ∧ ∀ a ∈ l, p a := by
  induction l generalizing best with
  | nil => exact ⟨h, by simp⟩
  | cons a l ih =>
    obtain ⟨hbest, hrest⟩ := ih h
    obtain ⟨hnone, ha⟩ := hstep best a hbest
    exact ⟨hnone, List.forall_mem_cons.mpr ⟨ha, hrest⟩⟩

theorem greatest?_eq_none {eligible : Coded → Bool} {below : Coded → Coded → Bool}
    (h : greatest? eligible below codes = none) (hc : c ∈ codes) : eligible c = false := by
  refine (foldl_eq_none (p := fun d => eligible d = false) (fun best d hd => ?_) h).2 c hc
  cases heligible : eligible d with
  | false =>
    rw [heligible, if_neg (by simp)] at hd
    exact ⟨hd, rfl⟩
  | true =>
    rw [heligible, if_pos rfl] at hd
    cases best with
    | none => cases hd
    | some b =>
      dsimp only at hd
      split at hd <;> cases hd

theorem sum_le_length {l : List Nat} (h : ∀ x ∈ l, x ≤ 1) : l.sum ≤ l.length := by
  induction l with
  | nil => exact Nat.le_refl 0
  | cons x l ih =>
    have hx := h x List.mem_cons_self
    have hl := ih fun y hy => h y (List.mem_cons_of_mem _ hy)
    rw [List.sum_cons, List.length_cons]
    omega

/-- Codes that have become too long to grow fit, if they are not too many. -/
theorem lengthen_spec (h : Codes limit size codes) (hn : codes.length ≤ 2 ^ limit) :
    Codes limit size (lengthen limit codes) ∧ shares limit (lengthen limit codes) ≤ 2 ^ limit ∧
      (lengthen limit codes).map Coded.symbol = codes.map Coded.symbol := by
  fun_induction lengthen limit codes with
  | case1 codes hle => exact ⟨h, by rwa [Nat.one_shiftLeft] at hle, rfl⟩
  | case2 codes hlt hnone =>
    refine ⟨h, Nat.le_trans ?_ hn, rfl⟩
    rw [shares, ← List.length_map fun c => share limit c.length]
    apply sum_le_length
    intro x hx
    obtain ⟨c, hc, rfl⟩ := List.mem_map.mp hx
    have := greatest?_eq_none hnone hc
    rw [share_eq, Nat.sub_eq_zero_of_le (by simpa using this)]
    exact Nat.le_refl 1
  | case3 codes hlt c hc ih =>
    obtain ⟨hmem, hshort⟩ := greatest?_mem hc
    have hshort : c.length < limit := by simpa using hshort
    obtain ⟨h1, h2, h3⟩ := ih (h.adjust hmem (Nat.succ_pos _) hshort)
      (by rwa [adjust, List.length_map])
    exact ⟨h1, h2, h3.trans (map_symbol_adjust _ _ _)⟩

theorem Codes.shortened (h : Codes limit size codes) (hc : c ∈ codes)
    (hmay : mayShorten limit (1 <<< limit - shares limit codes) c) :
    Codes limit size (Huffman.adjust codes c.symbol (· - 1)) ∧
      shares limit (Huffman.adjust codes c.symbol (· - 1)) ≤ 2 ^ limit := by
  simp only [mayShorten, Bool.and_eq_true, decide_eq_true_eq] at hmay
  obtain ⟨hlong, hfree⟩ := hmay
  have hadjust : shares limit (Huffman.adjust codes c.symbol (· - 1)) + share limit c.length =
      shares limit codes + share limit (c.length - 1) := shares_adjust h.nodup hc
  have hle := h.le c hc
  have hdouble : share limit (c.length - 1) = 2 * share limit c.length := by
    rw [share_eq, share_eq, ← Nat.pow_succ']
    congr 1
    omega
  have hunit : 1 <<< limit = 2 ^ limit := Nat.one_shiftLeft _
  have hpos : 0 < share limit c.length := by
    rw [share_eq]
    exact Nat.two_pow_pos _
  exact ⟨h.adjust hc (by omega) (by omega), by omega⟩

theorem shorten_spec (h : Codes limit size codes) (hs : shares limit codes ≤ 2 ^ limit) :
    Codes limit size (shorten limit codes) ∧ shares limit (shorten limit codes) ≤ 2 ^ limit ∧
      (shorten limit codes).map Coded.symbol = codes.map Coded.symbol := by
  fun_induction shorten limit codes with
  | case1 codes hle => exact ⟨h, hs, rfl⟩
  | case2 codes hlt free hnone => exact ⟨h, hs, rfl⟩
  | case3 codes hlt free c hc ih =>
    obtain ⟨hmem, hmay⟩ := greatest?_mem hc
    obtain ⟨hcodes, hshares⟩ := h.shortened hmem hmay
    obtain ⟨h1, h2, h3⟩ := ih hcodes hshares
    exact ⟨h1, h2, h3.trans (map_symbol_adjust _ _ _)⟩

theorem codes_cut {codes : List Coded} (hn : (codes.map Coded.symbol).Nodup)
    (hlt : ∀ c ∈ codes, c.symbol < size) (hpos : ∀ c ∈ codes, 0 < c.length) (hlimit : 0 < limit) :
    Codes limit size (codes.map fun c => { c with length := min c.length limit }) := by
  refine ⟨?_, fun d hd => ?_, fun d hd => ?_, fun d hd => ?_⟩
  · rw [List.map_map]
    exact hn
  all_goals obtain ⟨c, hc, rfl⟩ := List.mem_map.mp hd
  · exact hlt c hc
  · exact Nat.lt_min.mpr ⟨hpos c hc, hlimit⟩
  · exact Nat.min_le_right _ _

theorem limitLengths_spec {codes : List Coded} (hn : (codes.map Coded.symbol).Nodup)
    (hlt : ∀ c ∈ codes, c.symbol < size) (hpos : ∀ c ∈ codes, 0 < c.length) (hlimit : 0 < limit)
    (hcount : codes.length ≤ 2 ^ limit) :
    Codes limit size (limitLengths limit codes) ∧
      shares limit (limitLengths limit codes) ≤ 2 ^ limit ∧
      (limitLengths limit codes).map Coded.symbol = codes.map Coded.symbol := by
  obtain ⟨h1, h2, h3⟩ := lengthen_spec (codes_cut hn hlt hpos hlimit) (by rwa [List.length_map])
  obtain ⟨h4, h5, h6⟩ := shorten_spec h1 h2
  refine ⟨h4, h5, h6.trans (h3.trans ?_)⟩
  rw [List.map_map]
  rfl

end Limit

section Build

variable {freqs : List Nat} {limit size : Nat} {codes : List Coded}

theorem scatter_eq (size : Nat) (codes : List Coded) :
    scatter size codes =
      (place (codes.map fun c => (c.symbol, c.length)) (Array.replicate size 0)).toList := by
  rw [scatter, place, List.foldl_map]

theorem Codes.scatter_le (h : Codes limit size codes) : ∀ l ∈ scatter size codes, l ≤ limit := by
  intro l hl
  rw [scatter_eq, Array.mem_toList_iff] at hl
  obtain hl | ⟨s, hs⟩ := mem_place hl
  · rw [(Array.mem_replicate.mp hl).2]
    exact Nat.zero_le limit
  · obtain ⟨c, hc, he⟩ := List.mem_map.mp hs
    cases he
    exact h.le c hc

theorem Codes.keys_nodup (h : Codes limit size codes) :
    ((codes.map fun c => (c.symbol, c.length)).map Prod.fst).Nodup := by
  rw [List.map_map]
  exact h.nodup

theorem Codes.sum_map_scatter (h : Codes limit size codes) (f : Nat → Nat) (h0 : f 0 = 0) :
    ((scatter size codes).map f).sum = (codes.map fun c => f c.length).sum := by
  rw [scatter_eq, sum_map_place f h0 h.keys_nodup, List.map_map]
  · have hzero : ((Array.replicate size 0).toList.map f).sum = 0 := by
      rw [Array.toList_replicate, List.map_replicate, h0, List.sum_replicate, nsmul_zero]
    rw [hzero, Nat.zero_add]
    rfl
  · intro i hi
    rw [List.map_map] at hi
    obtain ⟨c, hc, rfl⟩ := List.mem_map.mp hi
    rw [Array.getElem?_replicate, if_pos]
    exact h.lt c hc

theorem Codes.spaceTaken_scatter (h : Codes limit size codes) :
    spaceTaken limit (scatter size codes) = shares limit codes := by
  rw [spaceTaken, h.sum_map_scatter (fun l => if l = 0 then 0 else 2 ^ (limit - l)) (if_pos rfl),
    shares]
  congr 1
  apply List.map_congr_left
  intro c hc
  rw [if_neg (Nat.ne_of_gt (h.pos c hc)), share_eq]

theorem Codes.getD_scatter (h : Codes limit size codes) {c : Coded} (hc : c ∈ codes) :
    (scatter size codes).getD c.symbol 0 = c.length := by
  rw [scatter_eq, List.getD_eq_getElem?_getD, Array.getElem?_toList,
    getElem?_place_of_mem h.keys_nodup (List.mem_map.mpr ⟨c, hc, rfl⟩), Option.getD_some]
  rw [Array.size_replicate]
  exact h.lt c hc

theorem Codes.scatter_pos (h : Codes limit size codes) {c : Coded} (hc : c ∈ codes) :
    0 < (scatter size codes).getD c.symbol 0 := by
  rw [h.getD_scatter hc]
  exact h.pos c hc

structure Suits (lengths freqs : List Nat) (limit : Nat) : Prop where
  length_eq : lengths.length = freqs.length
  le : ∀ l ∈ lengths, l ≤ limit
  spaceTaken_le : spaceTaken limit lengths ≤ 2 ^ limit
  pos : ∀ s, 0 < freqs.getD s 0 → 0 < lengths.getD s 0

theorem Codes.suits (h : Codes limit freqs.length codes) (hs : shares limit codes ≤ 2 ^ limit)
    (hall : codes.map Coded.symbol = codedSymbols freqs) :
    Suits (scatter freqs.length codes) freqs limit where
  length_eq := by rw [scatter_eq, Array.length_toList, size_place, Array.size_replicate]
  le := h.scatter_le
  spaceTaken_le := by rwa [h.spaceTaken_scatter]
  pos s hf := by
    have hm := mem_codedSymbols hf
    rw [← hall] at hm
    obtain ⟨c, hc, rfl⟩ := List.mem_map.mp hm
    exact h.scatter_pos hc

theorem lt_of_mem_treeCodes {c : Coded} (hc : c ∈ treeCodes freqs) : c.symbol < freqs.length := by
  apply lt_of_mem_codedSymbols
  rw [← map_symbol_treeCodes]
  exact List.mem_map_of_mem hc

theorem nodup_treeCodes (freqs : List Nat) : ((treeCodes freqs).map Coded.symbol).Nodup := by
  rw [map_symbol_treeCodes]
  exact nodup_codedSymbols freqs

theorem exists_tree_of_mem {c : Coded} (hc : c ∈ treeCodes freqs) :
    ∃ t, tree? freqs = some t := by
  apply exists_tree
  rw [← map_symbol_treeCodes]
  exact List.ne_nil_of_mem (List.mem_map_of_mem hc)

theorem pos_of_mem_treeCodes (h : 2 ≤ (treeCodes freqs).length) {c : Coded}
    (hc : c ∈ treeCodes freqs) : 0 < c.length := by
  obtain ⟨t, ht⟩ := exists_tree_of_mem hc
  have hp := perm_lengths ht
  have hmem := hp.mem_iff.mp (List.mem_map_of_mem hc)
  have hlen := hp.length_eq
  rw [List.length_map, List.length_map] at hlen
  obtain ⟨p, hp, he⟩ := List.mem_map.mp hmem
  cases t with
  | leaf s =>
    rw [Tree.depths, List.length_singleton] at hlen
    omega
  | node left right =>
    rw [← he]
    obtain hp | hp := List.mem_append.mp hp <;> exact le_of_mem_depths hp

theorem codes_treeCodes (h : 2 ≤ (treeCodes freqs).length)
    (hle : ∀ c ∈ treeCodes freqs, c.length ≤ limit) : Codes limit freqs.length (treeCodes freqs) :=
  ⟨nodup_treeCodes freqs, fun _ hc => lt_of_mem_treeCodes hc,
    fun _ hc => pos_of_mem_treeCodes h hc, hle⟩

theorem length_treeCodes_le (freqs : List Nat) : (treeCodes freqs).length ≤ freqs.length := by
  rw [← List.length_map (f := Coded.symbol), map_symbol_treeCodes]
  refine (codedSymbols_sublist freqs).length_le.trans ?_
  rw [List.length_range]

/-- A tree that is nowhere deeper than the limit takes all of the code space. -/
theorem shares_treeCodes (hle : ∀ c ∈ treeCodes freqs, c.length ≤ limit)
    (hne : 0 < (treeCodes freqs).length) : shares limit (treeCodes freqs) = 2 ^ limit := by
  obtain ⟨c, hc⟩ := List.exists_mem_of_length_pos hne
  obtain ⟨t, ht⟩ := exists_tree_of_mem hc
  have hp := perm_lengths ht
  have hsum : shares limit (treeCodes freqs) =
      ((t.depths 0).map fun p => 2 ^ (limit - p.2)).sum := by
    have hperm := (hp.map fun l => 2 ^ (limit - l)).sum_eq
    rw [List.map_map, List.map_map] at hperm
    simp only [shares, share_eq]
    exact hperm
  have hdepths : ∀ p ∈ t.depths 0, p.2 ≤ limit := by
    intro p hpm
    have hm := hp.mem_iff.mpr (List.mem_map_of_mem hpm)
    obtain ⟨c, hc, he⟩ := List.mem_map.mp hm
    rw [← he]
    exact hle c hc
  rw [hsum, sum_depths hdepths, Nat.sub_zero]

/-- A single symbol gets a length, although its tree has none. -/
theorem suits_lone (hlimit : 0 < limit) (hfew : (treeCodes freqs).length < 2) :
    Suits (scatter freqs.length ((treeCodes freqs).map fun c => { c with length := 1 })) freqs
      limit := by
  have hmap : ((treeCodes freqs).map fun c => { c with length := 1 }).map Coded.symbol =
      codedSymbols freqs := by
    rw [List.map_map, ← map_symbol_treeCodes]
    rfl
  have hcodes : Codes limit freqs.length
      ((treeCodes freqs).map fun c => { c with length := 1 }) := by
    refine ⟨by rw [hmap]; exact nodup_codedSymbols freqs, fun d hd => ?_, fun d hd => ?_,
      fun d hd => ?_⟩ <;> obtain ⟨c, hc, rfl⟩ := List.mem_map.mp hd
    · exact lt_of_mem_treeCodes (c := c) hc
    · exact Nat.one_pos
    · exact hlimit
  refine hcodes.suits ?_ hmap
  have hone : (treeCodes freqs).length = 0 ∨ (treeCodes freqs).length = 1 := by omega
  obtain h0 | h1 := hone
  · rw [List.length_eq_zero_iff.mp h0]
    exact Nat.zero_le _
  · obtain ⟨c, hc⟩ := List.length_eq_one_iff.mp h1
    rw [hc]
    simp only [shares, List.map_cons, List.map_nil, share_eq]
    exact Nat.pow_le_pow_right (by decide) (Nat.sub_le _ _)

theorem suits_buildLengths (hlimit : 0 < limit) (hn : freqs.length ≤ 2 ^ limit) :
    Suits (buildLengths freqs limit) freqs limit := by
  rw [buildLengths]
  split
  next hfew => exact suits_lone hlimit hfew
  next hmany =>
    have hpos {c : Coded} (hc : c ∈ treeCodes freqs) := pos_of_mem_treeCodes (by omega) hc
    have hlt {c : Coded} (hc : c ∈ treeCodes freqs) := lt_of_mem_treeCodes hc
    split
    next =>
      obtain ⟨hcodes, hshares, hmap⟩ := limitLengths_spec (nodup_treeCodes freqs)
        (fun c hc => hlt hc) (fun c hc => hpos hc) hlimit ((length_treeCodes_le freqs).trans hn)
      exact hcodes.suits hshares (hmap.trans (map_symbol_treeCodes freqs))
    next hfits =>
      have hle : ∀ c ∈ treeCodes freqs, c.length ≤ limit := by
        simpa only [List.any_eq_true, decide_eq_true_eq, not_exists, not_and,
          Nat.not_lt] using hfits
      exact (codes_treeCodes (by omega) hle).suits (shares_treeCodes hle (by omega)).le
        (map_symbol_treeCodes freqs)

theorem claimed_eq {lengths : List Nat} (h : ∀ l ∈ lengths, l ≤ limit) (hl : limit ≤ maxLength) :
    claimed lengths = 2 ^ (maxLength - limit) * spaceTaken limit lengths := by
  induction lengths with
  | nil => rfl
  | cons l lengths ih =>
    have hle := h l List.mem_cons_self
    have ih := ih fun x hx => h x (List.mem_cons_of_mem _ hx)
    rw [claimed, spaceTaken] at ih ⊢
    rw [List.map_cons, List.sum_cons, Nat.mul_add, ← ih]
    by_cases h0 : l = 0
    · rw [List.filter_cons_of_neg (by simp [h0]), if_pos h0, Nat.mul_zero, Nat.zero_add]
    · rw [List.filter_cons_of_pos (by simp; omega), if_neg h0, List.map_cons, List.sum_cons,
        ← Nat.pow_add]
      congr 3
      omega

theorem Suits.feasible {lengths : List Nat} (h : Suits lengths freqs limit)
    (hl : limit ≤ maxLength) : Feasible lengths := by
  refine ⟨fun l hm => Nat.le_trans (h.le l hm) hl, ?_⟩
  rw [claimed_eq h.le hl]
  calc 2 ^ (maxLength - limit) * spaceTaken limit lengths
      ≤ 2 ^ (maxLength - limit) * 2 ^ limit := Nat.mul_le_mul_left _ h.spaceTaken_le
    _ = 2 ^ maxLength := by rw [← Nat.pow_add, Nat.sub_add_cancel hl]

theorem Feasible.sublist {lengths shorter : List Nat} (h : Feasible lengths)
    (hs : shorter.Sublist lengths) : Feasible shorter := by
  refine ⟨fun l hl => h.1 l (hs.subset hl), Nat.le_trans ?_ h.2⟩
  exact List.Sublist.sum_le_sum ((hs.filter _).map _) fun _ _ => Nat.zero_le _

end Build

end Conduit.Huffman
