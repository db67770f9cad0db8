import Conduit.Proofs.Deflate.Weights
import Conduit.Proofs.Huffman.Prefixes
import Conduit.Proofs.Machine.Merging

namespace Conduit.Huffman

open Deflate (weighted weighted_cons weighted_map_map weighted_eq_sum_range exists_weighted_eq
  exists_longest_first)

section Space

variable {limit l k : Nat} {lengths moved : List Nat}

/-- Lengths, all within a limit, that together do not claim more than the whole code space. Nothing
else has room beside a code of no bits. -/
structure Affordable (limit : Nat) (lengths : List Nat) : Prop where
  le : ∀ l ∈ lengths, l ≤ limit
  space_le : (lengths.map fun l => 2 ^ (limit - l)).sum ≤ 2 ^ limit

theorem Affordable.perm (h : Affordable limit lengths) (hperm : moved.Perm lengths) :
    Affordable limit moved where
  le l hl := h.le l (hperm.subset hl)
  space_le := by
    rw [(hperm.map _).sum_eq]
    exact h.space_le

/-- The two longest codes give way to one that is shorter by a bit than the second of them. What the
second and the others leave free is a multiple of its share, and not nothing. -/
theorem Affordable.join (h : Affordable limit (l :: k :: lengths)) (hk : ∀ m ∈ lengths, m ≤ k) :
    0 < k ∧ Affordable limit ((k - 1) :: lengths) := by
  have hkl : k ≤ limit := h.le k (by simp)
  have hlong : 0 < 2 ^ (limit - l) := Nat.two_pow_pos _
  have hspace := h.space_le
  simp only [List.map_cons, List.sum_cons] at hspace
  have hothers : 2 ^ (limit - k) ∣ (lengths.map fun m => 2 ^ (limit - m)).sum := dvd_space hk
  have hdvd : 2 ^ (limit - k) ∣
      2 ^ limit - (2 ^ (limit - k) + (lengths.map fun m => 2 ^ (limit - m)).sum) :=
    Nat.dvd_sub (Nat.pow_dvd_pow 2 (Nat.sub_le limit k)) (Nat.dvd_add (Nat.dvd_refl _) hothers)
  have hfree := Nat.le_of_dvd (by omega) hdvd
  have hpos : 0 < k := by
    by_contra hzero
    rw [Nat.eq_zero_of_not_pos hzero, Nat.sub_zero] at hspace
    omega
  have hdouble : 2 ^ (limit - (k - 1)) = 2 * 2 ^ (limit - k) := by
    rw [← Nat.pow_succ']
    congr 1
    omega
  refine ⟨hpos, fun m hm => ?_, ?_⟩
  · obtain rfl | hm := List.mem_cons.mp hm
    · omega
    · exact h.le m (by simp [hm])
  · rw [List.map_cons, List.sum_cons, hdouble]
    omega

/-- Lengths for symbols of which two have been made one. With the longest lengths at the rarest
symbols, the two share theirs but for the last bit. -/
theorem exists_joined {a b : Nat} {weights : List Nat}
    (hrare : (a :: b :: weights).Pairwise (· ≤ ·))
    (hlen : lengths.length = weights.length + 2) (h : Affordable limit lengths) :
    ∃ shorter, shorter.length = weights.length + 1 ∧ Affordable limit shorter ∧
      weighted ((a + b) :: weights) shorter + (a + b) ≤ weighted (a :: b :: weights) lengths := by
  obtain ⟨- | ⟨l, - | ⟨k, others⟩⟩, hperm, hsorted, hle⟩ := exists_longest_first hrare hlen
  · simpa [hlen] using hperm.length_eq
  · simpa [hlen] using hperm.length_eq
  · obtain ⟨hl, hrest⟩ := List.pairwise_cons.mp hsorted
    obtain ⟨hk, -⟩ := List.pairwise_cons.mp hrest
    obtain ⟨hpos, hjoined⟩ := (h.perm hperm).join hk
    refine ⟨(k - 1) :: others, ?_, hjoined, ?_⟩
    · have hcount := hperm.length_eq
      simp only [List.length_cons] at hcount ⊢
      omega
    · have hkl : a * k ≤ a * l := Nat.mul_le_mul_left a (hl k (by simp))
      have hdown : (a + b) * (k - 1) + (a + b) = a * k + b * k := by
        rw [← Nat.mul_succ, Nat.succ_eq_add_one, Nat.sub_add_cancel hpos, Nat.add_mul]
      simp only [weighted_cons] at hle ⊢
      omega

theorem affordable_of_kraftSum (hpos : ∀ l ∈ lengths, 0 < l) (h : kraftSum lengths ≤ 1) :
    Affordable lengths.sum lengths := by
  have hle : ∀ l ∈ lengths, l ≤ lengths.sum := fun l hl =>
    List.single_le_sum (fun _ _ => Nat.zero_le _) l hl
  have hspace : (lengths.map fun l => 2 ^ (lengths.sum - l)).sum =
      spaceTaken lengths.sum lengths := by
    rw [spaceTaken]
    congr 1
    apply List.map_congr_left
    intro l hl
    rw [if_neg (Nat.ne_of_gt (hpos l hl))]
  refine ⟨hle, ?_⟩
  have hmul := kraftSum_mul hle
  have hscaled : kraftSum lengths * 2 ^ lengths.sum ≤ 1 * 2 ^ lengths.sum :=
    mul_le_mul_of_nonneg_right h (pow_nonneg zero_le_two _)
  rw [hmul, one_mul] at hscaled
  rw [hspace]
  exact_mod_cast hscaled

end Space

section Cost

def Tree.weight (freq : Nat → Nat) : Tree → Nat
  | .leaf symbol => freq symbol
  | .node left right => left.weight freq + right.weight freq

/-- The bits that the symbols of a tree take, its root being at the given depth. -/
def Tree.cost (freq : Nat → Nat) (t : Tree) (depth : Nat) : Nat :=
  ((t.depths depth).map fun p => freq p.1 * p.2).sum

@[simp]
theorem cost_leaf (freq : Nat → Nat) (symbol depth : Nat) :
    (Tree.leaf symbol).cost freq depth = freq symbol * depth := by
  simp [Tree.cost, Tree.depths]

theorem cost_node (freq : Nat → Nat) (left right : Tree) (depth : Nat) :
    (Tree.node left right).cost freq depth =
      left.cost freq (depth + 1) + right.cost freq (depth + 1) := by
  simp [Tree.cost, Tree.depths]

theorem cost_succ (freq : Nat → Nat) (t : Tree) (depth : Nat) :
    t.cost freq (depth + 1) = t.cost freq depth + t.weight freq := by
  induction t generalizing depth with
  | leaf symbol => simp [Tree.weight, Nat.mul_succ]
  | node left right ihl ihr =>
    simp only [cost_node, ihl, ihr, Tree.weight]
    omega

end Cost

section Queue

variable {freq : Nat → Nat} {queue : List Waiting} {w t : Waiting}

structure Queued (freq : Nat → Nat) (queue : List Waiting) : Prop where
  sorted : queue.Pairwise fun a b => a.weight ≤ b.weight
  weight_eq : ∀ w ∈ queue, w.weight = w.tree.weight freq

theorem Queued.of_cons (h : Queued freq (w :: queue)) : Queued freq queue where
  sorted := h.sorted.of_cons
  weight_eq v hv := h.weight_eq v (List.mem_cons_of_mem w hv)

theorem sorted_enqueue (h : queue.Pairwise fun a b => a.weight ≤ b.weight) :
    (enqueue t queue).Pairwise fun a b => a.weight ≤ b.weight := by
  induction queue with
  | nil => exact List.pairwise_singleton _ t
  | cons q queue ih =>
    obtain ⟨hq, hqueue⟩ := List.pairwise_cons.mp h
    rw [enqueue]
    split
    next hbefore =>
      have hle : t.weight ≤ q.weight := by
        simp [Waiting.before] at hbefore
        omega
      refine h.cons fun v hv => ?_
      obtain rfl | hv := List.mem_cons.mp hv
      · exact hle
      · exact hle.trans (hq v hv)
    next hbehind =>
      have hle : q.weight ≤ t.weight := by
        simp [Waiting.before] at hbehind
        omega
      refine (ih hqueue).cons fun v hv => ?_
      obtain rfl | hv := List.mem_cons.mp ((perm_enqueue t queue).subset hv)
      · exact hle
      · exact hq v hv

theorem Queued.enqueue (h : Queued freq queue) (ht : t.weight = t.tree.weight freq) :
    Queued freq (enqueue t queue) where
  sorted := sorted_enqueue h.sorted
  weight_eq := by
    intro w hw
    obtain rfl | hw := List.mem_cons.mp ((perm_enqueue t queue).subset hw)
    · exact ht
    · exact h.weight_eq w hw

/-- The merged tree is as good as any way to hand out lengths to the trees that wait. In the best
way the two lightest are the deepest, and may as well be merged: what they cost then is one bit of
their weight less, and the rest is left to a queue that is shorter by one. -/
theorem cost_merge_le {rank limit : Nat} {merged : Tree} {lengths : List Nat}
    (h : merge queue rank = some merged) (hq : Queued freq queue)
    (hlen : lengths.length = queue.length) (hroom : Affordable limit lengths) :
    merged.cost freq 0 ≤
      (queue.map fun w => w.tree.cost freq 0).sum + weighted (queue.map Waiting.weight) lengths := by
  fun_induction merge queue rank generalizing lengths with
  | case1 => simp at h
  | case2 rank w =>
    obtain rfl : w.tree = merged := by simpa using h
    simp
  | case3 rank a b rest ih =>
    have hweights : (enqueue ⟨a.weight + b.weight, rank, .node a.tree b.tree⟩ rest).Perm
        (⟨a.weight + b.weight, rank, .node a.tree b.tree⟩ :: rest) := perm_enqueue _ _
    have ha : a.weight = a.tree.weight freq := hq.weight_eq a (by simp)
    have hb : b.weight = b.tree.weight freq := hq.weight_eq b (by simp)
    have hrare : (a.weight :: b.weight :: rest.map Waiting.weight).Pairwise (· ≤ ·) :=
      List.pairwise_map.mpr hq.sorted
    obtain ⟨shorter, hshort, hjoined, hle⟩ := exists_joined hrare (by simpa using hlen) hroom
    obtain ⟨moved, hmoved, heq⟩ :=
      exists_weighted_eq (hweights.map Waiting.weight).symm (by simpa using hshort)
    have hqueued : Queued freq (enqueue ⟨a.weight + b.weight, rank, .node a.tree b.tree⟩ rest) :=
      hq.of_cons.of_cons.enqueue (by simp only [Tree.weight, ha, hb])
    have ih := ih h hqueued (by rw [hmoved.length_eq, hshort, length_enqueue, List.length_map])
      (hjoined.perm hmoved)
    rw [heq, (hweights.map _).sum_eq] at ih
    simp only [List.map_cons, List.sum_cons, cost_node, cost_succ] at ih ⊢
    omega

end Queue

section Leaves

variable {freqs : List Nat} {s : Nat}

theorem nodup_occurring (freqs : List Nat) : (occurring freqs).Nodup :=
  nodup_filterMap_zipIdx _ _

theorem mem_occurring : s ∈ occurring freqs ↔ 0 < freqs.getD s 0 := by
  rw [occurring, mem_filterMap_zipIdx, List.getD_eq_getElem?_getD]
  cases freqs[s]? <;> simp

theorem perm_occurring (htwo : 2 ≤ freqs.countP (0 < ·)) :
    (codedSymbols freqs).Perm (occurring freqs) := by
  have hperm := perm_codedSymbols freqs
  rw [List.countP_eq_length_filter] at htwo
  rwa [fillers, Nat.sub_eq_zero_of_le htwo, List.take_zero, List.append_nil] at hperm

theorem sorted_leaves (freqs : List Nat) :
    (leaves freqs).Pairwise fun a b => a.weight ≤ b.weight := by
  rw [leaves]
  exact List.foldlRecOn _ _ List.Pairwise.nil fun _ hqueue _ _ => sorted_enqueue hqueue

theorem exists_of_mem_leaves {w : Waiting} (hw : w ∈ leaves freqs) :
    ∃ s rank, s ∈ codedSymbols freqs ∧ w = leafOf freqs (s, rank) := by
  obtain ⟨⟨s, rank⟩, hp, rfl⟩ := List.mem_map.mp ((perm_leaves freqs).subset hw)
  exact ⟨s, rank, (List.mem_zipIdx' hp).2 ▸ List.getElem_mem _, rfl⟩

theorem queued_leaves (htwo : 2 ≤ freqs.countP (0 < ·)) :
    Queued (fun s => freqs.getD s 0) (leaves freqs) where
  sorted := sorted_leaves freqs
  weight_eq := by
    intro w hw
    obtain ⟨s, rank, hs, rfl⟩ := exists_of_mem_leaves hw
    exact Nat.max_eq_left (mem_occurring.mp ((perm_occurring htwo).subset hs))

theorem perm_weights (htwo : 2 ≤ freqs.countP (0 < ·)) :
    ((leaves freqs).map Waiting.weight).Perm ((occurring freqs).map fun s => freqs.getD s 0) := by
  have hcoded : ((codedSymbols freqs).zipIdx.map (leafOf freqs)).map Waiting.weight =
      (codedSymbols freqs).map fun s => max (freqs.getD s 0) 1 := by
    conv_rhs => rw [← List.zipIdx_map_fst 0 (codedSymbols freqs)]
    rw [List.map_map, List.map_map]
    rfl
  have hoccurring : ((occurring freqs).map fun s => max (freqs.getD s 0) 1) =
      (occurring freqs).map fun s => freqs.getD s 0 :=
    List.map_congr_left fun s hs => Nat.max_eq_left (mem_occurring.mp hs)
  have hperm := (perm_leaves freqs).map Waiting.weight
  rw [hcoded] at hperm
  rw [← hoccurring]
  exact hperm.trans ((perm_occurring htwo).map _)

theorem sum_cost_leaves (freqs : List Nat) (freq : Nat → Nat) :
    ((leaves freqs).map fun w => w.tree.cost freq 0).sum = 0 := by
  apply List.sum_eq_zero
  intro x hx
  obtain ⟨w, hw, rfl⟩ := List.mem_map.mp hx
  obtain ⟨s, rank, -, rfl⟩ := exists_of_mem_leaves hw
  exact cost_leaf freq s 0

theorem cost_tree_le {t : Tree} (ht : tree? freqs = some t) (htwo : 2 ≤ freqs.countP (0 < ·))
    {other : Nat → Nat} (hpos : ∀ s ∈ occurring freqs, 0 < other s)
    (hkraft : kraftSum ((occurring freqs).map other) ≤ 1) :
    t.cost (fun s => freqs.getD s 0) 0 ≤
      ((occurring freqs).map fun s => freqs.getD s 0 * other s).sum := by
  have hroom := affordable_of_kraftSum (List.forall_mem_map.mpr hpos) hkraft
  have hsame : ((occurring freqs).map other).length =
      ((occurring freqs).map fun s => freqs.getD s 0).length := by simp
  obtain ⟨moved, hmoved, heq⟩ := exists_weighted_eq (perm_weights htwo).symm hsame
  have hcount : moved.length = (leaves freqs).length := by
    rw [hmoved.length_eq, List.length_map, ← List.length_map Waiting.weight,
      (perm_weights htwo).length_eq, List.length_map]
  have hle := cost_merge_le ht (queued_leaves htwo) hcount (hroom.perm hmoved)
  rwa [sum_cost_leaves, Nat.zero_add, heq, weighted_map_map] at hle

end Leaves

section Built

variable {freqs : List Nat} {limit : Nat}

theorem weighted_eq_sum_occurring (freqs lengths : List Nat) :
    weighted freqs lengths =
      ((occurring freqs).map fun s => freqs.getD s 0 * lengths.getD s 0).sum := by
  rw [weighted_eq_sum_range, ← List.sum_toFinset _ List.nodup_range,
    ← List.sum_toFinset _ (nodup_occurring freqs)]
  symm
  apply Finset.sum_subset
  · intro s hs
    rw [List.mem_toFinset, mem_occurring] at hs
    by_contra hout
    rw [List.mem_toFinset, List.mem_range, Nat.not_lt] at hout
    simp [List.getElem?_eq_none hout] at hs
  · intro s _ hs
    rw [List.mem_toFinset, mem_occurring] at hs
    rw [Nat.eq_zero_of_not_pos hs, Nat.zero_mul]

theorem weighted_scatter {t : Tree} (ht : tree? freqs = some t)
    (hcodes : Codes limit freqs.length (treeCodes freqs)) (htwo : 2 ≤ freqs.countP (0 < ·)) :
    weighted freqs (scatter freqs.length (treeCodes freqs)) =
      t.cost (fun s => freqs.getD s 0) 0 := by
  have hsymbols : (occurring freqs).Perm ((t.depths 0).map Prod.fst) := by
    rw [map_fst_depths]
    exact (perm_occurring htwo).symm.trans (perm_symbols ht).symm
  rw [weighted_eq_sum_occurring, (hsymbols.map _).sum_eq, List.map_map, Tree.cost]
  congr 1
  apply List.map_congr_left
  intro p hp
  have hcode : ⟨p.1, freqs.getD p.1 0, p.2⟩ ∈ treeCodes freqs := by
    rw [treeCodes_eq ht, ← depthIn_eq ht hp]
    exact List.mem_map_of_mem (coded_of_mem_depths ht hp)
  simp only [Function.comp, hcodes.getD_scatter hcode]

end Built

section Optimal

variable {freqs : List Nat} {limit : Nat}

/-- Lengths with which the symbols of a block take no more bits than with any others that a code can
have, or in any code of which no word begins with another. -/
structure Optimal (lengths freqs : List Nat) : Prop where
  le_lengths : ∀ other : Nat → Nat, (∀ s ∈ occurring freqs, 0 < other s) →
    kraftSum ((occurring freqs).map other) ≤ 1 →
    weighted freqs lengths ≤ ((occurring freqs).map fun s => freqs.getD s 0 * other s).sum
  le_code : ∀ code : Nat → List Bool, PrefixFree (occurring freqs) code →
    weighted freqs lengths ≤
      ((occurring freqs).map fun s => freqs.getD s 0 * (code s).length).sum

theorem optimal_scatter (hcodes : Codes limit freqs.length (treeCodes freqs))
    (htwo : 2 ≤ freqs.countP (0 < ·)) :
    Optimal (scatter freqs.length (treeCodes freqs)) freqs := by
  have hne : codedSymbols freqs ≠ [] := by
    intro hnone
    have hcount := (perm_occurring htwo).length_eq
    rw [hnone, length_occurring, List.length_nil] at hcount
    omega
  obtain ⟨t, ht⟩ := exists_tree hne
  have hlengths (other : Nat → Nat) (hpos : ∀ s ∈ occurring freqs, 0 < other s)
      (hkraft : kraftSum ((occurring freqs).map other) ≤ 1) :
      weighted freqs (scatter freqs.length (treeCodes freqs)) ≤
        ((occurring freqs).map fun s => freqs.getD s 0 * other s).sum := by
    rw [weighted_scatter ht hcodes htwo]
    exact cost_tree_le ht htwo hpos hkraft
  refine ⟨hlengths, fun code hcode => hlengths (fun s => (code s).length) (fun s hs => ?_) ?_⟩
  · exact List.length_pos_iff.mpr
      (hcode.ne_nil (nodup_occurring freqs) (length_occurring freqs ▸ htwo) hs)
  · exact hcode.kraftSum_le (nodup_occurring freqs) (length_occurring freqs ▸ htwo)

/-- If the tree is nowhere deeper than the limit allows, the lengths are those of its leaves, as the
machine finds them too. They are those of a complete code, and nothing else takes fewer bits. -/
theorem built_lengths_optimal (htwo : 2 ≤ freqs.countP (0 < ·)) (hlimit : limit ≤ 15)
    (hdeep : ∀ c ∈ treeCodes freqs, c.length ≤ limit) :
    ∃ lengths, buildLengths? freqs limit = some lengths ∧
      Machine.Forest.lengths? freqs = some lengths.toArray ∧
      Complete lengths freqs limit ∧ Optimal lengths freqs := by
  have hsize : 2 ≤ freqs.length := htwo.trans List.countP_le_length
  have hcount : 2 ≤ (codedSymbols freqs).length := length_codedSymbols hsize ▸ Nat.le_max_left _ _
  have hmany : 2 ≤ (treeCodes freqs).length := by
    rwa [← List.length_map (f := Coded.symbol), map_symbol_treeCodes]
  have hcodes := codes_treeCodes hmany hdeep
  have hfits : ((treeCodes freqs).any fun c => limit < c.length) = false := by
    simpa using hdeep
  have hbuilt : buildLengths? freqs limit = some (scatter freqs.length (treeCodes freqs)) := by
    simp [buildLengths?, buildLengths, hfits, Nat.not_lt.mpr hmany]
  have hbytes : ((treeCodes freqs).map fun c => { c with length := min c.length 255 }) =
      treeCodes freqs := by
    conv_rhs => rw [← List.map_id (treeCodes freqs)]
    apply List.map_congr_left
    intro c hc
    have hle := hdeep c hc
    rw [Nat.min_eq_left (by omega), id]
  refine ⟨_, hbuilt, ?_, ?_, optimal_scatter hcodes htwo⟩
  · rw [Machine.Forest.lengths?_eq (by omega), hbytes]
  · exact hcodes.complete (shares_treeCodes hdeep (by omega)) (map_symbol_treeCodes freqs) hsize

/-- Six symbols of eight, one of them nearly as frequent as the others together. -/
theorem built_lengths_optimal_of_six :
    2 ≤ List.countP (0 < ·) [45, 0, 13, 12, 16, 9, 5, 0] ∧
      (∀ c ∈ treeCodes [45, 0, 13, 12, 16, 9, 5, 0], c.length ≤ 4) ∧
      ∃ lengths, buildLengths? [45, 0, 13, 12, 16, 9, 5, 0] 4 = some lengths ∧
        Machine.Forest.lengths? [45, 0, 13, 12, 16, 9, 5, 0] = some lengths.toArray ∧
        Complete lengths [45, 0, 13, 12, 16, 9, 5, 0] 4 ∧
        Optimal lengths [45, 0, 13, 12, 16, 9, 5, 0] :=
  have hdeep : ∀ c ∈ treeCodes [45, 0, 13, 12, 16, 9, 5, 0], c.length ≤ 4 := by decide +kernel
  ⟨by decide, hdeep, built_lengths_optimal (by decide) (by decide) hdeep⟩

end Optimal

end Conduit.Huffman
