import Conduit.Proofs.Huffman.Lengths
import Conduit.Proofs.Machine.Checked

namespace Conduit.Machine.Forest

open Huffman

/-- Puts a weight and the number of its tree into a heap, which gives out the lightest first and of
two equally light ones the older. -/
def push (entry : Nat × Nat) : List (Nat × Nat) → List (Nat × Nat)
  | [] => [entry]
  | e :: heap =>
    if entry.1 < e.1 || (entry.1 == e.1 && entry.2 < e.2) then entry :: e :: heap
    else e :: push entry heap

theorem length_push (entry : Nat × Nat) (heap : List (Nat × Nat)) :
    (push entry heap).length = heap.length + 1 := by
  induction heap with
  | nil => rfl
  | cons e heap ih => grind [push]

/-- Merges the two lightest trees until one is left, and gives the number that the next would have
had. A tree without a mark is part of no other. -/
def merge? (parent : Array (Option Nat)) (next : Nat) (heap : List (Nat × Nat)) :
    Option (Array (Option Nat) × Nat) :=
  match heap with
  | a :: b :: rest => do
    let parent ← put? parent a.2 (some next)
    let parent ← put? parent b.2 (some next)
    merge? parent (next + 1) (push (a.1 + b.1, next) rest)
  | _ => some (parent, next)
termination_by heap.length
decreasing_by simp [length_push]

/-- Finds the depths of the nodes below `node` from those of the nodes above. -/
def deepen? (parent : Array (Option Nat)) : (node : Nat) → Array Nat → Option (Array Nat)
  | 0, depth => some depth
  | node + 1, depth => do
    let above ← (parent[node]?).join
    deepen? parent node (← put? depth node ((← depth[above]?) + 1))

def assign? (depth : Array Nat) : List (Nat × Nat) → Array Nat → Option (Array Nat)
  | [], lengths => some lengths
  | (symbol, leaf) :: rest, lengths => do
    assign? depth rest (← put? lengths symbol (min (← depth[leaf]?) 255))

/-- The lengths that symbols with these frequencies get before any is cut to a limit. There are two
of them or more. -/
def lengths? (freqs : List Nat) : Option (Array Nat) := do
  let used := codedSymbols freqs
  let heap := used.zipIdx.foldl (fun heap (s, leaf) => push (max (freqs.getD s 0) 1, leaf) heap) []
  let (parent, next) ← merge? (Array.replicate (2 * used.length - 1) none) used.length heap
  let depth ← deepen? parent (← sub? next 1) (Array.replicate (2 * used.length - 1) 0)
  assign? depth used.zipIdx (Array.replicate freqs.length 0)

section Path

variable {parent : Array (Option Nat)} {i j k n steps : Nat}

inductive Path (parent : Array (Option Nat)) : (i steps j : Nat) → Prop
  | here (i : Nat) : Path parent i 0 i
  | up {i above steps j : Nat} (hmark : parent[i]? = some (some above))
      (hpath : Path parent above steps j) : Path parent i (steps + 1) j

theorem Path.concat (h : Path parent i steps j) (hmark : parent[j]? = some (some k)) :
    Path parent i (steps + 1) k := by
  induction h with
  | here i => exact .up hmark (.here k)
  | up hfirst _ ih => exact .up hfirst (ih hmark)

theorem Path.mark (h : Path parent i steps j) (hnone : parent[n]? = some none) (x : Option Nat) :
    Path (parent.setIfInBounds n x) i steps j := by
  induction h with
  | here i => exact .here i
  | up hmark _ ih =>
    refine .up ?_ ih
    rw [Array.getElem?_setIfInBounds_ne, hmark]
    rintro rfl
    simp [hnone] at hmark

end Path

section Join

variable {parent : Array (Option Nat)} {a b i j next steps : Nat}

def join (parent : Array (Option Nat)) (a b next : Nat) : Array (Option Nat) :=
  (parent.setIfInBounds a (some next)).setIfInBounds b (some next)

@[simp]
theorem size_join (parent : Array (Option Nat)) (a b next : Nat) :
    (join parent a b next).size = parent.size := by
  simp [join]

theorem getElem?_join_left (hab : a ≠ b) (ha : a < parent.size) :
    (join parent a b next)[a]? = some (some next) := by
  rw [join, Array.getElem?_setIfInBounds_ne hab.symm, Array.getElem?_setIfInBounds_self_of_lt ha]

theorem getElem?_join_right (hb : b < parent.size) :
    (join parent a b next)[b]? = some (some next) := by
  apply Array.getElem?_setIfInBounds_self_of_lt
  rwa [Array.size_setIfInBounds]

theorem getElem?_join_of_ne (ha : i ≠ a) (hb : i ≠ b) :
    (join parent a b next)[i]? = parent[i]? := by
  rw [join, Array.getElem?_setIfInBounds_ne hb.symm, Array.getElem?_setIfInBounds_ne ha.symm]

theorem Path.join (h : Path parent i steps j) (hab : a ≠ b) (ha : parent[a]? = some none)
    (hb : parent[b]? = some none) : Path (join parent a b next) i steps j := by
  refine (h.mark ha _).mark ?_ _
  rwa [Array.getElem?_setIfInBounds_ne hab]

end Join

section Merge

variable {used : List Nat} {parent : Array (Option Nat)} {next : Nat} {queue other : List Waiting}

/-- What is marked while trees wait: the numbers below `next` are taken, those of the waiting trees
and the ones behind are without a mark, and from the leaf of every symbol a way leads up to its
tree. -/
structure Marked (used : List Nat) (parent : Array (Option Nat)) (next : Nat)
    (queue : List Waiting) : Prop where
  size_eq : next + queue.length = parent.size + 1
  nodup : (queue.map Waiting.rank).Nodup
  lt : ∀ w ∈ queue, w.rank < next
  unmarked : ∀ i < parent.size, next ≤ i ∨ i ∈ queue.map Waiting.rank → parent[i]? = some none
  marked : ∀ i < next, i ∉ queue.map Waiting.rank →
    ∃ above, parent[i]? = some (some above) ∧ i < above ∧ above < next
  path : ∀ w ∈ queue, ∀ p ∈ w.tree.depths 0,
    ∃ leaf, used[leaf]? = some p.1 ∧ Path parent leaf p.2 w.rank

theorem Marked.perm (h : Marked used parent next queue) (hperm : other.Perm queue) :
    Marked used parent next other := by
  have hranks := hperm.map Waiting.rank
  refine ⟨hperm.length_eq ▸ h.size_eq, hranks.nodup_iff.mpr h.nodup,
    fun w hw => h.lt w (hperm.subset hw), fun i hi hfree => h.unmarked i hi ?_,
    fun i hi hnot => h.marked i hi ?_, fun w hw => h.path w (hperm.subset hw)⟩
  · rwa [← hranks.mem_iff]
  · rwa [← hranks.mem_iff]

theorem Marked.lt_size (h : Marked used parent next queue) {w : Waiting} (hw : w ∈ queue) :
    w.rank < parent.size := by
  have hlt := h.lt w hw
  have hsize := h.size_eq
  have hpos := List.length_pos_of_mem hw
  omega

theorem Marked.unmarked_of_mem (h : Marked used parent next queue) {w : Waiting} (hw : w ∈ queue) :
    parent[w.rank]? = some none :=
  h.unmarked _ (h.lt_size hw) (.inr (List.mem_map_of_mem hw))

section Two

variable {a b : Waiting}

theorem Marked.apart (h : Marked used parent next (a :: b :: queue)) :
    a.rank ≠ b.rank ∧ a.rank ∉ queue.map Waiting.rank ∧ b.rank ∉ queue.map Waiting.rank ∧
      (queue.map Waiting.rank).Nodup := by
  have hnodup := h.nodup
  simp only [List.map_cons, List.nodup_cons, List.mem_cons, not_or] at hnodup
  obtain ⟨⟨hab, ha⟩, hb, hqueue⟩ := hnodup
  exact ⟨hab, ha, hb, hqueue⟩

/-- The ways up to the trees that wait stay as they are. -/
theorem Marked.path_join (h : Marked used parent next (a :: b :: queue)) {w : Waiting}
    (hw : w ∈ a :: b :: queue) {p : Nat × Nat} (hp : p ∈ w.tree.depths 0) :
    ∃ leaf, used[leaf]? = some p.1 ∧ Path (join parent a.rank b.rank next) leaf p.2 w.rank := by
  obtain ⟨leaf, hused, hpath⟩ := h.path w hw p hp
  have ha : parent[a.rank]? = some none := h.unmarked_of_mem (by simp)
  have hb : parent[b.rank]? = some none := h.unmarked_of_mem (by simp)
  exact ⟨leaf, hused, hpath.join h.apart.1 ha hb⟩

theorem Marked.path_node (h : Marked used parent next (a :: b :: queue)) {p : Nat × Nat}
    (hp : p ∈ (Huffman.Tree.node a.tree b.tree).depths 0) :
    ∃ leaf, used[leaf]? = some p.1 ∧ Path (join parent a.rank b.rank next) leaf p.2 next := by
  have ha : a ∈ a :: b :: queue := by simp
  have hb : b ∈ a :: b :: queue := by simp
  simp only [Huffman.Tree.depths, List.mem_append, depths_succ, List.mem_map] at hp
  obtain ⟨q, hq, rfl⟩ | ⟨q, hq, rfl⟩ := hp
  · obtain ⟨leaf, hused, hpath⟩ := h.path_join ha hq
    exact ⟨leaf, hused, hpath.concat (getElem?_join_left h.apart.1 (h.lt_size ha))⟩
  · obtain ⟨leaf, hused, hpath⟩ := h.path_join hb hq
    exact ⟨leaf, hused, hpath.concat (getElem?_join_right (h.lt_size hb))⟩

theorem Marked.join (h : Marked used parent next (a :: b :: queue)) :
    Marked used (join parent a.rank b.rank next) (next + 1)
      (⟨a.weight + b.weight, next, .node a.tree b.tree⟩ :: queue) := by
  obtain ⟨hab, hafree, hbfree, hranks⟩ := h.apart
  have ha : a ∈ a :: b :: queue := by simp
  have hb : b ∈ a :: b :: queue := by simp
  have halt := h.lt a ha
  have hblt := h.lt b hb
  have hlt : ∀ i ∈ queue.map Waiting.rank, i < next :=
    List.forall_mem_map.mpr fun w hw => h.lt w (by simp [hw])
  refine ⟨?_, ?_, ?_, ?_, ?_, ?_⟩
  · have hsize := h.size_eq
    simp only [size_join, List.length_cons] at hsize ⊢
    omega
  · rw [List.map_cons, List.nodup_cons]
    exact ⟨fun hmem => Nat.lt_irrefl next (hlt next hmem), hranks⟩
  · refine List.forall_mem_cons.mpr ⟨Nat.lt_succ_self next, fun w hw => ?_⟩
    exact Nat.lt_succ_of_lt (hlt _ (List.mem_map_of_mem hw))
  · intro i hi hfree
    have hold : i ≠ a.rank ∧ i ≠ b.rank ∧ (next ≤ i ∨ i ∈ queue.map Waiting.rank) := by
      simp only [List.map_cons, List.mem_cons] at hfree
      obtain hbehind | rfl | hmem := hfree
      · omega
      · omega
      · exact ⟨fun he => hafree (he ▸ hmem), fun he => hbfree (he ▸ hmem), .inr hmem⟩
    obtain ⟨hia, hib, hfree⟩ := hold
    rw [getElem?_join_of_ne hia hib]
    refine h.unmarked i (by simpa using hi) (hfree.imp_right fun hmem => ?_)
    simp [hmem]
  · intro i hi hmem
    simp only [List.map_cons, List.mem_cons, not_or] at hmem
    by_cases hia : i = a.rank
    · subst hia
      exact ⟨next, getElem?_join_left hab (h.lt_size ha), halt, Nat.lt_succ_self next⟩
    · by_cases hib : i = b.rank
      · subst hib
        exact ⟨next, getElem?_join_right (h.lt_size hb), hblt, Nat.lt_succ_self next⟩
      · rw [getElem?_join_of_ne hia hib]
        obtain ⟨above, hmark, hup, hbelow⟩ := h.marked i (by omega) (by simp [hia, hib, hmem.2])
        exact ⟨above, hmark, hup, Nat.lt_succ_of_lt hbelow⟩
  · exact List.forall_mem_cons.mpr
      ⟨fun _ hp => h.path_node hp, fun _ hw _ hp => h.path_join (by simp [hw]) hp⟩

end Two

def entry (w : Waiting) : Nat × Nat :=
  (w.weight, w.rank)

theorem map_entry_enqueue (w : Waiting) (queue : List Waiting) :
    (enqueue w queue).map entry = push (entry w) (queue.map entry) := by
  induction queue with
  | nil => rfl
  | cons q queue ih =>
    rw [enqueue, List.map_cons, push]
    by_cases hbefore : w.before q = true
    · rw [if_pos hbefore]
      exact (if_pos hbefore).symm
    · rw [if_neg hbefore, List.map_cons, ih]
      exact (if_neg hbefore).symm

/-- The machine comes to an end with one tree, which has the last of the numbers. -/
theorem exists_merge? {t : Huffman.Tree} (h : Marked used parent next queue)
    (ht : merge queue next = some t) :
    ∃ marks root, merge? parent next (queue.map entry) = some (marks, root + 1) ∧
      marks.size = parent.size ∧ ∃ weight, Marked used marks (root + 1) [⟨weight, root, t⟩] := by
  fun_induction merge queue next generalizing parent with
  | case1 => simp at ht
  | case2 next w =>
    obtain rfl : w.tree = t := by simpa using ht
    have hlt := h.lt w (by simp)
    have hlast : next = w.rank + 1 := by
      by_contra hne
      obtain ⟨above, -, hup, hbelow⟩ := h.marked (next - 1) (by omega) (by simp; omega)
      omega
    rw [hlast] at h ⊢
    exact ⟨parent, w.rank, by simp [merge?], rfl, w.weight, h⟩
  | case3 next a b rest ih =>
    have hjoined := h.join.perm (perm_enqueue _ rest)
    obtain ⟨marks, root, hmerge, hsize, hroot⟩ := ih hjoined ht
    refine ⟨marks, root, ?_, by simpa using hsize, hroot⟩
    have hb : b.rank < (parent.setIfInBounds a.rank (some next)).size := by
      simpa using h.lt_size (w := b) (by simp)
    rw [map_entry_enqueue] at hmerge
    rw [List.map_cons, List.map_cons, merge?]
    simp only [entry, put?_of_lt _ (h.lt_size (w := a) (by simp)), put?_of_lt _ hb,
      Option.bind_eq_bind, Option.bind_some]
    exact hmerge

end Merge

section Deepen

variable {parent : Array (Option Nat)} {depth : Array Nat} {root node : Nat}

def Deep (parent : Array (Option Nat)) (root node : Nat) (depth : Array Nat) : Prop :=
  ∀ i, node ≤ i → i ≤ root → ∀ steps, Path parent i steps root → depth[i]? = some steps

theorem deep_root (hroot : parent[root]? = some none) (hdepth : depth[root]? = some 0) :
    Deep parent root root depth := by
  intro i hle hge steps hpath
  obtain rfl : i = root := Nat.le_antisymm hge hle
  cases hpath with
  | here => exact hdepth
  | up hmark _ => simp [hroot] at hmark

/-- A way up passes only nodes whose depths are there already. -/
theorem exists_deepen? (hmarked : ∀ i < root, ∃ above, parent[i]? = some (some above) ∧ i < above ∧
    above ≤ root) (hsize : root < depth.size) (hnode : node ≤ root)
    (h : Deep parent root node depth) :
    ∃ depths, deepen? parent node depth = some depths ∧ Deep parent root 0 depths := by
  induction node generalizing depth with
  | zero => exact ⟨depth, rfl, h⟩
  | succ node ih =>
    obtain ⟨above, hmark, hup, hle⟩ := hmarked node hnode
    have habove : above < depth.size := Nat.lt_of_le_of_lt hle hsize
    have hdeep : Deep parent root node (depth.setIfInBounds node (depth[above] + 1)) := by
      intro i hlow hhigh steps hpath
      by_cases hi : i = node
      · subst hi
        cases hpath with
        | here => exact absurd hnode (Nat.lt_irrefl _)
        | up hfirst hpath =>
          rw [hmark] at hfirst
          cases hfirst
          have hsteps := h above hup hle _ hpath
          rw [Array.getElem?_eq_getElem habove, Option.some.injEq] at hsteps
          rw [Array.getElem?_setIfInBounds_self_of_lt (by omega), hsteps]
      · rw [Array.getElem?_setIfInBounds_ne (Ne.symm hi)]
        exact h i (by omega) hhigh steps hpath
    obtain ⟨depths, hrest, hdepths⟩ :=
      ih (by simpa using hsize) (Nat.le_of_succ_le hnode) hdeep
    refine ⟨depths, ?_, hdepths⟩
    rw [deepen?]
    simp only [hmark, Array.getElem?_eq_getElem habove, Option.join_some, Option.bind_eq_bind,
      Option.bind_some, put?_of_lt (depth[above] + 1) (show node < depth.size by omega)]
    exact hrest

theorem assign?_eq {f : Nat → Nat} {leaves : List (Nat × Nat)} {lengths : Array Nat}
    (hdepth : ∀ p ∈ leaves, depth[p.2]? = some (f p.1)) (hlt : ∀ p ∈ leaves, p.1 < lengths.size) :
    assign? depth leaves lengths =
      some (place (leaves.map fun p => (p.1, min (f p.1) 255)) lengths) := by
  induction leaves generalizing lengths with
  | nil => rfl
  | cons p leaves ih =>
    rw [List.forall_mem_cons] at hdepth hlt
    rw [assign?, List.map_cons, place_cons, hdepth.1]
    simp only [Option.bind_eq_bind, Option.bind_some, put?_of_lt _ hlt.1]
    exact ih hdepth.2 (by simpa using hlt.2)

end Deepen

section Build

variable {freqs : List Nat}

theorem marked_leaves (hpos : 0 < (codedSymbols freqs).length) :
    Marked (codedSymbols freqs) (Array.replicate (2 * (codedSymbols freqs).length - 1) none)
      (codedSymbols freqs).length (leaves freqs) := by
  have hranks : ((codedSymbols freqs).zipIdx.map (leafOf freqs)).map Waiting.rank =
      List.range (codedSymbols freqs).length := by
    rw [List.map_map, List.range_eq_range', ← List.zipIdx_map_snd]
    rfl
  have hlt : ∀ w ∈ (codedSymbols freqs).zipIdx.map (leafOf freqs),
      w.rank < (codedSymbols freqs).length := by
    intro w hw
    rw [← List.mem_range, ← hranks]
    exact List.mem_map_of_mem hw
  refine Marked.perm ⟨?_, ?_, hlt, ?_, ?_, ?_⟩ (perm_leaves freqs)
  · rw [List.length_map, List.length_zipIdx, Array.size_replicate]
    omega
  · rw [hranks]
    exact List.nodup_range
  · intro i hi _
    rw [Array.size_replicate] at hi
    rw [Array.getElem?_replicate, if_pos hi]
  · intro i hi hnot
    rw [hranks, List.mem_range] at hnot
    exact absurd hi hnot
  · intro w hw p hp
    obtain ⟨⟨s, leaf⟩, hleaf, rfl⟩ := List.mem_map.mp hw
    simp only [leafOf, Tree.depths, List.mem_singleton] at hp
    subst hp
    exact ⟨leaf, List.mk_mem_zipIdx_iff_getElem?.mp hleaf, .here leaf⟩

theorem map_entry_leaves (freqs : List Nat) :
    (leaves freqs).map entry = (codedSymbols freqs).zipIdx.foldl
      (fun heap (s, leaf) => push (max (freqs.getD s 0) 1, leaf) heap) [] := by
  rw [leaves]
  exact (List.foldl_hom (List.map entry) fun queue p =>
    (map_entry_enqueue (leafOf freqs p) queue).symm).symm

theorem exists_depths {t : Huffman.Tree} (ht : tree? freqs = some t) {marks : Array (Option Nat)}
    {root weight : Nat} (h : Marked (codedSymbols freqs) marks (root + 1) [⟨weight, root, t⟩])
    (hsize : marks.size = 2 * (codedSymbols freqs).length - 1) :
    ∃ depths, deepen? marks root (Array.replicate marks.size 0) = some depths ∧
      ∀ p ∈ (codedSymbols freqs).zipIdx, depths[p.2]? = some (depthIn freqs t p.1) := by
  have hlast : root < marks.size := h.lt_size List.mem_cons_self
  have hdeep : Deep marks root root (Array.replicate marks.size 0) := by
    apply deep_root
    · exact h.unmarked root hlast (by simp)
    · rw [Array.getElem?_replicate, if_pos hlast]
  have hmarked : ∀ i < root, ∃ above, marks[i]? = some (some above) ∧ i < above ∧ above ≤ root := by
    intro i hi
    obtain ⟨above, hmark, hup, hbelow⟩ :=
      h.marked i (Nat.lt_succ_of_lt hi) (by simpa using Nat.ne_of_lt hi)
    exact ⟨above, hmark, hup, Nat.le_of_lt_succ hbelow⟩
  obtain ⟨depths, hdeepen, hdepths⟩ :=
    exists_deepen? hmarked (by simpa using hlast) (Nat.le_refl root) hdeep
  refine ⟨depths, hdeepen, fun p hp => ?_⟩
  have hused := List.mk_mem_zipIdx_iff_getElem?.mp hp
  obtain ⟨hlt, -⟩ := List.getElem?_eq_some_iff.mp hused
  obtain ⟨leaf, hleaf, hpath⟩ :=
    h.path _ List.mem_cons_self _ (mem_depths ht (List.mem_of_getElem? hused))
  obtain rfl : p.2 = leaf :=
    (List.getElem?_inj hlt (nodup_codedSymbols freqs)).mp (hused.trans hleaf.symm)
  have hroot := h.size_eq
  rw [List.length_singleton] at hroot
  exact hdepths p.2 (Nat.zero_le _) (by omega) _ hpath

theorem lengths?_eq (hpos : 0 < (codedSymbols freqs).length) :
    lengths? freqs = some (scatter freqs.length
      ((treeCodes freqs).map fun c => { c with length := min c.length 255 })).toArray := by
  obtain ⟨t, ht⟩ := exists_tree (List.ne_nil_of_length_pos hpos)
  obtain ⟨marks, root, hmerge, hsize, weight, hroot⟩ := exists_merge? (marked_leaves hpos) ht
  rw [Array.size_replicate] at hsize
  obtain ⟨depths, hdeepen, hdepths⟩ := exists_depths ht hroot hsize
  have hlt : ∀ p ∈ (codedSymbols freqs).zipIdx,
      p.1 < (Array.replicate freqs.length (0 : Nat)).size := by
    intro p hp
    rw [Array.size_replicate]
    exact lt_of_mem_codedSymbols (List.mem_of_getElem? (List.mk_mem_zipIdx_iff_getElem?.mp hp))
  have hentries : (codedSymbols freqs).zipIdx.map (fun p => (p.1, min (depthIn freqs t p.1) 255)) =
      ((treeCodes freqs).map fun c => { c with length := min c.length 255 }).map
        fun c => (c.symbol, c.length) := by
    rw [treeCodes_eq ht, List.map_map, List.map_map]
    conv_rhs => rw [← List.zipIdx_map_fst 0 (codedSymbols freqs), List.map_map]
    rfl
  rw [hsize] at hdeepen
  rw [lengths?, ← map_entry_leaves, hmerge]
  simp only [Option.bind_eq_bind, Option.bind_some, Nat.succ_sub_one,
    sub?_of_le (Nat.le_add_left 1 root), hdeepen, assign?_eq hdepths hlt]
  rw [scatter_eq, hentries, Array.toArray_toList]

end Build

end Conduit.Machine.Forest
