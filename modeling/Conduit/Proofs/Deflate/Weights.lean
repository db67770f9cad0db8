import Mathlib.Algebra.Order.Ring.Nat
import Mathlib.Algebra.Order.Ring.Unbundled.Basic
import Mathlib.Data.List.Sort
import Conduit.Deflate.Block

namespace Conduit.Deflate

variable {weights lengths : List Nat}

section Weighted

@[simp]
theorem weighted_cons (count length : Nat) (counts lengths : List Nat) :
    weighted (count :: counts) (length :: lengths) = count * length + weighted counts lengths := rfl

@[simp]
theorem weighted_nil_right (counts : List Nat) : weighted counts [] = 0 := by
  rw [weighted, List.zipWith_nil_right]
  rfl

theorem weighted_modify {counts : List Nat} {i : Nat} (h : i < counts.length)
    (lengths : List Nat) :
    weighted (counts.modify i (· + 1)) lengths = weighted counts lengths + lengths.getD i 0 := by
  induction counts generalizing i lengths with
  | nil => exact absurd h (Nat.not_lt_zero i)
  | cons count counts ih =>
    cases lengths with
    | nil => simp only [weighted_nil_right, List.getD_nil]
    | cons length lengths =>
      cases i with
      | zero =>
        rw [List.modify_zero_cons, weighted_cons, weighted_cons, List.getD_cons_zero, Nat.add_mul]
        omega
      | succ i =>
        rw [List.modify_succ_cons, weighted_cons, weighted_cons, List.getD_cons_succ,
          ih (Nat.lt_of_succ_lt_succ h), Nat.add_assoc]

theorem weighted_replicate_zero (n : Nat) (lengths : List Nat) :
    weighted (List.replicate n 0) lengths = 0 := by
  induction n generalizing lengths with
  | zero => rfl
  | succ n ih =>
    cases lengths with
    | nil => exact weighted_nil_right _
    | cons length lengths => rw [List.replicate_succ, weighted_cons, ih, Nat.zero_mul]

theorem weighted_map_map {α : Type} (l : List α) (f g : α → Nat) :
    weighted (l.map f) (l.map g) = (l.map fun a => f a * g a).sum := by
  rw [weighted, List.zipWith_map, List.zipWith_self]
  rfl

theorem weighted_eq_sum_range (counts lengths : List Nat) :
    weighted counts lengths =
      ((List.range counts.length).map fun i => counts.getD i 0 * lengths.getD i 0).sum := by
  induction counts generalizing lengths with
  | nil => rfl
  | cons count counts ih =>
    cases lengths with
    | nil => simp
    | cons length lengths => simp [ih, List.range_succ_eq_map, Function.comp_def]

end Weighted

section Exchange

theorem exists_weighted_eq {others : List Nat} (h : weights.Perm others)
    (hlen : lengths.length = weights.length) :
    ∃ moved, moved.Perm lengths ∧ weighted others moved = weighted weights lengths := by
  induction h generalizing lengths with
  | nil => exact ⟨lengths, List.Perm.refl _, rfl⟩
  | cons w _ ih =>
    obtain - | ⟨l, lengths⟩ := lengths
    · simp at hlen
    · obtain ⟨moved, hmoved, heq⟩ := ih (by simpa using hlen)
      exact ⟨l :: moved, hmoved.cons l, by simp [heq]⟩
  | swap w v weights =>
    obtain - | ⟨l, - | ⟨k, lengths⟩⟩ := lengths
    · simp at hlen
    · simp at hlen
    · refine ⟨k :: l :: lengths, List.Perm.swap l k lengths, ?_⟩
      simp only [weighted_cons]
      omega
  | trans hfirst _ ihfirst ihsecond =>
    obtain ⟨between, hbetween, heq⟩ := ihfirst hlen
    obtain ⟨moved, hmoved, heq'⟩ :=
      ihsecond (by rw [hbetween.length_eq, hlen, hfirst.length_eq])
    exact ⟨moved, hmoved.trans hbetween, heq'.trans heq⟩

/-- A length that is too short for the rarest symbol changes places with the next one. -/
theorem weighted_orderedInsert_le {w l : Nat} (hrare : (w :: weights).Pairwise (· ≤ ·))
    (hlen : lengths.length = weights.length) :
    weighted (w :: weights) (lengths.orderedInsert (· ≥ ·) l) ≤
      weighted (w :: weights) (l :: lengths) := by
  induction lengths generalizing w weights with
  | nil => exact Nat.le_refl _
  | cons k lengths ih =>
    by_cases hlong : l ≥ k
    · rw [List.orderedInsert_cons_of_le _ _ hlong]
    · obtain - | ⟨v, weights⟩ := weights
      · simp at hlen
      · obtain ⟨hw, hrare⟩ := List.pairwise_cons.mp hrare
        have ih := ih hrare (by simpa using hlen)
        have hswap : w * k + v * l ≤ w * l + v * k :=
          mul_add_mul_le_mul_add_mul (hw v List.mem_cons_self) (Nat.le_of_not_ge hlong)
        simp only [List.orderedInsert_cons, if_neg hlong, weighted_cons] at ih ⊢
        omega

theorem weighted_insertionSort_le (hrare : weights.Pairwise (· ≤ ·))
    (hlen : lengths.length = weights.length) :
    weighted weights (lengths.insertionSort (· ≥ ·)) ≤ weighted weights lengths := by
  induction lengths generalizing weights with
  | nil => exact Nat.le_refl _
  | cons l lengths ih =>
    obtain - | ⟨w, weights⟩ := weights
    · simp at hlen
    · have hlen : lengths.length = weights.length := by simpa using hlen
      have ih := ih hrare.of_cons hlen
      rw [List.insertionSort_cons]
      refine (weighted_orderedInsert_le hrare ?_).trans ?_
      · rw [List.length_insertionSort, hlen]
      · exact Nat.add_le_add_left ih _

/-- Nothing is lost by giving the longest codes to the rarest symbols. -/
theorem exists_longest_first (hrare : weights.Pairwise (· ≤ ·))
    (hlen : lengths.length = weights.length) :
    ∃ moved, moved.Perm lengths ∧ moved.Pairwise (· ≥ ·) ∧
      weighted weights moved ≤ weighted weights lengths :=
  ⟨lengths.insertionSort (· ≥ ·), List.perm_insertionSort _ lengths,
    List.pairwise_insertionSort _ lengths, weighted_insertionSort_le hrare hlen⟩

end Exchange

end Conduit.Deflate
