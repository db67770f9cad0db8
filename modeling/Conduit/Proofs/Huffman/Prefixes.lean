import Mathlib.InformationTheory.Coding.KraftMcMillan
import Conduit.Proofs.Huffman.Completeness

namespace Conduit.Huffman

open InformationTheory (UniquelyDecodable kraft_mcmillan_inequality)

variable {symbols : List Nat} {code : Nat → List Bool}

/-- Codes of which none begins with another. -/
def PrefixFree (symbols : List Nat) (code : Nat → List Bool) : Prop :=
  ∀ s ∈ symbols, ∀ u ∈ symbols, code s <+: code u → s = u

theorem PrefixFree.ne_nil (h : PrefixFree symbols code) (hn : symbols.Nodup)
    (htwo : 2 ≤ symbols.length) {s : Nat} (hs : s ∈ symbols) : code s ≠ [] := by
  intro hnil
  have hall : ∀ u ∈ symbols, s = u := fun u hu => h s hs u hu (hnil ▸ List.nil_prefix)
  obtain - | ⟨u, - | ⟨v, symbols⟩⟩ := symbols
  · simp at htwo
  · simp at htwo
  · have hu := hall u (by simp)
    have hv := hall v (by simp)
    simp [← hu, ← hv] at hn

/-- Words that can be told apart as they come in can be told apart afterwards. -/
theorem PrefixFree.uniquelyDecodable (h : PrefixFree symbols code)
    (hne : ∀ s ∈ symbols, code s ≠ []) :
    UniquelyDecodable {word | word ∈ symbols.map code} := by
  have heq {word other : List Bool} (hword : word ∈ symbols.map code)
      (hother : other ∈ symbols.map code) (hbegins : word <+: other) : word = other := by
    obtain ⟨s, hs, rfl⟩ := List.mem_map.mp hword
    obtain ⟨u, hu, rfl⟩ := List.mem_map.mp hother
    rw [h s hs u hu hbegins]
  have hempty : [] ∉ symbols.map code := by
    intro hmem
    obtain ⟨s, hs, hnil⟩ := List.mem_map.mp hmem
    exact hne s hs hnil
  intro words others hwords hothers hsame
  induction words generalizing others with
  | nil =>
    obtain - | ⟨other, others⟩ := others
    · rfl
    · obtain rfl : other = [] := by
        simp at hsame
        exact hsame.1
      exact absurd (hothers [] (by simp)) hempty
  | cons word words ih =>
    have hword := hwords word (by simp)
    obtain - | ⟨other, others⟩ := others
    · obtain rfl : word = [] := by
        simp at hsame
        exact hsame.1
      exact absurd hword hempty
    · have hother := hothers other (by simp)
      rw [List.flatten_cons, List.flatten_cons] at hsame
      have hboth : word = other := by
        obtain hbegins | hbegins := List.prefix_or_prefix_of_prefix
          (List.prefix_append word words.flatten) (hsame ▸ List.prefix_append other others.flatten)
        · exact heq hword hother hbegins
        · exact (heq hother hword hbegins).symm
      rw [hboth] at hsame ⊢
      rw [ih others (fun w hw => hwords w (by simp [hw])) (fun w hw => hothers w (by simp [hw]))
        (List.append_cancel_left hsame)]

theorem PrefixFree.kraftSum_le (h : PrefixFree symbols code) (hn : symbols.Nodup)
    (htwo : 2 ≤ symbols.length) : kraftSum (symbols.map fun s => (code s).length) ≤ 1 := by
  have hne := fun s hs => h.ne_nil hn htwo (s := s) hs
  have hdistinct : (symbols.map code).Nodup :=
    hn.map_on fun s hs u hu he => h s hs u hu (he ▸ List.prefix_refl _)
  have hkraft : ∑ word ∈ (symbols.map code).toFinset,
      (1 / (Fintype.card Bool : ℝ)) ^ word.length ≤ 1 :=
    kraft_mcmillan_inequality (by simpa using h.uniquelyDecodable hne)
  rw [List.sum_toFinset _ hdistinct, Fintype.card_bool] at hkraft
  have hpos : ∀ l ∈ symbols.map fun s => (code s).length, decide (0 < l) = true := by
    intro l hl
    obtain ⟨s, hs, rfl⟩ := List.mem_map.mp hl
    simpa using List.length_pos_iff.mpr (hne s hs)
  rw [kraftSum, List.filter_eq_self.mpr hpos]
  have hreal : (((symbols.map fun s => (code s).length).map fun length =>
      (1 / 2 : ℚ) ^ length).sum : ℝ) ≤ 1 := by
    rw [Rat.cast_list_sum]
    simpa [Function.comp_def] using hkraft
  exact_mod_cast hreal

end Conduit.Huffman
