namespace Conduit

variable {α : Type} {f : Nat → α} {d a : α} {w : Array α}

def Begins (f : Nat → α) (d : α) (w : Array α) : Prop :=
  ∀ i < w.size, w.getD i d = f i

theorem Begins.push (h : Begins f d w) (ha : a = f w.size) : Begins f d (w.push a) := by
  intro i hi
  rw [Array.size_push] at hi
  by_cases hlast : i = w.size
  · rw [hlast, ← ha]
    simp [Array.getD]
  · have hlt : i < w.size := by omega
    rw [← h i hlt]
    simp [Array.getD, Array.getElem_push, hlt, Nat.lt_succ_of_lt hlt]

end Conduit
