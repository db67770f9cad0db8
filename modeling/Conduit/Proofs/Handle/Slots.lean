import Conduit.Handle.Table
import Conduit.Proofs.Handle.Words
import Mathlib.Data.List.Nodup

namespace Conduit.HandleTable

open Handle

variable {α β : Type*} {t : HandleTable α} {h h' : Handle} {i : Nat} {value : α}

def occupied (t : HandleTable α) : Nat :=
  t.slots.countP fun slot => slot.value.isSome

/-- The free list names each vacant slot once, and the size is the number of occupied slots. Only
slots with handles of their own become vacant. -/
structure Sound (t : HandleTable α) : Prop where
  nodup : t.free.Nodup
  mem_free_iff : ∀ i, i ∈ t.free ↔ ∃ generation, t.slots[i]? = some ⟨generation, none⟩
  free_lt : ∀ i ∈ t.free, i + 1 < 2 ^ 32
  size_eq : t.size = t.occupied

theorem sound_empty : (empty : HandleTable α).Sound where
  nodup := List.nodup_nil
  mem_free_iff i := by simp [empty]
  free_lt := List.forall_mem_nil _
  size_eq := rfl

theorem get?_of_index?_none (hi : h.index? = none) : t.get? h = none := by
  simp [get?, slot?, hi]

theorem get?_of_getElem?_none (hi : h.index? = some i) (hslot : t.slots[i]? = none) :
    t.get? h = none := by
  simp [get?, slot?, hi, hslot]

theorem get?_of_getElem? {slot : Slot α} (hi : h.index? = some i)
    (hslot : t.slots[i]? = some slot) :
    t.get? h = if slot.generation = h.generation then slot.value else none := by
  rw [get?, slot?]
  by_cases hg : slot.generation = h.generation
  · simp [hi, hslot, hg]
  · simp [hi, hslot, hg]

theorem get?_eq_some_iff :
    t.get? h = some value ↔
      ∃ i, h.index? = some i ∧ t.slots[i]? = some ⟨h.generation, some value⟩ := by
  cases hi : h.index? with
  | none => simp [get?_of_index?_none hi]
  | some i =>
    cases hslot : t.slots[i]? with
    | none => simp [get?_of_getElem?_none hi hslot, hslot]
    | some slot =>
      obtain ⟨generation, content⟩ := slot
      by_cases hg : generation = h.generation
      · simp [get?_of_getElem? hi hslot, hslot, hg]
      · simp [get?_of_getElem? hi hslot, hslot, hg]

/-- Which handles stand for nothing: the null handle and its like, those of slots that are not
there, those of another generation of their slot, and those of a vacant slot. -/
theorem get?_eq_none_iff :
    t.get? h = none ↔ h.index? = none ∨ ∃ i, h.index? = some i ∧
      (t.slots[i]? = none ∨ ∃ slot, t.slots[i]? = some slot ∧
        (slot.generation ≠ h.generation ∨ slot.value = none)) := by
  cases hi : h.index? with
  | none => simp [get?_of_index?_none hi]
  | some i =>
    cases hslot : t.slots[i]? with
    | none =>
      have hsize := Array.getElem?_eq_none_iff.mp hslot
      simp [get?_of_getElem?_none hi hslot, hsize]
    | some slot =>
      obtain ⟨hlt, -⟩ := Array.getElem?_eq_some_iff.mp hslot
      by_cases hg : slot.generation = h.generation
      · simp [get?_of_getElem? hi hslot, hslot, hg, Nat.not_le.mpr hlt]
      · simp [get?_of_getElem? hi hslot, hslot, hg]

theorem get?_congr {t' : HandleTable α}
    (h' : ∀ i, h.index? = some i → t'.slots[i]? = t.slots[i]?) : t'.get? h = t.get? h := by
  ext value
  rw [get?_eq_some_iff, get?_eq_some_iff]
  constructor
  · rintro ⟨i, hi, hslot⟩
    exact ⟨i, hi, (h' i hi).symm.trans hslot⟩
  · rintro ⟨i, hi, hslot⟩
    exact ⟨i, hi, (h' i hi).trans hslot⟩

theorem get_eq_ok_iff : t.get h = .ok value ↔ t.get? h = some value := by
  rw [get]
  cases t.get? h <;> simp

theorem get_of_none (hn : t.get? h = none) : t.get h = .error (.useAfterFree h.raw) := by
  rw [get, hn]

theorem get_congr {t' : HandleTable α} (h' : t'.get? h = t.get? h) : t'.get h = t.get h := by
  rw [get, get, h']

theorem contains_of_none (hn : t.get? h = none) : t.contains h = false := by
  rw [contains, hn]
  rfl

theorem slot?_of_get? (hv : t.get? h = some value) :
    ∃ i, h.index? = some i ∧ t.slots[i]? = some ⟨h.generation, some value⟩ ∧
      t.slot? h = some (i, ⟨h.generation, some value⟩) := by
  obtain ⟨i, hi, hslot⟩ := get?_eq_some_iff.mp hv
  refine ⟨i, hi, hslot, ?_⟩
  simp [slot?, hi, hslot]

theorem getElem?_set {slots : Array (Slot α)} {old : Slot α} (hold : slots[i]? = some old)
    (slot : Slot α) (j : Nat) :
    (slots.setIfInBounds i slot)[j]? = if j = i then some slot else slots[j]? := by
  obtain ⟨hlt, -⟩ := Array.getElem?_eq_some_iff.mp hold
  rw [Array.getElem?_setIfInBounds]
  by_cases hj : j = i
  · rw [if_pos hj.symm, if_pos hj, if_pos hlt]
  · rw [if_neg (Ne.symm hj), if_neg hj]

theorem countP_set {slots : Array (Slot α)} {old : Slot α} (hold : slots[i]? = some old)
    (p : Slot α → Bool) (slot : Slot α) :
    (slots.setIfInBounds i slot).countP p + (if p old then 1 else 0) =
      slots.countP p + (if p slot then 1 else 0) := by
  obtain ⟨hlt, rfl⟩ := Array.getElem?_eq_some_iff.mp hold
  have hcount := Array.boole_getElem_le_countP (p := p) hlt
  rw [Array.setIfInBounds, dif_pos hlt, Array.countP_set]
  omega

theorem insert_of_free_nil (hfree : t.free = []) (value : α) :
    t.insert value =
      (ofSlot (.ofNat t.slots.size) 0, ⟨t.slots.push ⟨0, some value⟩, [], t.size + 1⟩) := by
  obtain ⟨slots, free, size⟩ := t
  subst hfree
  rfl

theorem insert_of_free_cons {rest : List Nat} {generation : UInt32} (hfree : t.free = i :: rest)
    (hslot : t.slots[i]? = some ⟨generation, none⟩) (value : α) :
    t.insert value = (ofSlot (.ofNat i) generation,
      ⟨t.slots.setIfInBounds i ⟨generation, some value⟩, rest, t.size + 1⟩) := by
  obtain ⟨slots, free, size⟩ := t
  subst hfree
  rw [insert]
  dsimp only at hslot ⊢
  rw [hslot]
  rfl

theorem update_of_none (hn : t.get? h = none) (f : α → β × α) :
    t.update h f = (.error (.useAfterFree h.raw), t) := by
  rw [update]
  split
  next i generation value hslot =>
    rw [get?, hslot] at hn
    cases hn
  next => rfl

theorem update_of_some (hv : t.get? h = some value) (f : α → β × α) :
    ∃ i, h.index? = some i ∧ t.slots[i]? = some ⟨h.generation, some value⟩ ∧
      t.update h f = (.ok (f value).1,
        { t with slots := t.slots.setIfInBounds i ⟨h.generation, some (f value).2⟩ }) := by
  obtain ⟨i, hi, hslot, hfound⟩ := slot?_of_get? hv
  refine ⟨i, hi, hslot, ?_⟩
  rw [update, hfound]

theorem update_eq_of_some {γ : Type*} (hv : t.get? h = some value) {f : α → β × α} {g : α → γ × α}
    (hfg : (f value).2 = (g value).2) :
    t.update h f = (.ok (f value).1, (t.update h g).2) := by
  obtain ⟨i, hi, -, hf⟩ := update_of_some hv f
  obtain ⟨j, hj, -, hg⟩ := update_of_some hv g
  obtain rfl := Option.some.inj (hi.symm.trans hj)
  rw [hf, hg, hfg]

theorem remove_of_none (hn : t.get? h = none) : t.remove h = (none, t) := by
  rw [remove]
  split
  next i generation value hslot =>
    rw [get?, hslot] at hn
    cases hn
  next => rfl

theorem remove_of_some (hv : t.get? h = some value) :
    ∃ i, h.index? = some i ∧ t.slots[i]? = some ⟨h.generation, some value⟩ ∧
      t.remove h = (some value,
        ⟨t.slots.setIfInBounds i ⟨h.generation + 1, none⟩, i :: t.free, t.size - 1⟩) := by
  obtain ⟨i, hi, hslot, hfound⟩ := slot?_of_get? hv
  refine ⟨i, hi, hslot, ?_⟩
  rw [remove, hfound]

/-- An insertion occupies one slot, which was vacant or not there, and hands out its handle. -/
theorem Sound.insert_spec (hs : t.Sound) (value : α) :
    ∃ i generation, (t.insert value).1 = ofSlot (.ofNat i) generation ∧
      i < (t.insert value).2.slots.size ∧ t.slots.size ≤ (t.insert value).2.slots.size ∧
      (t.slots[i]? = some ⟨generation, none⟩ ∨ t.slots[i]? = none) ∧
      ∀ j, (t.insert value).2.slots[j]? =
        if j = i then some ⟨generation, some value⟩ else t.slots[j]? := by
  cases hfree : t.free with
  | nil =>
    rw [insert_of_free_nil hfree]
    refine ⟨t.slots.size, 0, rfl, ?_, ?_, Or.inr (Array.getElem?_eq_none (Nat.le_refl _)),
      fun j => Array.getElem?_push⟩
    · exact Nat.lt_of_lt_of_eq (Nat.lt_succ_self _) (Array.size_push _).symm
    · exact Nat.le_trans (Nat.le_succ _) (Nat.le_of_eq (Array.size_push _).symm)
  | cons i rest =>
    obtain ⟨generation, hslot⟩ := (hs.mem_free_iff i).mp (hfree ▸ List.mem_cons_self)
    obtain ⟨hlt, -⟩ := Array.getElem?_eq_some_iff.mp hslot
    rw [insert_of_free_cons hfree hslot]
    refine ⟨i, generation, rfl, ?_, ?_, Or.inl hslot, getElem?_set hslot _⟩
    · rw [Array.size_setIfInBounds]
      exact hlt
    · rw [Array.size_setIfInBounds]

theorem Sound.insert (hs : t.Sound) (value : α) : (t.insert value).2.Sound := by
  cases hfree : t.free with
  | nil =>
    rw [insert_of_free_nil hfree]
    refine ⟨List.nodup_nil, fun i => ?_, List.forall_mem_nil _, ?_⟩
    · have hvacant := hs.mem_free_iff i
      rw [hfree] at hvacant
      rw [Array.getElem?_push]
      split
      · simp
      · exact hvacant
    · rw [hs.size_eq, occupied, occupied, Array.countP_push]
      rfl
  | cons i rest =>
    have hnodup := hs.nodup
    obtain ⟨generation, hslot⟩ := (hs.mem_free_iff i).mp (hfree ▸ List.mem_cons_self)
    have hcount := countP_set hslot (·.value.isSome) ⟨generation, some value⟩
    rw [hfree, List.nodup_cons] at hnodup
    rw [insert_of_free_cons hfree hslot]
    refine ⟨hnodup.2, fun j => ?_, fun j hj => hs.free_lt j (hfree ▸ List.mem_cons_of_mem i hj), ?_⟩
    · have hvacant := hs.mem_free_iff j
      rw [hfree, List.mem_cons] at hvacant
      rw [getElem?_set hslot]
      by_cases hj : j = i
      · rw [if_pos hj, hj]
        simp [hnodup.1]
      · rw [if_neg hj, ← hvacant, or_iff_right hj]
    · rw [hs.size_eq]
      exact hcount.symm

theorem Sound.update (hs : t.Sound) (h : Handle) (f : α → β × α) : (t.update h f).2.Sound := by
  cases hv : t.get? h with
  | none =>
    rw [update_of_none hv]
    exact hs
  | some value =>
    obtain ⟨i, -, hslot, hupdate⟩ := update_of_some hv f
    have hcount := countP_set hslot (·.value.isSome) ⟨h.generation, some (f value).2⟩
    rw [hupdate]
    refine ⟨hs.nodup, fun j => ?_, hs.free_lt, ?_⟩
    · rw [getElem?_set hslot, hs.mem_free_iff]
      by_cases hj : j = i
      · rw [if_pos hj, hj, hslot]
        simp
      · rw [if_neg hj]
    · rw [hs.size_eq]
      exact (Nat.add_right_cancel hcount).symm

theorem Sound.remove (hs : t.Sound) (h : Handle) : (t.remove h).2.Sound := by
  cases hv : t.get? h with
  | none =>
    rw [remove_of_none hv]
    exact hs
  | some value =>
    obtain ⟨i, hi, hslot, hremove⟩ := remove_of_some hv
    have hcount := countP_set hslot (·.value.isSome) ⟨h.generation + 1, none⟩
    have hvacant : i ∉ t.free := by
      rw [hs.mem_free_iff, hslot]
      simp
    rw [hremove]
    refine ⟨List.nodup_cons.mpr ⟨hvacant, hs.nodup⟩, fun j => ?_, ?_, ?_⟩
    · rw [getElem?_set hslot, List.mem_cons, hs.mem_free_iff]
      by_cases hj : j = i
      · simp [hj]
      · simp [hj]
    · rw [List.forall_mem_cons]
      exact ⟨index?_lt hi, hs.free_lt⟩
    · rw [hs.size_eq]
      exact (Nat.eq_sub_of_add_eq hcount).symm

theorem get?_update (t : HandleTable α) (h : Handle) (f : α → β × α) (h' : Handle) :
    (t.update h f).2.get? h' =
      if h' = h then (t.get? h).map fun value => (f value).2 else t.get? h' := by
  cases hv : t.get? h with
  | none =>
    rw [update_of_none hv]
    split
    next heq => exact heq ▸ hv
    next => rfl
  | some value =>
    obtain ⟨i, hi, hslot, hupdate⟩ := update_of_some hv f
    rw [hupdate]
    have hset := getElem?_set hslot ⟨h.generation, some (f value).2⟩
    by_cases hi' : h'.index? = some i
    · rw [get?_of_getElem? hi' ((hset i).trans (if_pos rfl)), get?_of_getElem? hi' hslot]
      by_cases hg : h.generation = h'.generation
      · rw [if_pos hg, if_pos (eq_of_halves hi' hi hg.symm)]
        rfl
      · rw [if_neg hg, if_neg hg, if_neg]
        rintro rfl
        exact hg rfl
    · rw [if_neg]
      · refine get?_congr fun j hj => (hset j).trans (if_neg ?_)
        rintro rfl
        exact hi' hj
      · rintro rfl
        exact hi' hi

theorem get?_remove (t : HandleTable α) (h h' : Handle) :
    (t.remove h).2.get? h' = if h' = h then none else t.get? h' := by
  cases hv : t.get? h with
  | none =>
    rw [remove_of_none hv]
    split
    next heq => exact heq ▸ hv
    next => rfl
  | some value =>
    obtain ⟨i, hi, hslot, hremove⟩ := remove_of_some hv
    rw [hremove]
    have hset := getElem?_set hslot ⟨h.generation + 1, none⟩
    by_cases hi' : h'.index? = some i
    · rw [get?_of_getElem? hi' ((hset i).trans (if_pos rfl)), get?_of_getElem? hi' hslot, ite_self]
      by_cases hg : h.generation = h'.generation
      · rw [if_pos (eq_of_halves hi' hi hg.symm)]
      · rw [if_neg hg, ite_self]
    · rw [if_neg]
      · refine get?_congr fun j hj => (hset j).trans (if_neg ?_)
        rintro rfl
        exact hi' hj
      · rintro rfl
        exact hi' hi

theorem Sound.get?_insert_of_some (hs : t.Sound) (hv : t.get? h = some value) (new : α) :
    (t.insert new).2.get? h = some value := by
  obtain ⟨i, hi, hslot⟩ := get?_eq_some_iff.mp hv
  obtain ⟨j, generation, -, -, -, hplace, hset⟩ := hs.insert_spec new
  refine get?_eq_some_iff.mpr ⟨i, hi, (hset i).trans ?_⟩
  rw [if_neg, hslot]
  rintro rfl
  rw [hslot] at hplace
  simp at hplace

theorem Sound.of_get?_insert (hs : t.Sound) {new : α} (hv : (t.insert new).2.get? h = some value) :
    t.get? h = some value ∨ h = (t.insert new).1 := by
  obtain ⟨j, hj, hslot⟩ := get?_eq_some_iff.mp hv
  obtain ⟨i, generation, hhandle, -, -, -, hset⟩ := hs.insert_spec new
  rw [hset] at hslot
  by_cases hji : j = i
  · subst hji
    rw [if_pos rfl, Option.some_inj, Slot.mk.injEq] at hslot
    rw [hhandle, hslot.1, ofSlot_of_index? hj]
    exact Or.inr rfl
  · rw [if_neg hji] at hslot
    exact Or.inl (get?_eq_some_iff.mpr ⟨j, hj, hslot⟩)

/-- As long as slots have handles of their own, a new value is found behind its handle, which stood
for nothing before, and nothing else changes. -/
theorem Sound.get?_insert (hs : t.Sound) {new : α}
    (hsize : (t.insert new).2.slots.size < 2 ^ 32) :
    (t.insert new).1.isNull = false ∧ t.get? (t.insert new).1 = none ∧
      ∀ h, (t.insert new).2.get? h = if h = (t.insert new).1 then some new else t.get? h := by
  obtain ⟨i, generation, hhandle, hlt, -, hplace, hset⟩ := hs.insert_spec new
  have hi : i + 1 < 2 ^ 32 := Nat.lt_of_le_of_lt hlt hsize
  have hindex : (t.insert new).1.index? = some i := by rw [hhandle, index?_ofSlot hi]
  have hgeneration : (t.insert new).1.generation = generation := by
    rw [hhandle, generation_ofSlot hi]
  have hat : t.get? (t.insert new).1 = none := by
    obtain hslot | hnone := hplace
    · rw [get?_of_getElem? hindex hslot, hgeneration, if_pos rfl]
    · exact get?_of_getElem?_none hindex hnone
  refine ⟨?_, hat, fun h => ?_⟩
  · have hlow := index?_eq_some_iff.mp hindex
    apply Bool.eq_false_iff.mpr
    intro hnull
    rw [isNull, beq_iff_eq] at hnull
    rw [hnull] at hlow
    cases hlow
  · by_cases hh : h.index? = some i
    · rw [get?_of_getElem? hh ((hset i).trans (if_pos rfl))]
      by_cases hg : generation = h.generation
      · rw [if_pos hg, if_pos (eq_of_halves hh hindex (hg.symm.trans hgeneration.symm))]
      · have hne : h ≠ (t.insert new).1 := by
          rintro rfl
          exact hg hgeneration.symm
        rw [if_neg hg, if_neg hne]
        obtain hslot | hnone := hplace
        · rw [get?_of_getElem? hh hslot, if_neg hg]
        · exact (get?_of_getElem?_none hh hnone).symm
    · rw [if_neg]
      · refine get?_congr fun j hj => (hset j).trans (if_neg ?_)
        rintro rfl
        exact hh hj
      · rintro rfl
        exact hh hindex

def entryAt (t : HandleTable α) (i : Fin t.slots.size) : Option (Handle × α) :=
  t.slots[i].value.map fun value => (ofSlot (.ofNat i) t.slots[i].generation, value)

def entries (t : HandleTable α) : List (Handle × α) :=
  (List.finRange t.slots.size).filterMap t.entryAt

theorem nodup_entries (hsize : t.slots.size < 2 ^ 32) : (t.entries.map Prod.fst).Nodup := by
  rw [entries, List.map_filterMap]
  refine List.Nodup.filterMap (fun i j handle hi hj => ?_) (List.nodup_finRange _)
  simp only [entryAt, Option.map_map, Option.mem_def, Option.map_eq_some_iff,
    Function.comp_apply] at hi hj
  obtain ⟨-, -, rfl⟩ := hi
  obtain ⟨-, -, hhandle⟩ := hj
  exact Fin.ext (eq_of_ofSlot (i.isLt.trans hsize) (j.isLt.trans hsize) hhandle.symm)

theorem length_entries (t : HandleTable α) : t.entries.length = t.occupied := by
  have hslots : t.slots.toList = (List.finRange t.slots.size).map fun i => t.slots[i] :=
    (List.map_getElem_finRange t.slots.toList).symm
  rw [entries, List.length_filterMap_eq_countP, occupied, ← Array.countP_toList, hslots,
    List.countP_map]
  refine List.countP_congr fun i _ => ?_
  rw [entryAt, Option.isSome_map]
  rfl

theorem mem_entries (hsize : t.slots.size < 2 ^ 32) :
    (h, value) ∈ t.entries ↔ t.get? h = some value := by
  rw [entries, List.mem_filterMap, get?_eq_some_iff]
  constructor
  · rintro ⟨i, -, hi⟩
    rw [entryAt, Option.map_eq_some_iff] at hi
    obtain ⟨content, hcontent, hentry⟩ := hi
    obtain ⟨rfl, rfl⟩ := Prod.mk.inj hentry
    have hlt : i.val + 1 < 2 ^ 32 := Nat.lt_of_le_of_lt i.isLt hsize
    refine ⟨i, index?_ofSlot hlt _, ?_⟩
    rw [generation_ofSlot hlt, ← hcontent]
    exact Array.getElem?_eq_getElem i.isLt
  · rintro ⟨i, hi, hslot⟩
    obtain ⟨hlt, hslot⟩ := Array.getElem?_eq_some_iff.mp hslot
    refine ⟨⟨i, hlt⟩, List.mem_finRange _, ?_⟩
    simp [entryAt, hslot, ofSlot_of_index? hi]

end Conduit.HandleTable
