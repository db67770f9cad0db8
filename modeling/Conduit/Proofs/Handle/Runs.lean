import Conduit.Proofs.Handle.Slots
import Conduit.Proofs.Replies

namespace Conduit.HandleTable

open Handle

variable {α β : Type*} {t : HandleTable α} {h : Handle} {value : α}

inductive Act (α : Type*) where
  | insert (value : α)
  | get (handle : Handle)
  | update (handle : Handle) (f : α → α)
  | remove (handle : Handle)
  | contains (handle : Handle)

inductive Answer (α : Type*) where
  | issued (handle : Handle)
  | found (result : Except Error α)
  | removed (value : Option α)
  | contained (result : Bool)

def act (t : HandleTable α) : Act α → Answer α × HandleTable α
  | .insert value =>
    let (handle, t) := t.insert value
    (.issued handle, t)
  | .get handle => (.found (t.get handle), t)
  | .update handle f =>
    let (result, t) := t.update handle fun value => (value, f value)
    (.found result, t)
  | .remove handle =>
    let (value, t) := t.remove handle
    (.removed value, t)
  | .contains handle => (.contained (t.contains handle), t)

def run (acts : List (Act α)) : HandleTable α :=
  (replies act empty acts).2

theorem Sound.act (hs : t.Sound) (a : Act α) : (t.act a).2.Sound := by
  cases a with
  | insert value => exact hs.insert value
  | get handle => exact hs
  | update handle f => exact hs.update handle fun value => (value, f value)
  | remove handle => exact hs.remove handle
  | contains handle => exact hs

theorem Sound.replies (hs : t.Sound) (acts : List (Act α)) :
    (Conduit.replies HandleTable.act t acts).2.Sound := by
  induction acts generalizing t with
  | nil => exact hs
  | cons a acts ih => exact ih (hs.act a)

theorem sound_run (acts : List (Act α)) : (run acts).Sound :=
  sound_empty.replies acts

theorem get?_eq_none_of_ne (hne : ∀ value, t.get h ≠ .ok value) : t.get? h = none := by
  cases hv : t.get? h with
  | none => rfl
  | some value => exact absurd (get_eq_ok_iff.mpr hv) (hne value)

/-- The table is a finite map from handles to values, with as many entries as it says, and its parts
agree with each other. An insertion adds an entry for a new handle, an update changes the value of
its entry, a removal takes its entry away; and a handle without an entry is refused. -/
structure IsFiniteMap (t : HandleTable α) : Prop where
  free_nodup : t.free.Nodup
  mem_free_iff : ∀ i, i ∈ t.free ↔ ∃ generation, t.slots[i]? = some ⟨generation, none⟩
  size_eq_occupied : t.size = t.occupied
  finite : ∃ entries : List (Handle × α), (entries.map Prod.fst).Nodup ∧ entries.length = t.size ∧
    ∀ h value, (h, value) ∈ entries ↔ t.get h = .ok value
  insert : ∀ value, (t.insert value).2.slots.size < 2 ^ 32 →
    (t.insert value).1.isNull = false ∧ (∀ old, t.get (t.insert value).1 ≠ .ok old) ∧
      ∀ h, (t.insert value).2.get h = if h = (t.insert value).1 then .ok value else t.get h
  update : ∀ h value, t.get h = .ok value → ∀ f : α → α,
    (t.update h fun value => (value, f value)).1 = .ok value ∧
      ∀ h', (t.update h fun value => (value, f value)).2.get h' =
        if h' = h then .ok (f value) else t.get h'
  remove : ∀ h value, t.get h = .ok value → (t.remove h).1 = some value ∧
    ∀ h', (t.remove h).2.get h' = if h' = h then .error (.useAfterFree h.raw) else t.get h'
  refuse : ∀ h, (∀ value, t.get h ≠ .ok value) →
    t.get h = .error (.useAfterFree h.raw) ∧ t.contains h = false ∧ t.remove h = (none, t) ∧
      ∀ f : α → α, (t.update h fun value => (value, f value)) = (.error (.useAfterFree h.raw), t)
  /-- A handle has no entry if it has no slot number, or if its slot is not there, of another
  generation or vacant. -/
  refused_iff : ∀ h, (∀ value, t.get h ≠ .ok value) ↔
    h.index? = none ∨ ∃ i, h.index? = some i ∧ (t.slots[i]? = none ∨
      ∃ slot, t.slots[i]? = some slot ∧ (slot.generation ≠ h.generation ∨ slot.value = none))

theorem get_ite {t' : HandleTable α} {h' : Handle} {v : Option α}
    (hget : t'.get? h' = if h' = h then v else t.get? h') :
    t'.get h' = if h' = h then (v.elim (.error (.useAfterFree h.raw)) .ok) else t.get h' := by
  by_cases heq : h' = h
  · subst heq
    rw [if_pos rfl] at hget ⊢
    rw [get, hget]
    cases v <;> rfl
  · rw [if_neg heq] at hget ⊢
    exact get_congr hget

/-- As long as every slot has handles of its own, a table is a finite map, whatever was done to it
and with whatever handles. -/
theorem table_is_finite_map (acts : List (Act α)) (hsize : (run acts).slots.size < 2 ^ 32) :
    (run acts).IsFiniteMap := by
  have hs := sound_run acts
  refine ⟨hs.nodup, hs.mem_free_iff, hs.size_eq, ?_, fun value hroom => ?_, fun h value hv f => ?_,
    fun h value hv => ?_, fun h hne => ?_, fun h => ?_⟩
  · refine ⟨(run acts).entries, nodup_entries hsize, ?_, fun h value => ?_⟩
    · rw [length_entries, hs.size_eq]
    · rw [mem_entries hsize, get_eq_ok_iff]
  · obtain ⟨hnull, hnone, hget⟩ := hs.get?_insert hroom
    refine ⟨hnull, fun old hold => ?_, fun h => get_ite (hget h)⟩
    rw [get_eq_ok_iff, hnone] at hold
    cases hold
  · have hsome := get_eq_ok_iff.mp hv
    obtain ⟨i, -, -, hupdate⟩ := update_of_some hsome fun value => (value, f value)
    refine ⟨congrArg Prod.fst hupdate, fun h' => ?_⟩
    have hget := get_ite (get?_update (run acts) h (fun value => (value, f value)) h')
    rw [hsome] at hget
    exact hget
  · obtain ⟨i, -, -, hremove⟩ := remove_of_some (get_eq_ok_iff.mp hv)
    exact ⟨congrArg Prod.fst hremove, fun h' => get_ite (get?_remove (run acts) h h')⟩
  · have hnone := get?_eq_none_of_ne hne
    exact ⟨get_of_none hnone, contains_of_none hnone, remove_of_none hnone,
      fun f => update_of_none hnone fun value => (value, f value)⟩
  · rw [← get?_eq_none_iff]
    constructor
    · exact get?_eq_none_of_ne
    · intro hnone value hv
      rw [get_of_none hnone] at hv
      cases hv

/-- A slot that was used again, and calls with an old handle, the null handle and a made-up one. -/
theorem table_is_finite_map_after_reuse :
    (run [.insert 'a', .insert 'b', .remove ⟨1⟩, .remove ⟨1⟩, .insert 'c', .update ⟨1⟩ fun _ => 'x',
      .remove .null, .update ⟨0x100000001⟩ fun _ => 'd', .remove ⟨0x700000002⟩]).IsFiniteMap :=
  table_is_finite_map _ (by decide)

end Conduit.HandleTable
