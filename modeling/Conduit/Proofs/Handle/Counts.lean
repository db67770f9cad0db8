import Conduit.Proofs.Handle.Slots

namespace Conduit.HandleTable

variable {α β : Type*} {t : HandleTable α} {h : Handle} {value : α}

def count (p : α → Bool) (t : HandleTable α) : Nat :=
  t.slots.countP fun slot => slot.value.any p

theorem count_le_occupied (p : α → Bool) (t : HandleTable α) : t.count p ≤ t.occupied := by
  apply Array.countP_mono_left
  rintro ⟨generation, value⟩ - hp
  cases value with
  | none => cases hp
  | some value => rfl

theorem Sound.count_insert (hs : t.Sound) (p : α → Bool) (value : α) :
    (t.insert value).2.count p = t.count p + (if p value then 1 else 0) := by
  cases hfree : t.free with
  | nil =>
    rw [insert_of_free_nil hfree]
    exact Array.countP_push
  | cons i rest =>
    obtain ⟨generation, hslot⟩ := (hs.mem_free_iff i).mp (hfree ▸ List.mem_cons_self)
    rw [insert_of_free_cons hfree hslot]
    exact countP_set hslot (fun slot => slot.value.any p) ⟨generation, some value⟩

theorem count_update (hv : t.get? h = some value) (p : α → Bool) (f : α → β × α) :
    (t.update h f).2.count p + (if p value then 1 else 0) =
      t.count p + (if p (f value).2 then 1 else 0) := by
  obtain ⟨i, -, hslot, hupdate⟩ := update_of_some hv f
  rw [hupdate]
  exact countP_set hslot (fun slot => slot.value.any p) ⟨h.generation, some (f value).2⟩

theorem count_remove (hv : t.get? h = some value) (p : α → Bool) :
    (t.remove h).2.count p + (if p value then 1 else 0) = t.count p := by
  obtain ⟨i, -, hslot, hremove⟩ := remove_of_some hv
  rw [hremove]
  exact countP_set hslot (fun slot => slot.value.any p) ⟨h.generation + 1, none⟩

theorem Sound.occupied_insert (hs : t.Sound) (value : α) :
    (t.insert value).2.occupied = t.occupied + 1 :=
  hs.count_insert (fun _ => true) value

theorem occupied_update (hv : t.get? h = some value) (f : α → β × α) :
    (t.update h f).2.occupied = t.occupied :=
  Nat.add_right_cancel (count_update hv (fun _ => true) f)

theorem occupied_remove (hv : t.get? h = some value) :
    (t.remove h).2.occupied + 1 = t.occupied :=
  count_remove hv fun _ => true

end Conduit.HandleTable
