import Conduit.Error
import Conduit.Handle.Basic

namespace Conduit

universe u v

structure Slot (α : Type u) where
  generation : UInt32
  value : Option α

/-- Slots with what is needed to use vacant ones again. -/
structure HandleTable (α : Type u) where
  slots : Array (Slot α)
  /-- Vacant slots, the latest first. -/
  free : List Nat
  /-- How many slots are occupied. -/
  size : Nat

namespace HandleTable

variable {α : Type u} {β : Type v}

def empty : HandleTable α :=
  ⟨#[], [], 0⟩

def isEmpty (t : HandleTable α) : Bool :=
  t.size == 0

/-- Stores a value under a new handle. The number of its slot is cut to 32 bits. -/
def insert (t : HandleTable α) (value : α) : Handle × HandleTable α :=
  let ⟨slots, free, size⟩ := t
  match free with
  | [] =>
    (.ofSlot (.ofNat slots.size) 0, ⟨slots.push ⟨0, some value⟩, [], size + 1⟩)
  | index :: free =>
    let generation := (slots[index]?.map Slot.generation).getD 0
    (.ofSlot (.ofNat index) generation,
      ⟨slots.setIfInBounds index ⟨generation, some value⟩, free, size + 1⟩)

def slot? (t : HandleTable α) (h : Handle) : Option (Nat × Slot α) :=
  match h.index? with
  | none => none
  | some index =>
    match t.slots[index]? with
    | none => none
    | some slot => if slot.generation = h.generation then some (index, slot) else none

def get? (t : HandleTable α) (h : Handle) : Option α :=
  (t.slot? h).bind fun (_, slot) => slot.value

def get (t : HandleTable α) (h : Handle) : Except Error α :=
  match t.get? h with
  | some value => .ok value
  | none => .error (.useAfterFree h.raw)

def contains (t : HandleTable α) (h : Handle) : Bool :=
  (t.get? h).isSome

/-- Replaces the value behind a handle by the result of a function and gives what else it returns.
-/
def update (t : HandleTable α) (h : Handle) (f : α → β × α) : Except Error β × HandleTable α :=
  match t.slot? h with
  | some (index, ⟨generation, some value⟩) =>
    let (result, value) := f value
    (.ok result, { t with slots := t.slots.setIfInBounds index ⟨generation, some value⟩ })
  | _ => (.error (.useAfterFree h.raw), t)

/-- Removes the value behind a handle; its slot becomes vacant under the next generation. -/
def remove (t : HandleTable α) (h : Handle) : Option α × HandleTable α :=
  match t.slot? h with
  | some (index, ⟨generation, some value⟩) =>
    (some value,
      ⟨t.slots.setIfInBounds index ⟨generation + 1, none⟩, index :: t.free, t.size - 1⟩)
  | _ => (none, t)

end HandleTable

end Conduit
