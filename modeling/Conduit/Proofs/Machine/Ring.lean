import Conduit.Proofs.Deflate.Calls
import Conduit.Proofs.Machine.Checked

namespace Conduit.Machine

open Deflate

structure Ring where
  bytes : Array UInt8
  /-- Where the next byte goes. -/
  position : Nat
  /-- How many of the latest bytes may be looked at. -/
  filled : Nat

namespace Ring

def start : Ring :=
  ⟨Array.replicate windowSize 0, 0, 0⟩

/-- Nothing may be looked at any more, though the table keeps it. -/
def forget (w : Ring) : Ring :=
  { w with position := 0, filled := 0 }

def write? (w : Ring) (byte : UInt8) : Option Ring := do
  let bytes ← put? w.bytes w.position byte
  return { w with bytes, position := (w.position + 1) % windowSize }

def push? (w : Ring) (byte : UInt8) : Option Ring := do
  let w ← w.write? byte
  return if w.filled < windowSize then { w with filled := w.filled + 1 } else w

def append? (w : Ring) (bytes : List UInt8) : Option Ring := do
  let w ← bytes.foldlM write? w
  return { w with filled := min (w.filled + bytes.length) windowSize }

/-- The byte so far back, which must be one that may be looked at. -/
def back? (w : Ring) (distance : Nat) : Option UInt8 :=
  if 1 ≤ distance ∧ distance ≤ w.filled then do
    let i ← sub? (w.position + windowSize) distance
    w.bytes[i % windowSize]?
  else none

/-- The table ends with the history, as far as it is large enough for that. -/
structure Holds (w : Ring) (history : Array UInt8) : Prop where
  size_eq : w.bytes.size = windowSize
  position_lt : w.position < windowSize
  entry : ∀ d, 1 ≤ d → d ≤ windowSize → d ≤ history.size →
    w.bytes[(w.position + windowSize - d) % windowSize]? = history[history.size - d]?

structure Shows (w : Ring) (history : Array UInt8) : Prop where
  holds : w.Holds history
  filled_eq : w.filled = min history.size windowSize

variable {w : Ring} {history : Array UInt8}

theorem shows_start : start.Shows #[] where
  holds := ⟨Array.size_replicate, by decide, fun d h1 _ h0 => absurd h1 (by simp at h0; omega)⟩
  filled_eq := rfl

theorem Shows.forget (h : w.Shows history) : w.forget.Shows #[] where
  holds := ⟨h.holds.size_eq, by simp only [Ring.forget]; decide,
    fun d h1 _ h0 => absurd h1 (by simp at h0; omega)⟩
  filled_eq := rfl

theorem Holds.write (h : w.Holds history) (byte : UInt8) :
    ∃ w', w.write? byte = some w' ∧ w'.filled = w.filled ∧ w'.Holds (history.push byte) := by
  have hposition := h.position_lt
  have hsize := h.size_eq
  rw [← hsize] at hposition
  refine ⟨⟨w.bytes.setIfInBounds w.position byte, (w.position + 1) % windowSize, w.filled⟩, ?_, rfl,
    ?_, Nat.mod_lt _ (by decide), ?_⟩
  · rw [write?, put?_of_lt byte hposition]
    rfl
  · rw [Array.size_setIfInBounds, hsize]
  · intro d h1 hw hd
    rw [Array.size_push] at hd ⊢
    have hentry := h.entry (d - 1)
    rw [hsize] at hposition
    simp only [windowSize] at hposition hw hentry hsize ⊢
    obtain rfl | h2 : d = 1 ∨ 2 ≤ d := by omega
    · have hi : ((w.position + 1) % 32768 + 32768 - 1) % 32768 = w.position := by omega
      rw [hi, Array.getElem?_setIfInBounds_self_of_lt (by omega), Nat.add_sub_cancel,
        Array.getElem?_push_size]
    · have hi : ((w.position + 1) % 32768 + 32768 - d) % 32768 =
          (w.position + 32768 - (d - 1)) % 32768 := by omega
      have hback : history.size + 1 - d = history.size - (d - 1) := by omega
      rw [hi, hback, Array.getElem?_setIfInBounds_ne (by omega),
        hentry (by omega) (by omega) (by omega), Array.getElem?_push_lt (by omega),
        Array.getElem?_eq_getElem (by omega)]

theorem Holds.writes (h : w.Holds history) (bytes : List UInt8) :
    ∃ w', bytes.foldlM write? w = some w' ∧ w'.filled = w.filled ∧
      w'.Holds (history ++ bytes) := by
  induction bytes generalizing w history with
  | nil => exact ⟨w, rfl, rfl, by simpa using h⟩
  | cons byte bytes ih =>
    obtain ⟨mid, hmid, hfilled, hh⟩ := h.write byte
    obtain ⟨w', hw', hfilled', hh'⟩ := ih hh
    refine ⟨w', ?_, hfilled'.trans hfilled, ?_⟩
    · rw [List.foldlM_cons, hmid]
      exact hw'
    · rwa [Array.appendList_cons]

theorem Shows.push (h : w.Shows history) (byte : UInt8) :
    ∃ w', w.push? byte = some w' ∧ w'.Shows (history.push byte) := by
  obtain ⟨mid, hmid, hfilled, hh⟩ := h.holds.write byte
  have hf := h.filled_eq
  refine ⟨if mid.filled < windowSize then { mid with filled := mid.filled + 1 } else mid, ?_,
    ?_, ?_⟩
  · rw [push?, hmid]
    rfl
  · split <;> exact ⟨hh.size_eq, hh.position_lt, hh.entry⟩
  · rw [Array.size_push]
    split
    · dsimp only
      omega
    · omega

theorem Shows.append (h : w.Shows history) (bytes : List UInt8) :
    ∃ w', w.append? bytes = some w' ∧ w'.Shows (history ++ bytes) := by
  obtain ⟨mid, hmid, hfilled, hh⟩ := h.holds.writes bytes
  have hf := h.filled_eq
  refine ⟨{ mid with filled := min (mid.filled + bytes.length) windowSize }, ?_,
    ⟨hh.size_eq, hh.position_lt, hh.entry⟩, ?_⟩
  · rw [append?, hmid]
    rfl
  · rw [size_append_list]
    dsimp only
    omega

theorem Shows.filled_le (h : w.Shows history) {w' : Ring} {history' : Array UInt8}
    (h' : w'.Shows history') (hs : history.size ≤ history'.size) : w.filled ≤ w'.filled := by
  rw [h.filled_eq, h'.filled_eq]
  omega

theorem Shows.trim (h : w.Shows history) : w.Shows (Decompressor.trim history) := by
  refine ⟨⟨h.holds.size_eq, h.holds.position_lt, fun d h1 hw hd => ?_⟩,
    h.filled_eq.trans (min_size_trim history)⟩
  obtain ⟨cut, hcut, -⟩ := trim_spec history
  have hsize := congrArg Array.size hcut
  rw [Array.size_append] at hsize
  have hentry := h.holds.entry d h1 hw (by omega)
  have hi : cut.size + (Decompressor.trim history).size - d - cut.size =
      (Decompressor.trim history).size - d := by omega
  rwa [hcut, Array.size_append, Array.getElem?_append_right (by omega), hi] at hentry

theorem Shows.back? (h : w.Shows history) {distance : Nat} (h1 : 1 ≤ distance)
    (hd : distance ≤ w.filled) :
    ∃ byte, w.back? distance = some byte ∧ history[history.size - distance]? = some byte := by
  have hf := h.filled_eq
  have hi : history.size - distance < history.size := by omega
  refine ⟨_, ?_, Array.getElem?_eq_getElem hi⟩
  rw [Ring.back?, if_pos ⟨h1, hd⟩, sub?_of_le (by omega), ← Array.getElem?_eq_getElem hi]
  exact h.holds.entry distance h1 (by omega) (by omega)

end Ring

end Conduit.Machine
