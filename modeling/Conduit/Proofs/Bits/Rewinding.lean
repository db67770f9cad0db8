import Conduit.Bits.Packing
import Conduit.Proofs.Replies

namespace Conduit

open Bits

/-- One use of a reader. Marks are counted back from the latest. -/
inductive BitReader.Use where
  | push (data : List UInt8)
  | bits (n : Nat)
  | align
  | copy (n : Nat)
  | mark
  | rewind (back : Nat)
  | compact
  | unpush (n : Nat)
  | clear

inductive BitReader.Answer where
  | done
  | number (value : Option Nat)
  | bytes (data : List UInt8)
deriving DecidableEq

open BitReader (Use Answer)

/-- A bit string with a place in it. The bits in front of the place can be gone back to; `marks`
says how many of them there were at earlier places, the latest first. -/
structure BitQueue where
  passed : List Bool := []
  ahead : List Bool := []
  marks : List Nat := []
deriving DecidableEq

namespace BitQueue

def pass (q : BitQueue) (n : Nat) : BitQueue :=
  { q with passed := q.passed ++ q.ahead.take n, ahead := q.ahead.drop n }

def goBack (q : BitQueue) (mark : Nat) : BitQueue :=
  { q with passed := q.passed.take mark, ahead := q.passed.drop mark ++ q.ahead }

/-- What comes of a use that is allowed. Bits come in whole bytes, so that the number of those ahead
tells where a byte begins. -/
def use? (q : BitQueue) : Use → Option (Answer × BitQueue)
  | .push data => some (.done, { q with ahead := q.ahead ++ ofBytes data })
  | .bits n =>
    if 32 < n then none
    else if q.ahead.length < n then some (.number none, q)
    else some (.number (some (toNat (q.ahead.take n))), q.pass n)
  | .align => some (.done, q.pass (q.ahead.length % 8))
  | .copy n =>
    if q.ahead.length % 8 = 0 then some (.bytes (pack (q.ahead.take (8 * n))), q.pass (8 * n))
    else none
  | .mark => some (.done, { q with marks := q.passed.length :: q.marks })
  | .rewind back =>
    match q.marks[back]? with
    | none => none
    | some mark => if mark ≤ q.passed.length then some (.done, q.goBack mark) else none
  | .compact => some (.done, { ahead := q.ahead })
  | .unpush n =>
    if n ≤ q.ahead.length / 8 then
      some (.done, { q with ahead := q.ahead.take (q.ahead.length - 8 * n) })
    else none
  | .clear => some (.done, {})

/-- The same bits ahead, with more to go back to. -/
def Extends (q' q : BitQueue) : Prop :=
  q'.ahead = q.ahead ∧ ∃ front older, q'.passed = front ++ q.passed ∧
    q'.marks = q.marks.map (front.length + ·) ++ older

theorem Extends.refl (q : BitQueue) : q.Extends q :=
  ⟨rfl, [], [], rfl, by simp⟩

theorem Extends.trans {a b d : BitQueue} (hab : a.Extends b) (hbd : b.Extends d) : a.Extends d := by
  obtain ⟨haheadb, front, older, hpassed, hmarks⟩ := hab
  obtain ⟨haheadd, front', older', hpassed', hmarks'⟩ := hbd
  refine ⟨haheadb.trans haheadd, front ++ front', older'.map (front.length + ·) ++ older, ?_, ?_⟩
  · rw [hpassed, hpassed', List.append_assoc]
  · rw [hmarks, hmarks', List.map_append, List.map_map, List.length_append, List.append_assoc]
    congr 2
    funext mark
    exact (Nat.add_assoc _ _ _).symm

theorem extends_cut (q : BitQueue) : q.Extends { ahead := q.ahead } :=
  ⟨rfl, q.passed, q.marks, (List.append_nil _).symm, rfl⟩

variable {q q' r : BitQueue} {a : Answer}

theorem Extends.pass (h : q'.Extends q) (n : Nat) : (q'.pass n).Extends (q.pass n) := by
  obtain ⟨hahead, front, older, hpassed, hmarks⟩ := h
  refine ⟨?_, front, older, ?_, hmarks⟩
  · rw [BitQueue.pass, BitQueue.pass, hahead]
  · rw [BitQueue.pass, BitQueue.pass, hahead, hpassed, List.append_assoc]

theorem Extends.goBack (h : q'.Extends q) {back mark : Nat} (hmark : q.marks[back]? = some mark)
    (hle : mark ≤ q.passed.length) : ∃ mark', q'.marks[back]? = some mark' ∧
      mark' ≤ q'.passed.length ∧ (q'.goBack mark').Extends (q.goBack mark) := by
  obtain ⟨hahead, front, older, hpassed, hmarks⟩ := h
  have hlt := (List.getElem?_eq_some_iff.mp hmark).1
  refine ⟨front.length + mark, ?_, ?_, ?_, front, older, ?_, hmarks⟩
  · rw [hmarks, List.getElem?_append_left (by simpa using hlt), List.getElem?_map, hmark]
    rfl
  · rw [hpassed, List.length_append]
    exact Nat.add_le_add_left hle _
  · rw [BitQueue.goBack, BitQueue.goBack, hpassed, hahead, List.drop_length_add_append]
  · rw [BitQueue.goBack, BitQueue.goBack, hpassed, List.take_length_add_append]

/-- What is allowed stays allowed, with the same answer, if there is more to go back to. -/
theorem Extends.use (h : q'.Extends q) {u : Use} (hu : q.use? u = some (a, r)) :
    ∃ r', q'.use? u = some (a, r') ∧ r'.Extends r := by
  have hahead := h.1
  obtain ⟨front, older, hpassed, hmarks⟩ := h.2
  cases u with
  | push data =>
    cases hu
    exact ⟨_, rfl, congrArg (· ++ ofBytes data) hahead, front, older, hpassed, hmarks⟩
  | bits n =>
    rw [use?] at hu ⊢
    rw [hahead]
    split at hu
    · cases hu
    next hn =>
      rw [if_neg hn]
      split at hu <;> cases hu
      next hshort =>
        rw [if_pos hshort]
        exact ⟨_, rfl, h⟩
      next hlong =>
        rw [if_neg hlong]
        exact ⟨_, rfl, h.pass n⟩
  | align =>
    cases hu
    rw [use?, hahead]
    exact ⟨_, rfl, h.pass _⟩
  | copy n =>
    rw [use?] at hu ⊢
    rw [hahead]
    split at hu <;> cases hu
    next haligned =>
      rw [if_pos haligned]
      exact ⟨_, rfl, h.pass _⟩
  | mark =>
    cases hu
    refine ⟨_, rfl, hahead, front, older, hpassed, ?_⟩
    dsimp only
    rw [hpassed, hmarks, List.length_append, List.map_cons, List.cons_append]
  | rewind back =>
    rw [use?] at hu
    split at hu
    · cases hu
    next mark hmark =>
      split at hu <;> cases hu
      next hle =>
        obtain ⟨mark', hmark', hle', hmore⟩ := h.goBack hmark hle
        rw [use?, hmark']
        dsimp only
        rw [if_pos hle']
        exact ⟨_, rfl, hmore⟩
  | compact =>
    cases hu
    rw [use?, hahead]
    exact ⟨_, rfl, .refl _⟩
  | unpush n =>
    rw [use?] at hu ⊢
    rw [hahead]
    split at hu <;> cases hu
    next hn =>
      rw [if_pos hn]
      exact ⟨_, rfl, rfl, front, older, hpassed, hmarks⟩
  | clear =>
    cases hu
    exact ⟨_, rfl, .refl _⟩

/-- Releasing the bytes in front changes no later answer. -/
theorem replies?_uncut {before after : List Use} {answers : List Answer}
    (h : replies? use? q (before ++ .compact :: after) = some (answers, r)) :
    ∃ r', replies? use? q (before ++ after) = some (answers.eraseIdx before.length, r') ∧
      r'.Extends r := by
  obtain ⟨first, mid, _, hfirst, hlast, rfl⟩ := replies?_append_eq_some.mp h
  obtain ⟨_, cut, last, hcut, hlast, rfl⟩ := replies?_cons_eq_some.mp hlast
  cases hcut
  obtain ⟨r', hr', hmore⟩ := replies?_of_related (fun h hu => h.use hu) mid.extends_cut hlast
  refine ⟨r', replies?_append_eq_some.mpr ⟨first, mid, last, hfirst, hr', ?_⟩, hmore⟩
  rw [← length_of_replies? hfirst, List.eraseIdx_append_of_length_le (Nat.le_refl _),
    Nat.sub_self, List.eraseIdx_zero, List.tail_cons]

end BitQueue

end Conduit
