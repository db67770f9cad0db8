import Conduit.Proofs.Compression.Using
import Conduit.Proofs.Deflate.Stalling
import Conduit.Proofs.Machine.Stepping

namespace Conduit

open Deflate

def Deflate.Decompressor.act (d : Decompressor) :
    Session.Act → Except DecompressFault (Option Step) × Decompressor
  | .call input room =>
    let (answer, d) := d.process input room
    (answer.map some, d)
  | .reset => (.ok none, d.reset)

namespace Machine

structure Decompressor where
  framed : Bool
  reader : BitReader
  stage : Stage
  ring : Ring
  sum : Adler

def Stage.first (framed : Bool) : Stage :=
  if framed then .frameHeader else .blockHead

namespace Desk

def leave (framed : Bool) (k : Desk) : Decompressor :=
  ⟨framed, k.reader, k.stage, k.ring, k.sum⟩

def giveBack? (offered : Nat) (k : Desk) : Option (Nat × Desk) := do
  let untouched ← k.reader.untouched?
  let returned := min untouched offered
  let reader ← k.reader.unpush? returned
  let consumed ← sub? offered returned
  return (consumed, { k with reader })

def conclude (framed : Bool) (consumed : Nat) (k : Desk) :
    Except DecompressFault Step × Decompressor :=
  if k.out.size = 0 ∧ consumed = 0 ∧ k.stage.isEnded = false then
    (.error .noProgress, k.leave framed)
  else (.ok ⟨k.out.toList, consumed, k.stage.isEnded⟩, k.leave framed)

def spare? (framed : Bool) (offered : Nat) (k : Desk) :
    Option (Except DecompressFault Step × Decompressor) := do
  let k ← k.sync?
  let (consumed, k) ← k.giveBack? offered
  return k.conclude framed consumed

def close? (framed : Bool) (offered : Nat) (k : Desk) :
    Pause → Option (Except DecompressFault Step × Decompressor)
  | .refused flaw => some (.error (.flaw flaw), k.leave framed)
  | .needInput => k.sync?.map (conclude framed offered)
  | .full | .ended => k.spare? framed offered

end Desk

namespace Decompressor

def start (framed : Bool) : Decompressor :=
  ⟨framed, .empty, .first framed, .start, .start⟩

/-- A new stream of the same framing. The ring keeps what is in it. -/
def reset (m : Decompressor) : Decompressor :=
  ⟨m.framed, .empty, .first m.framed, m.ring.forget, .start⟩

def process? (m : Decompressor) (input : List UInt8) (room : Nat) :
    Option (Except DecompressFault Step × Decompressor) :=
  if m.stage.isEnded then some (.ok .ended, m)
  else do
    let offered := input.take (Deflate.Decompressor.appetite room)
    let reader ← m.reader.compact?
    let reader ← reader.push? offered
    let (pause, k) ← run? m.framed room ⟨reader, m.stage, m.ring, m.sum, 0, #[]⟩
    k.close? m.framed offered.length pause

def act? (m : Decompressor) :
    Session.Act → Option (Except DecompressFault (Option Step) × Decompressor)
  | .call input room => do
    let (answer, m) ← m.process? input room
    return (answer.map some, m)
  | .reset => some (.ok none, m.reset)

structure Shows (m : Decompressor) (d : Deflate.Decompressor) : Prop where
  framed_eq : m.framed = d.framed
  reader_eq : m.reader = d.cursor.reader
  within : m.reader.Within
  stage : m.stage.Shows m.reader.position m.ring.filled d.cursor.stage
  ring : m.ring.Shows d.cursor.history
  sum_eq : m.sum = d.sum

end Decompressor

namespace Desk

variable {room base : Nat} {sum : Adler} {k : Desk} {c : Cursor}

theorem Shows.leave (h : k.Shows room base c) (framed : Bool) (hs : k.sum = sum) :
    (k.leave framed).Shows ⟨framed, c, sum⟩ :=
  ⟨rfl, h.reader_eq, h.within, h.stage, h.ring, hs⟩

theorem Shows.giveBack (h : k.Shows room base c) (offered : Nat) :
    ∃ reader, k.giveBack? offered =
        some ((Deflate.Decompressor.giveBack offered c).1, { k with reader }) ∧
      Shows room base { k with reader } (Deflate.Decompressor.giveBack offered c).2 := by
  obtain ⟨reader, stage, history⟩ := c
  obtain rfl : reader = k.reader := h.reader_eq.symm
  obtain ⟨hgive, hw⟩ := h.within.unpush? (Nat.min_le_left k.reader.untouched offered)
  refine ⟨_, ?_, h.move hw h.stage⟩
  rw [giveBack?, h.within.untouched?]
  simp only [Option.bind_eq_bind, Option.bind_some, hgive]
  rw [sub?_of_le (Nat.min_le_right _ _)]
  rfl

theorem Shows.conclude (h : k.Shows room base c) (framed : Bool) (consumed : Nat)
    (hs : k.sum = sum.update k.out.toList) :
    (k.conclude framed consumed).1 =
        (Deflate.Decompressor.conclude framed sum base consumed c).1 ∧
      (k.conclude framed consumed).2.Shows
        (Deflate.Decompressor.conclude framed sum base consumed c).2 := by
  have hempty : k.out.size = 0 ↔ k.out.toList = [] := by
    rw [← Array.length_toList, List.length_eq_zero_iff]
  rw [conclude_eq, ← h.out_eq, ← h.stage.isEnded_eq, Desk.conclude]
  simp only [hempty]
  split
  · exact ⟨rfl, h.leave framed hs⟩
  · exact ⟨rfl, h.leave framed hs⟩

theorem Shows.spare (h : k.Shows room base c) (hs : k.Sums sum) (framed : Bool) (offered : Nat) :
    ∃ m, k.spare? framed offered =
        some ((Deflate.Decompressor.conclude framed sum base
          (Deflate.Decompressor.giveBack offered c).1
          (Deflate.Decompressor.giveBack offered c).2).1, m) ∧
      m.Shows (Deflate.Decompressor.conclude framed sum base
        (Deflate.Decompressor.giveBack offered c).1
        (Deflate.Decompressor.giveBack offered c).2).2 := by
  obtain ⟨reader, hgive, hshown⟩ :=
    (h.sync (sum.update k.out.toList) k.out.size).giveBack offered
  obtain ⟨hanswer, hm⟩ := hshown.conclude framed (Deflate.Decompressor.giveBack offered c).1 rfl
  rw [spare?, hs.sync?, Option.bind_eq_bind, Option.bind_some, hgive]
  exact ⟨_, congrArg (fun x => some (x, _)) hanswer, hm⟩

theorem conclude_ne_flaw (framed : Bool) (sum : Adler) (base consumed : Nat) (c : Cursor)
    (flaw : Flaw) :
    (Deflate.Decompressor.conclude framed sum base consumed c).1 ≠ .error (.flaw flaw) := by
  rw [conclude_eq]
  split <;> nofun

theorem Shows.close {d : Deflate.Decompressor} (h : k.Shows room base c) {pause : Pause}
    (hs : k.Settled d.sum pause) (offered : Nat) :
    ∃ m, k.close? d.framed offered pause = some ((d.close base offered (pause, c)).1, m) ∧
      m.Shows (d.close base offered (pause, c)).2 ∧
      (d.close base offered (pause, c)).1 ≠ .error (.flaw (.code .outOfRange)) := by
  cases pause with
  | refused flaw =>
    obtain ⟨hreported, hsum⟩ := hs
    refine ⟨_, rfl, ?_, fun he => hreported (DecompressFault.flaw.inj (Except.error.inj he))⟩
    rw [Deflate.Decompressor.close, h.out_eq_extract]
    exact h.leave _ hsum
  | needInput =>
    obtain ⟨hanswer, hshown⟩ :=
      (h.sync (d.sum.update k.out.toList) k.out.size).conclude d.framed offered rfl
    rw [close?, hs.sync?]
    exact ⟨_, congrArg (fun x => some (x, _)) hanswer, hshown, conclude_ne_flaw _ _ _ _ _ _⟩
  | full =>
    obtain ⟨m, hspare, hm⟩ := h.spare hs d.framed offered
    exact ⟨m, hspare, hm, conclude_ne_flaw _ _ _ _ _ _⟩
  | ended =>
    obtain ⟨m, hspare, hm⟩ := h.spare hs d.framed offered
    exact ⟨m, hspare, hm, conclude_ne_flaw _ _ _ _ _ _⟩

end Desk

namespace Decompressor

variable {m : Decompressor} {d : Deflate.Decompressor}

theorem shows_start (framed : Bool) : (start framed).Shows (.start framed) := by
  refine ⟨rfl, rfl, Nat.zero_le _, ?_, Ring.shows_start, rfl⟩
  cases framed with
  | false => exact .blockHead
  | true => exact .frameHeader

theorem Shows.reset (h : m.Shows d) : m.reset.Shows d.reset := by
  rw [Decompressor.reset, Deflate.Decompressor.reset, h.framed_eq]
  exact { shows_start d.framed with ring := h.ring.forget }

theorem Shows.begin (h : m.Shows d) (data : List UInt8) (room : Nat) :
    Desk.Shows room (Deflate.Decompressor.trim d.cursor.history).size
      ⟨m.reader.compact.push data, m.stage, m.ring, m.sum, 0, #[]⟩
      ⟨d.cursor.reader.compact.push data, d.cursor.stage,
        Deflate.Decompressor.trim d.cursor.history⟩ where
  reader_eq := by rw [h.reader_eq]
  within := (h.within.holds.compact.push data).within
  stage := h.stage.congr m.reader.position_compact_mod
  ring := h.ring.trim
  base_le := Nat.le_refl _
  size_le := Nat.le_add_right _ _
  out_eq := by simp

theorem Shows.process (h : m.Shows d) (input : List UInt8) (room : Nat) :
    ∃ m', m.process? input room = some ((d.process input room).1, m') ∧
      m'.Shows (d.process input room).2 ∧
      (d.process input room).1 ≠ .error (.flaw (.code .outOfRange)) := by
  rw [process?, h.stage.isEnded_eq]
  cases hended : d.cursor.stage.isEnded with
  | true =>
    rw [Deflate.Decompressor.process_of_isEnded hended]
    exact ⟨m, rfl, h, nofun⟩
  | false =>
    have hbegun := h.begin (input.take (Deflate.Decompressor.appetite room)) room
    rw [Deflate.Decompressor.process_eq_close hended]
    obtain ⟨k, hrun, hshown, hsettled⟩ := hbegun.run ⟨rfl, h.sum_eq⟩ d.framed rfl
    obtain ⟨m', hclose, hm⟩ :=
      hshown.close hsettled (input.take (Deflate.Decompressor.appetite room)).length
    refine ⟨m', ?_, hm⟩
    rw [if_neg (by decide), h.within.compact?]
    simp only [Option.bind_eq_bind, Option.bind_some]
    rw [h.within.holds.compact.within.push?, Option.bind_some, h.framed_eq, hrun]
    exact hclose

theorem Shows.act (h : m.Shows d) (a : Session.Act) :
    ∃ m', m.act? a = some ((d.act a).1, m') ∧ m'.Shows (d.act a).2 := by
  cases a with
  | call input room =>
    obtain ⟨m', hm', hshown, -⟩ := h.process input room
    refine ⟨m', ?_, hshown⟩
    rw [act?, hm']
    rfl
  | reset => exact ⟨_, rfl, h.reset⟩

theorem Shows.act_ne (h : m.Shows d) (a : Session.Act) :
    (d.act a).1 ≠ .error (.flaw (.code .outOfRange)) := by
  cases a with
  | call input room =>
    obtain ⟨-, -, -, hne⟩ := h.process input room
    rw [Deflate.Decompressor.act]
    dsimp only
    generalize (d.process input room).1 = answer at hne
    cases answer with
    | ok step => nofun
    | error fault => exact fun he => hne (by cases he; rfl)
  | reset => nofun

theorem Shows.answers (h : ∃ m : Decompressor, m.Shows d) (a : Session.Act) :
    (d.act a).1 ≠ .error (.flaw (.code .outOfRange)) ∧
      ∃ m : Decompressor, m.Shows (d.act a).2 := by
  obtain ⟨m, hm⟩ := h
  obtain ⟨m', -, hshown⟩ := hm.act a
  exact ⟨hm.act_ne a, m', hshown⟩

end Decompressor

end Machine

/-- No input makes a decompressor fail but by a fault that it reports. The machine stops for good at
an index outside a table, a difference below zero, a position beyond its buffer, a touched byte that
it would give back, a look behind the latest reset and a loop without end; yet through all calls and
resets it gives the decompressor's answers, and none of these is a look outside a table. -/
theorem hostile_input_reported (framed : Bool) (acts : List Session.Act) :
    ∃ m, replies? Machine.Decompressor.act? (.start framed) acts =
        some ((replies Decompressor.act (.start framed) acts).1, m) ∧
      m.Shows (replies Decompressor.act (.start framed) acts).2 ∧
      ∀ answer ∈ (replies Decompressor.act (.start framed) acts).1,
        answer ≠ .error (.flaw (.code .outOfRange)) := by
  have hstart := Machine.Decompressor.shows_start framed
  obtain ⟨m, hm, hshown⟩ := replies?_of_acts Machine.Decompressor.Shows.act hstart acts
  exact ⟨m, hm, hshown, forall_replies Machine.Decompressor.Shows.answers ⟨_, hstart⟩ acts⟩

end Conduit
