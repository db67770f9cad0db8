import Mathlib.Logic.Relation
import Conduit.Proofs.Deflate.Grammar

namespace Conduit.Deflate

open BitParser Bits Relation

/-- One step with room for one more byte. -/
def tick (framed : Bool) (c : Cursor) : Flow :=
  step framed .start 0 (c.history.size + 1) c

/-- A tick that leads on. A copy is broken off after each of its bytes. -/
def Leads (framed : Bool) (c d : Cursor) : Prop :=
  tick framed c = .next d ∨ tick framed c = .stop .full d

/-- Reading from `c` on stops in `d`. -/
def Halts (framed : Bool) (c : Cursor) (pause : Pause) (d : Cursor) : Prop :=
  pause ≠ .full ∧ ∃ mid, ReflTransGen (Leads framed) c mid ∧ tick framed mid = .stop pause d

variable {framed : Bool} {c d : Cursor}

theorem rightUnique_leads (framed : Bool) : Relator.RightUnique (Leads framed) := by
  rintro c d e (hd | hd) (he | he) <;> rw [hd] at he <;> cases he <;> rfl

theorem not_leads_of_stop {pause : Pause} (hp : pause ≠ .full)
    (h : tick framed c = .stop pause d) (e : Cursor) : ¬ Leads framed c e := by
  rintro (he | he) <;> rw [h] at he <;> cases he
  exact hp rfl

theorem Halts.of_leads {mid : Cursor} {pause : Pause} (h : ReflTransGen (Leads framed) c mid)
    (hm : Halts framed mid pause d) : Halts framed c pause d := by
  obtain ⟨hp, last, hl, hs⟩ := hm
  exact ⟨hp, last, h.trans hl, hs⟩

theorem Halts.after {mid : Cursor} {pause : Pause} (h : Halts framed c pause d)
    (hm : ReflTransGen (Leads framed) c mid) : Halts framed mid pause d := by
  obtain ⟨hp, last, hl, hs⟩ := h
  refine ⟨hp, last, ?_, hs⟩
  obtain hlast | hmid := hl.total_of_right_unique (rightUnique_leads framed) hm
  · obtain rfl | ⟨k, hk, -⟩ := hlast.cases_head
    · exact .refl
    · exact absurd hk (not_leads_of_stop hp hs k)
  · exact hmid

theorem Halts.unique {p q : Pause} {e : Cursor} (hd : Halts framed c p d)
    (he : Halts framed c q e) : p = q ∧ d = e := by
  obtain ⟨hp, m, hm, hd⟩ := hd
  obtain ⟨-, n, hn, he⟩ := he.after hm
  obtain rfl | ⟨k, hk, -⟩ := hn.cases_head
  · rw [hd] at he
    cases he
    exact ⟨rfl, rfl⟩
  · exact absurd hk (not_leads_of_stop hp hd k)

def Cursor.reading {α : Type} (c : Cursor) (p : Parser α) (next : α → BitReader → Flow) : Flow :=
  match p c.reader with
  | .value a rest => next a rest
  | .short _ => .stop .needInput c
  | .refused flaw rest => .stop (.refused flaw) { c with reader := rest }

def BlockHead.stage (last : Bool) : BlockHead → Stage
  | .stored length => .stored last length
  | .coded tables => .tokens last tables

def afterToken (framed last : Bool) (tables : Tables) (history : Array UInt8) (rest : BitReader) :
    Option Token → Cursor
  | none => ⟨rest, .afterBlock framed last, history⟩
  | some (.literal byte) => ⟨rest, .tokens last tables, history.push byte⟩
  | some (.copy length distance) => ⟨rest, .copying last tables length distance, history⟩

section Step

variable (framed : Bool) (sum : Adler) (base limit : Nat) (reader : BitReader)
  (history : Array UInt8)

theorem step_frameHeader :
    step framed sum base limit ⟨reader, .frameHeader, history⟩ =
      Cursor.reading ⟨reader, .frameHeader, history⟩ readFrameHeader fun _ rest =>
        .next ⟨rest, .blockHead, history⟩ := by
  rw [step, Cursor.reading]
  cases readFrameHeader reader <;> rfl

theorem step_blockHead :
    step framed sum base limit ⟨reader, .blockHead, history⟩ =
      Cursor.reading ⟨reader, .blockHead, history⟩ readBlockHead fun head rest =>
        .next ⟨rest, head.2.stage head.1, history⟩ := by
  rw [step, Cursor.reading]
  obtain ⟨⟨last, _ | _⟩, rest⟩ | _ | _ := readBlockHead reader <;> rfl

theorem step_tokens (last : Bool) (tables : Tables) (h : history.size < limit) :
    step framed sum base limit ⟨reader, .tokens last tables, history⟩ =
      Cursor.reading ⟨reader, .tokens last tables, history⟩ (readToken tables history.size)
        fun token rest => .next (afterToken framed last tables history rest token) := by
  rw [step, if_neg (Nat.not_le.mpr h), Cursor.reading]
  obtain ⟨_ | (_ | _), rest⟩ | _ | _ := readToken tables history.size reader <;> rfl

theorem step_trailer :
    step framed sum base limit ⟨reader, .trailer, history⟩ =
      Cursor.reading ⟨reader, .trailer, history⟩ readTrailer fun expected rest =>
        if expected = (sum.update (history.extract base history.size).toList).value.toNat then
          .stop .ended ⟨rest, .ended, history⟩
        else .stop (.refused .dataCheck) ⟨rest, .trailer, history⟩ := by
  rw [step, Cursor.reading]
  cases readTrailer reader <;> rfl

end Step

theorem run_of_stop {framed : Bool} {sum : Adler} {base limit : Nat} {c w : Cursor}
    {pause : Pause} (h : step framed sum base limit c = .stop pause w) :
    run framed sum base limit c = (pause, w) := by
  rw [run]
  split
  next hd => cases h.symm.trans hd
  next hd =>
    cases h.symm.trans hd
    rfl

section Leads

variable {r r' : BitReader} {bits rest : List Bool} {history : Array UInt8} {last : Bool}

theorem reading_of_yields {α : Type} {p : Parser α} {a : α} {stage : Stage}
    (h : p.Yields bits a rest) (hr : r.Holds bits) (next : α → BitReader → Flow) :
    ∃ r', r'.Holds rest ∧ Cursor.reading ⟨r, stage, history⟩ p next = next a r' := by
  obtain ⟨r', hp, hr'⟩ := h r hr
  exact ⟨r', hr', by simp only [Cursor.reading, hp]⟩

theorem tick_stored_cons (framed last : Bool) (history : Array UInt8) {byte : UInt8}
    {data : List UInt8} {left : Nat} (hr : r.Holds (ofBytes (byte :: data))) (h0 : left ≠ 0) :
    ∃ r', r'.Holds (ofBytes data) ∧ tick framed ⟨r, .stored last left, history⟩ =
      .next ⟨r', .stored last (left - 1), history ++ [byte]⟩ := by
  obtain ⟨r', hc, hr'⟩ := hr.copyBytes 1
  have hn : min (history.size + 1 - history.size) left = 1 := by omega
  refine ⟨r', hr', ?_⟩
  rw [tick, step, if_neg h0, if_neg (by dsimp only; omega)]
  dsimp only
  rw [hn, hc]
  rfl

theorem leads_stored (framed last : Bool) (history : Array UInt8) (data more : List UInt8)
    {left : Nat}
    (hr : r.Holds (ofBytes (data ++ more))) (hl : data.length ≤ left) :
    ∃ r', r'.Holds (ofBytes more) ∧
      ReflTransGen (Leads framed) ⟨r, .stored last left, history⟩
        ⟨r', .stored last (left - data.length), history ++ data⟩ := by
  induction data generalizing r left history with
  | nil => exact ⟨r, hr, by simpa using ReflTransGen.refl⟩
  | cons byte data ih =>
    rw [List.length_cons] at hl
    obtain ⟨mid, hm, ht⟩ := tick_stored_cons framed last history hr (by omega : left ≠ 0)
    obtain ⟨r', hr', hs⟩ := ih (history ++ [byte]) hm (by omega : data.length ≤ left - 1)
    refine ⟨r', hr', ReflTransGen.head (Or.inl ht) ?_⟩
    rw [List.length_cons, Nat.add_comm, Nat.sub_add_eq]
    convert hs using 2
    apply Array.toList_inj.mp
    simp

theorem tick_stored_nil (framed last : Bool) (history : Array UInt8) {left : Nat} (h0 : left ≠ 0)
    (hr : r.Holds []) :
    tick framed ⟨r, .stored last left, history⟩ =
      .stop .needInput ⟨r, .stored last left, history⟩ := by
  have hnone : r.Holds (ofBytes []) := hr
  obtain ⟨r', hc, -⟩ := hnone.copyBytes 1
  have hn : min (history.size + 1 - history.size) left = 1 := by omega
  rw [tick, step, if_neg h0, if_neg (by dsimp only; omega)]
  dsimp only
  rw [hn, hc]
  rfl

theorem extend_one_add (distance n : Nat) (history : Array UInt8) :
    extend distance (n + 1) history = (extend distance 1 history).bind (extend distance n) := by
  rw [extend, extend]
  cases history[history.size - distance]? <;> rfl

theorem leads_copying (framed last : Bool) (tables : Tables) (r : BitReader)
    {n length distance : Nat} {after : Array UInt8} (h0 : 0 < length) (hl : n ≤ length)
    (h : extend distance n history = some after) :
    ReflTransGen (Leads framed) ⟨r, .copying last tables length distance, history⟩
      (if n < length then ⟨r, .copying last tables (length - n) distance, after⟩
        else ⟨r, .tokens last tables, after⟩) := by
  induction n generalizing length history with
  | zero =>
    cases h
    rw [if_pos h0]
    exact ReflTransGen.refl
  | succ n ih =>
    rw [extend_one_add] at h
    obtain ⟨mid, hm, h⟩ := Option.bind_eq_some_iff.mp h
    have hmin : min length (history.size + 1 - history.size) = 1 := by omega
    have ht : Leads framed ⟨r, .copying last tables length distance, history⟩
        (if 1 < length then ⟨r, .copying last tables (length - 1) distance, mid⟩
          else ⟨r, .tokens last tables, mid⟩) := by
      rw [Leads, tick, step]
      dsimp only
      rw [hmin, hm]
      dsimp only
      split
      · exact Or.inr rfl
      · exact Or.inl rfl
    cases n with
    | zero =>
      cases h
      exact ReflTransGen.single ht
    | succ n =>
      rw [if_pos (by omega)] at ht
      have hrest := ih (by omega : 0 < length - 1) (by omega : n + 1 ≤ length - 1) h
      have hlt : n + 1 + 1 < length ↔ n + 1 < length - 1 := by omega
      have hsub : length - (n + 1 + 1) = length - 1 - (n + 1) := by omega
      rw [hsub]
      simp only [hlt]
      exact ReflTransGen.head ht hrest

end Leads

end Conduit.Deflate
