import Conduit.Proofs.Deflate.Outcomes
import Conduit.Proofs.Machine.Grammar
import Conduit.Proofs.Machine.Ring

namespace Conduit.Machine

open Deflate BitParser Checked

inductive Stage where
  | frameHeader
  | blockHead
  | stored (last : Bool) (left : Nat)
  | tokens (last : Bool) (decoders : Decoders)
  | copying (last : Bool) (decoders : Decoders) (length distance : Nat)
  | trailer
  | ended

def Stage.isEnded : Stage → Bool
  | .ended => true
  | _ => false

def Stage.afterBlock (framed last : Bool) : Stage :=
  if last then (if framed then .trailer else .ended) else .blockHead

def Head.stage (last : Bool) : Head → Stage
  | .stored length => .stored last length
  | .coded decoders => .tokens last decoders

/-- What a call works with. `out` is what the caller's buffer is filled with so far; the checksum
covers the first `synced` bytes of it. -/
structure Desk where
  reader : BitReader
  stage : Stage
  ring : Ring
  sum : Adler
  synced : Nat
  out : Array UInt8

inductive Move where
  | next (k : Desk)
  | stop (pause : Pause) (k : Desk)

namespace Desk

def reading {α : Type} (k : Desk) (g : Checked Flaw α) (next : α → BitReader → Option Move) :
    Option Move :=
  match g k.reader with
  | none => none
  | some (.value a reader) => next a reader
  | some (.short reader) => some (.stop .needInput { k with reader })
  | some (.refused flaw reader) => some (.stop (.refused flaw) { k with reader })

def emit? (room : Nat) (k : Desk) (byte : UInt8) : Option Desk :=
  if k.out.size < room then do
    let ring ← k.ring.push? byte
    return { k with ring, out := k.out.push byte }
  else none

def repeat? (room distance : Nat) : (n : Nat) → Desk → Option Desk
  | 0, k => some k
  | n + 1, k => do
    let byte ← k.ring.back? distance
    let k ← k.emit? room byte
    repeat? room distance n k

def pass? (room : Nat) (last : Bool) (left : Nat) (k : Desk) : Option Move := do
  let space ← sub? room k.out.size
  let n := min space left
  if k.out.size + n ≤ room then
    let (bytes, reader) ← k.reader.copy? n
    if bytes.length = 0 then return .stop .needInput { k with reader }
    else
      let ring ← k.ring.append? bytes
      let left ← sub? left bytes.length
      return .next { k with reader, stage := .stored last left, ring, out := k.out ++ bytes }
  else none

def sync? (k : Desk) : Option Desk :=
  if k.synced ≤ k.out.size then
    some { k with
      sum := k.sum.update (k.out.extract k.synced k.out.size).toList, synced := k.out.size }
  else none

def work (k : Desk) : Nat :=
  2 * k.reader.available +
    match k.stage with
    | .stored _ _ => 1
    | .copying _ _ _ _ => 1
    | _ => 0

end Desk

def step? (framed : Bool) (room : Nat) (k : Desk) : Option Move :=
  match k.stage with
  | .frameHeader => k.reading frameHeader fun _ reader =>
      some (.next { k with reader, stage := .blockHead })
  | .blockHead => k.reading blockHead fun head reader =>
      some (.next { k with reader, stage := head.2.stage head.1 })
  | .stored last left =>
    if left = 0 then some (.next { k with stage := .afterBlock framed last })
    else if k.out.size = room then some (.stop .full k)
    else k.pass? room last left
  | .tokens last decoders =>
    if k.out.size = room then some (.stop .full k)
    else k.reading (token decoders k.ring.filled) fun token reader =>
      match token with
      | none => some (.next { k with reader, stage := .afterBlock framed last })
      | some (.literal byte) => (({ k with reader } : Desk).emit? room byte).map .next
      | some (.copy length distance) =>
        some (.next { k with reader, stage := .copying last decoders length distance })
  | .copying last decoders length distance => do
    let space ← sub? room k.out.size
    let n := min length space
    let k ← k.repeat? room distance n
    if n < length then
      let length ← sub? length n
      return .stop .full { k with stage := .copying last decoders length distance }
    else return .next { k with stage := .tokens last decoders }
  | .trailer => k.reading trailer fun expected reader => do
      let k ← ({ k with reader } : Desk).sync?
      if expected = k.sum.value.toNat then return .stop .ended { k with stage := .ended }
      else return .stop (.refused .dataCheck) k
  | .ended => some (.stop .ended k)

/-- Reads until a step does not lead on, and takes back what ran short. A step that leads on without
using up work would never end, which is `none`, too. -/
def run? (framed : Bool) (room : Nat) (k : Desk) : Option (Pause × Desk) :=
  match step? framed room k with
  | none => none
  | some (.next k') => if k'.work < k.work then run? framed room k' else none
  | some (.stop .needInput k') => do
    let reader ← k'.reader.rewind? k.reader.position
    return (.needInput, { k' with reader })
  | some (.stop pause k') => some (pause, k')
termination_by k.work

/-- The machine's stage is the decompressor's. Stored data lies on a byte boundary, and a copy goes
back no further than may be looked at. -/
inductive Stage.Shows (position filled : Nat) : Stage → Deflate.Stage → Prop
  | frameHeader : Shows position filled .frameHeader .frameHeader
  | blockHead : Shows position filled .blockHead .blockHead
  | stored (last : Bool) (left : Nat) (aligned : position % 8 = 0) :
      Shows position filled (.stored last left) (.stored last left)
  | tokens (last : Bool) {decoders : Decoders} {tables : Tables}
      (renders : decoders.Renders tables) :
      Shows position filled (.tokens last decoders) (.tokens last tables)
  | copying (last : Bool) {decoders : Decoders} {tables : Tables} (length : Nat) {distance : Nat}
      (renders : decoders.Renders tables) (pos : 1 ≤ distance) (le : distance ≤ filled) :
      Shows position filled (.copying last decoders length distance)
        (.copying last tables length distance)
  | trailer : Shows position filled .trailer .trailer
  | ended : Shows position filled .ended .ended

namespace Desk

/-- The desk shows where the decompressor stands in a call that began with a history of `base` bytes
and has room for `room` more. -/
structure Shows (room base : Nat) (k : Desk) (c : Cursor) : Prop where
  reader_eq : k.reader = c.reader
  within : k.reader.Within
  stage : k.stage.Shows k.reader.position k.ring.filled c.stage
  ring : k.ring.Shows c.history
  base_le : base ≤ c.history.size
  size_le : c.history.size ≤ base + room
  out_eq : k.out.toList = c.history.toList.drop base

structure Raw (sum : Adler) (k : Desk) : Prop where
  synced_eq : k.synced = 0
  sum_eq : k.sum = sum

structure Sums (sum : Adler) (k : Desk) : Prop where
  synced_le : k.synced ≤ k.out.size
  sum_eq : k.sum.update (k.out.extract k.synced k.out.size).toList = sum.update k.out.toList

def Settled (sum : Adler) (k : Desk) : Pause → Prop
  | .refused flaw =>
    flaw.Reported ∧ k.sum = Deflate.Decompressor.sumRefused flaw sum k.out.toList
  | _ => k.Sums sum

inductive Echoes (room base : Nat) (sum : Adler) (k : Desk) (c : Cursor) :
    Flow → Option Move → Prop
  | next {k' : Desk} {d : Cursor} (shown : k'.Shows room base d) (raw : k'.Raw sum) :
      Echoes room base sum k c (.next d) (some (.next k'))
  | starved {reader : BitReader} (same : reader.buffer = k.reader.buffer) :
      Echoes room base sum k c (.stop .needInput c) (some (.stop .needInput { k with reader }))
  | stop {pause : Pause} {k' : Desk} {d : Cursor} (ne : pause ≠ .needInput)
      (shown : k'.Shows room base d) (settled : k'.Settled sum pause) :
      Echoes room base sum k c (.stop pause d) (some (.stop pause k'))

end Desk

section Stage

variable {position filled : Nat} {m : Stage} {stage : Deflate.Stage}

theorem Stage.Shows.mono (h : m.Shows position filled stage) {filled' : Nat}
    (hle : filled ≤ filled') : m.Shows position filled' stage := by
  cases h with
  | frameHeader => exact .frameHeader
  | blockHead => exact .blockHead
  | stored last left aligned => exact .stored last left aligned
  | tokens last renders => exact .tokens last renders
  | copying last length renders pos le => exact .copying last length renders pos (le.trans hle)
  | trailer => exact .trailer
  | ended => exact .ended

theorem Stage.Shows.congr (h : m.Shows position filled stage) {position' : Nat}
    (hp : position' % 8 = position % 8) : m.Shows position' filled stage := by
  cases h with
  | frameHeader => exact .frameHeader
  | blockHead => exact .blockHead
  | stored last left aligned => exact .stored last left (hp.trans aligned)
  | tokens last renders => exact .tokens last renders
  | copying last length renders pos le => exact .copying last length renders pos le
  | trailer => exact .trailer
  | ended => exact .ended

theorem Stage.Shows.isEnded_eq (h : m.Shows position filled stage) : m.isEnded = stage.isEnded := by
  cases h <;> rfl

theorem Stage.shows_afterBlock (position filled : Nat) (framed last : Bool) :
    (Stage.afterBlock framed last).Shows position filled (.afterBlock framed last) := by
  cases last with
  | false => exact .blockHead
  | true =>
    cases framed with
    | false => exact .ended
    | true => exact .trailer

theorem Head.Renders.shows {head : BlockHead} {m : Head} (h : m.Renders head) (last : Bool)
    (ha : ∀ length, head = .stored length → position % 8 = 0) :
    (m.stage last).Shows position filled (head.stage last) := by
  cases h with
  | stored length => exact .stored last length (ha length rfl)
  | coded h => exact .tokens last h

end Stage

namespace Desk

variable {framed : Bool} {room base : Nat} {sum : Adler} {k : Desk} {c : Cursor}

theorem Raw.sums (h : k.Raw sum) : k.Sums sum where
  synced_le := h.synced_eq ▸ Nat.zero_le _
  sum_eq := by rw [h.synced_eq, h.sum_eq, Array.extract_size]

theorem Sums.sync? (h : k.Sums sum) :
    k.sync? = some { k with sum := sum.update k.out.toList, synced := k.out.size } := by
  rw [Desk.sync?, if_pos h.synced_le, h.sum_eq]

theorem sums_of_synced (hs : k.synced = k.out.size) (h : k.sum = sum.update k.out.toList) :
    k.Sums sum where
  synced_le := hs.le
  sum_eq := by simp [hs, h]

section Shows

theorem Shows.size_out (h : k.Shows room base c) : k.out.size = c.history.size - base := by
  have := congrArg List.length h.out_eq
  simpa using this

theorem Shows.work_eq (h : k.Shows room base c) : k.work = c.work := by
  have hstage := h.stage
  rw [work, Cursor.work, h.reader_eq]
  generalize k.stage = m, c.stage = stage at hstage ⊢
  cases hstage <;> rfl

theorem Shows.move (h : k.Shows room base c) {m : Stage} {stage : Deflate.Stage}
    {reader : BitReader} (hw : reader.Within) (hs : m.Shows reader.position k.ring.filled stage) :
    Shows room base { k with reader, stage := m } ⟨reader, stage, c.history⟩ :=
  ⟨rfl, hw, hs, h.ring, h.base_le, h.size_le, h.out_eq⟩

theorem Shows.sync (h : k.Shows room base c) (sum : Adler) (synced : Nat) :
    Shows room base { k with sum, synced } c :=
  ⟨h.reader_eq, h.within, h.stage, h.ring, h.base_le, h.size_le, h.out_eq⟩

theorem Shows.emit (h : k.Shows room base c) (hroom : c.history.size < base + room)
    (byte : UInt8) :
    ∃ ring, k.emit? room byte = some { k with ring, out := k.out.push byte } ∧
      Shows room base { k with ring, out := k.out.push byte }
        { c with history := c.history.push byte } := by
  have hsize := h.size_out
  have hbase := h.base_le
  obtain ⟨ring, hpush, hring⟩ := h.ring.push byte
  have hgrows : c.history.size ≤ (c.history.push byte).size := by
    rw [Array.size_push]
    exact Nat.le_succ _
  refine ⟨ring, ?_, h.reader_eq, h.within, h.stage.mono (h.ring.filled_le hring hgrows), hring,
    h.base_le.trans hgrows, ?_, ?_⟩
  · rw [emit?, if_pos (by omega), hpush]
    rfl
  · rw [Array.size_push]
    omega
  · rw [Array.toList_push, Array.toList_push, h.out_eq,
      List.drop_append_of_le_length (by rwa [Array.length_toList])]

theorem Shows.append (h : k.Shows room base c) (bytes : List UInt8)
    (hroom : c.history.size + bytes.length ≤ base + room) :
    ∃ ring, k.ring.append? bytes = some ring ∧
      Shows room base { k with ring, out := k.out ++ bytes }
        { c with history := c.history ++ bytes } := by
  obtain ⟨ring, happend, hring⟩ := h.ring.append bytes
  have hsize := size_append_list c.history bytes
  have hgrows : c.history.size ≤ (c.history ++ bytes).size := hsize ▸ Nat.le_add_right _ _
  refine ⟨ring, happend, h.reader_eq, h.within, h.stage.mono (h.ring.filled_le hring hgrows), hring,
    h.base_le.trans hgrows, hsize ▸ hroom, ?_⟩
  rw [Array.toList_appendList, Array.toList_appendList, h.out_eq,
    List.drop_append_of_le_length (by rw [Array.length_toList]; exact h.base_le)]

theorem Shows.repeat (h : k.Shows room base c) {distance : Nat} (h1 : 1 ≤ distance)
    (hd : distance ≤ k.ring.filled) {n : Nat} (hn : c.history.size + n ≤ base + room) :
    ∃ history ring out, extend distance n c.history = some history ∧
      k.repeat? room distance n = some { k with ring, out } ∧
      Shows room base { k with ring, out } { c with history } := by
  induction n generalizing k c with
  | zero => exact ⟨c.history, k.ring, k.out, rfl, rfl, h⟩
  | succ n ih =>
    obtain ⟨byte, hback, hbyte⟩ := h.ring.back? h1 hd
    obtain ⟨ring, hemit, hshown⟩ := h.emit (by omega) byte
    have hsize : (c.history.push byte).size = c.history.size + 1 := Array.size_push _
    have hfilled := h.ring.filled_le hshown.ring (hsize ▸ Nat.le_succ _)
    obtain ⟨history, ring', out, hextend, hrepeat, hshown'⟩ := ih hshown (hd.trans hfilled)
      (by dsimp only; omega)
    refine ⟨history, ring', out, ?_, ?_, hshown'⟩
    · rw [extend, hbyte]
      exact hextend
    · rw [repeat?, hback, Option.bind_eq_bind, Option.bind_some, hemit]
      exact hrepeat

end Shows

section Step

variable {reader : BitReader} {history : Array UInt8} {last : Bool} {tables : Tables}
  {decoders : Decoders} {left length distance : Nat}

theorem Shows.out_eq_extract (h : k.Shows room base c) :
    (c.history.extract base c.history.size).toList = k.out.toList :=
  (toList_extract_size _ _).trans h.out_eq.symm

theorem Shows.full_iff (h : k.Shows room base c) :
    k.out.size = room ↔ base + room ≤ c.history.size := by
  have hsize := h.size_out
  have hbase := h.base_le
  have hle := h.size_le
  omega

theorem Shows.space (h : k.Shows room base c) :
    sub? room k.out.size = some (base + room - c.history.size) := by
  have hsize := h.size_out
  have hbase := h.base_le
  have hle := h.size_le
  rw [sub?_of_le (by omega)]
  congr 1
  omega

theorem Shows.full (h : k.Shows room base c) (hraw : k.Raw sum) :
    Echoes room base sum k c (.stop .full c) (some (.stop .full k)) :=
  .stop (by simp) h hraw.sums

theorem Shows.reading {α β : Type} {R : α → β → Prop} {g : Checked Flaw β} {p : Parser α}
    {post : α → Prop} {next : α → BitReader → Flow} {next' : β → BitReader → Option Move}
    (h : k.Shows room base c) (hraw : k.Raw sum) (hf : Follows R g p)
    (hm : Meets p post Flaw.Grammatical)
    (hstage : ∀ position, k.stage.Shows position k.ring.filled c.stage)
    (hnext : ∀ a b reader, p c.reader = .value a reader → R a b → post a → reader.Within →
      Echoes room base sum k c (next a reader) (next' b reader)) :
    Echoes room base sum k c (c.reading p next) (k.reading g next') := by
  have hecho := hf k.reader h.within
  have hpost := hm k.reader
  rw [Cursor.reading, Desk.reading]
  rw [← h.reader_eq] at hnext ⊢
  generalize p k.reader = x, g k.reader = y at hecho hpost hnext ⊢
  cases hecho with
  | value related within same => exact hnext _ _ _ rfl related (hpost.1 _ _ rfl) within
  | short within same => exact .starved same
  | refused within same =>
    obtain ⟨hreported, hne⟩ := hpost.2 _ _ rfl
    refine .stop (by simp) (h.move within (hstage _)) ⟨hreported, ?_⟩
    rw [Deflate.Decompressor.sumRefused, if_neg hne]
    exact hraw.sum_eq

theorem Shows.step_frameHeader (h : k.Shows room base ⟨reader, .frameHeader, history⟩)
    (hraw : k.Raw sum) (hk : k.stage = .frameHeader) :
    Echoes room base sum k ⟨reader, .frameHeader, history⟩
      (Deflate.step framed sum base (base + room) ⟨reader, .frameHeader, history⟩)
      (step? framed room k) := by
  rw [Deflate.step_frameHeader, step?, hk]
  exact h.reading hraw follows_frameHeader meets_readFrameHeader (fun _ => hk ▸ .frameHeader)
    fun _ _ _ _ _ _ hw => .next (h.move hw .blockHead) ⟨hraw.synced_eq, hraw.sum_eq⟩

theorem Shows.step_blockHead (h : k.Shows room base ⟨reader, .blockHead, history⟩)
    (hraw : k.Raw sum) (hk : k.stage = .blockHead) :
    Echoes room base sum k ⟨reader, .blockHead, history⟩
      (Deflate.step framed sum base (base + room) ⟨reader, .blockHead, history⟩)
      (step? framed room k) := by
  rw [Deflate.step_blockHead, step?, hk]
  refine h.reading hraw follows_blockHead meets_readBlockHead (fun _ => hk ▸ .blockHead) ?_
  rintro ⟨_, head⟩ ⟨last, m⟩ rest hread ⟨rfl, hm⟩ - hw
  refine .next (h.move hw (hm.shows last fun length he => ?_)) ⟨hraw.synced_eq, hraw.sum_eq⟩
  dsimp only at he
  subst he
  exact position_readBlockHead hread

theorem Shows.step_stored (h : k.Shows room base ⟨reader, .stored last left, history⟩)
    (hraw : k.Raw sum) (hk : k.stage = .stored last left) (aligned : k.reader.position % 8 = 0) :
    Echoes room base sum k ⟨reader, .stored last left, history⟩
      (Deflate.step framed sum base (base + room) ⟨reader, .stored last left, history⟩)
      (step? framed room k) := by
  obtain rfl : reader = k.reader := h.reader_eq.symm
  have hfull : k.out.size = room ↔ base + room ≤ history.size := h.full_iff
  rw [Deflate.step, step?, hk]
  dsimp only
  split
  · exact .next (h.move h.within (Stage.shows_afterBlock _ _ _ _))
      ⟨hraw.synced_eq, hraw.sum_eq⟩
  by_cases hroom : base + room ≤ history.size
  · rw [if_pos hroom, if_pos (hfull.mpr hroom)]
    exact h.full hraw
  rw [if_neg hroom, if_neg (hfull.not.mpr hroom), pass?, h.space]
  obtain ⟨hcopy, hw, ha, hsame⟩ := h.within.copy? aligned (min (base + room - history.size) left)
  have hsize := h.size_out
  have hbase := h.base_le
  have hle := h.size_le
  have hlen := k.reader.length_copyBytes_le (min (base + room - history.size) left)
  simp only [Option.bind_eq_bind, Option.bind_some]
  rw [if_pos (by dsimp only at hsize hbase; omega), hcopy, Option.bind_some]
  rcases hbytes : k.reader.copyBytes (min (base + room - history.size) left) with
    ⟨_ | ⟨byte, bytes⟩, rest⟩ <;> rw [hbytes] at hw ha hsame hlen
  · exact .starved hsame
  · rw [List.length_cons] at hlen
    obtain ⟨ring, happend, hshown⟩ := h.append (byte :: bytes) (by
      rw [List.length_cons]
      dsimp only
      omega)
    dsimp only
    rw [List.length_cons, if_neg (Nat.succ_ne_zero _), happend, Option.bind_some,
      sub?_of_le (by omega)]
    exact .next (hshown.move hw (.stored last _ ha)) ⟨hraw.synced_eq, hraw.sum_eq⟩

theorem Shows.step_tokens (h : k.Shows room base ⟨reader, .tokens last tables, history⟩)
    (hraw : k.Raw sum) (hk : k.stage = .tokens last decoders) (hd : decoders.Renders tables) :
    Echoes room base sum k ⟨reader, .tokens last tables, history⟩
      (Deflate.step framed sum base (base + room) ⟨reader, .tokens last tables, history⟩)
      (step? framed room k) := by
  have hfull : k.out.size = room ↔ base + room ≤ history.size := h.full_iff
  have hreach : min history.size windowSize = min k.ring.filled windowSize := by
    have hfilled := h.ring.filled_eq
    dsimp only at hfilled
    omega
  rw [step?, hk]
  dsimp only
  by_cases hroom : base + room ≤ history.size
  · rw [Deflate.step, if_pos hroom, if_pos (hfull.mpr hroom)]
    exact h.full hraw
  -- the machine does not know how much output there was before what its ring holds
  rw [Deflate.step_tokens _ _ _ _ _ _ _ _ (Nat.not_le.mp hroom), if_neg (hfull.not.mpr hroom),
    readToken_congr tables hreach]
  refine h.reading hraw (hd.follows_token _) (meets_readToken hd.sound _)
    (fun _ => hk ▸ .tokens last hd) ?_
  rintro _ token rest - rfl htoken hw
  obtain - | ⟨byte⟩ | ⟨length, distance⟩ := token
  · exact .next (h.move hw (Stage.shows_afterBlock _ _ _ _)) ⟨hraw.synced_eq, hraw.sum_eq⟩
  · obtain ⟨ring, hemit, hshown⟩ :=
      (h.move hw (.tokens last hd)).emit (Nat.not_le.mp hroom) byte
    dsimp only
    rw [hemit]
    exact .next hshown ⟨hraw.synced_eq, hraw.sum_eq⟩
  · obtain ⟨-, -, h1, -, hle⟩ := htoken _ rfl
    exact .next (h.move hw (.copying last length hd h1 hle)) ⟨hraw.synced_eq, hraw.sum_eq⟩

theorem Shows.step_copying
    (h : k.Shows room base ⟨reader, .copying last tables length distance, history⟩)
    (hraw : k.Raw sum) (hk : k.stage = .copying last decoders length distance)
    (hd : decoders.Renders tables) (h1 : 1 ≤ distance) (hle : distance ≤ k.ring.filled) :
    Echoes room base sum k ⟨reader, .copying last tables length distance, history⟩
      (Deflate.step framed sum base (base + room)
        ⟨reader, .copying last tables length distance, history⟩)
      (step? framed room k) := by
  obtain rfl : reader = k.reader := h.reader_eq.symm
  have hsize := h.size_le
  dsimp only at hsize
  obtain ⟨after, ring, out, hextend, hrepeat, hshown⟩ :=
    h.repeat h1 hle (n := min length (base + room - history.size)) (by dsimp only; omega)
  dsimp only at hextend
  have hfilled := h.ring.filled_le hshown.ring (extend_spec hextend).1.length_le
  rw [Deflate.step, step?, hk, hextend, h.space]
  dsimp only
  rw [Option.bind_eq_bind, Option.bind_some, hrepeat, Option.bind_eq_bind, Option.bind_some]
  split
  next hlt =>
    rw [sub?_of_le hlt.le]
    refine .stop (by simp) (hshown.move hshown.within ?_)
      (Raw.sums ⟨hraw.synced_eq, hraw.sum_eq⟩)
    exact .copying last _ hd h1 (hle.trans hfilled)
  · exact .next (hshown.move hshown.within (.tokens last hd)) ⟨hraw.synced_eq, hraw.sum_eq⟩

theorem Shows.step_trailer (h : k.Shows room base ⟨reader, .trailer, history⟩)
    (hraw : k.Raw sum) (hk : k.stage = .trailer) :
    Echoes room base sum k ⟨reader, .trailer, history⟩
      (Deflate.step framed sum base (base + room) ⟨reader, .trailer, history⟩)
      (step? framed room k) := by
  have hout : (history.extract base history.size).toList = k.out.toList := h.out_eq_extract
  rw [Deflate.step_trailer, step?, hk, hout]
  refine h.reading hraw follows_trailer meets_readTrailer (fun _ => hk ▸ .trailer) ?_
  rintro _ expected rest - rfl - hw
  have hshown := h.move hw .trailer
  have hsums : Sums sum { k with reader := rest, stage := .trailer } :=
    Raw.sums ⟨hraw.synced_eq, hraw.sum_eq⟩
  rw [hsums.sync?, Option.bind_eq_bind, Option.bind_some]
  split
  · exact .stop (by simp) ((hshown.sync _ _).move hw .ended) (sums_of_synced rfl rfl)
  · refine .stop (by simp) (hshown.sync _ _) ⟨by decide, ?_⟩
    rw [Deflate.Decompressor.sumRefused, if_pos rfl]

/-- A step of the machine shows what a step of the decompressor does. -/
theorem Shows.step (h : k.Shows room base c) (hraw : k.Raw sum) (framed : Bool) :
    Echoes room base sum k c (Deflate.step framed sum base (base + room) c)
      (step? framed room k) := by
  obtain ⟨reader, stage, history⟩ := c
  have hstage := h.stage
  generalize hk : k.stage = m at hstage
  cases hstage with
  | frameHeader => exact h.step_frameHeader hraw hk
  | blockHead => exact h.step_blockHead hraw hk
  | stored last left aligned => exact h.step_stored hraw hk aligned
  | tokens last renders => exact h.step_tokens hraw hk renders
  | copying last length renders pos le => exact h.step_copying hraw hk renders pos le
  | trailer => exact h.step_trailer hraw hk
  | ended =>
    rw [Deflate.step, step?, hk]
    exact .stop (by simp) h hraw.sums

/-- The machine comes to the end of its loop where the decompressor stops, and has neither looked
outside a table nor come below zero on the way. -/
theorem Shows.run (h : k.Shows room base c) (hraw : k.Raw sum) (framed : Bool) {pause : Pause}
    {d : Cursor} (hrun : Deflate.run framed sum base (base + room) c = (pause, d)) :
    ∃ k', run? framed room k = some (pause, k') ∧ k'.Shows room base d ∧
      k'.Settled sum pause := by
  induction hn : c.work using Nat.strong_induction_on generalizing k c with
  | _ n ih =>
    have hecho := h.step hraw framed
    rw [Deflate.run] at hrun
    rw [run?]
    split at hrun
    next mid hmid =>
      rw [hmid] at hecho
      generalize step? framed room k = move at hecho
      cases hecho with | next shown raw =>
      -- both have the same work left, so the machine may go on
      have hless := work_lt_of_step hmid
      obtain ⟨k', hk', hshown⟩ := ih mid.work (hn ▸ hless) shown raw hrun rfl
      refine ⟨k', ?_, hshown⟩
      dsimp only
      rwa [if_pos (by rwa [shown.work_eq, h.work_eq])]
    next hstop =>
      cases hrun
      rw [hstop] at hecho
      generalize step? framed room k = move at hecho
      cases hecho with
      | starved same =>
        refine ⟨k, ?_, h, hraw.sums⟩
        dsimp only
        rw [h.within.rewind? same]
        rfl
      | stop ne shown settled =>
        cases pause with
        | needInput => exact absurd rfl ne
        | full => exact ⟨_, rfl, shown, settled⟩
        | refused flaw => exact ⟨_, rfl, shown, settled⟩
        | ended => exact ⟨_, rfl, shown, settled⟩

end Step

end Desk

end Conduit.Machine
