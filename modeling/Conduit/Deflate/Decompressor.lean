import Conduit.Deflate.Compressor
import Conduit.Deflate.Grammar

namespace Conduit.Deflate

inductive Stage where
  | frameHeader
  | blockHead
  | stored (last : Bool) (left : Nat)
  | tokens (last : Bool) (tables : Tables)
  | copying (last : Bool) (tables : Tables) (length distance : Nat)
  | trailer
  | ended

def Stage.isEnded : Stage → Bool
  | .ended => true
  | _ => false

def Stage.afterBlock (framed last : Bool) : Stage :=
  if last then (if framed then .trailer else .ended) else .blockHead

/-- The moving parts of a decompressor; `history` ends with the latest output. -/
structure Cursor where
  reader : BitReader
  stage : Stage
  history : Array UInt8

inductive Pause where
  | needInput
  | full
  | refused (flaw : Flaw)
  | ended

inductive Flow where
  | next (c : Cursor)
  | stop (pause : Pause) (c : Cursor)

/-- Appends `length` bytes, each the one that lies `distance` back. -/
def extend (distance : Nat) : (length : Nat) → Array UInt8 → Option (Array UInt8)
  | 0, history => some history
  | length + 1, history =>
    match history[history.size - distance]? with
    | some byte => extend distance length (history.push byte)
    | none => none

/-- Reads one item. `limit` is the size of the history when the output room is used up; `sum` covers
the history before `base`. -/
def step (framed : Bool) (sum : Adler) (base limit : Nat) (c : Cursor) : Flow :=
  let ⟨reader, stage, history⟩ := c
  match stage with
  | .frameHeader =>
    match readFrameHeader reader with
    | .value _ rest => .next ⟨rest, .blockHead, history⟩
    | .short _ => .stop .needInput ⟨reader, stage, history⟩
    | .refused flaw rest => .stop (.refused flaw) ⟨rest, stage, history⟩
  | .blockHead =>
    match readBlockHead reader with
    | .value (last, .stored length) rest => .next ⟨rest, .stored last length, history⟩
    | .value (last, .coded tables) rest => .next ⟨rest, .tokens last tables, history⟩
    | .short _ => .stop .needInput ⟨reader, stage, history⟩
    | .refused flaw rest => .stop (.refused flaw) ⟨rest, stage, history⟩
  | .stored last left =>
    if left = 0 then .next ⟨reader, .afterBlock framed last, history⟩
    else if limit ≤ history.size then .stop .full ⟨reader, stage, history⟩
    else
      match reader.copyBytes (min (limit - history.size) left) with
      | ([], _) => .stop .needInput ⟨reader, stage, history⟩
      | (byte :: bytes, rest) =>
        .next ⟨rest, .stored last (left - (bytes.length + 1)), history ++ (byte :: bytes)⟩
  | .tokens last tables =>
    if limit ≤ history.size then .stop .full ⟨reader, stage, history⟩
    else
      match readToken tables history.size reader with
      | .value none rest => .next ⟨rest, .afterBlock framed last, history⟩
      | .value (some (.literal byte)) rest => .next ⟨rest, stage, history.push byte⟩
      | .value (some (.copy length distance)) rest =>
        .next ⟨rest, .copying last tables length distance, history⟩
      | .short _ => .stop .needInput ⟨reader, stage, history⟩
      | .refused flaw rest => .stop (.refused flaw) ⟨rest, stage, history⟩
  | .copying last tables length distance =>
    let n := min length (limit - history.size)
    match extend distance n history with
    | none => .stop (.refused (.code .outOfRange)) ⟨reader, stage, #[]⟩
    | some history =>
      if n < length then .stop .full ⟨reader, .copying last tables (length - n) distance, history⟩
      else .next ⟨reader, .tokens last tables, history⟩
  | .trailer =>
    match readTrailer reader with
    | .value expected rest =>
      if expected = (sum.update (history.extract base history.size).toList).value.toNat then
        .stop .ended ⟨rest, .ended, history⟩
      else .stop (.refused .dataCheck) ⟨rest, stage, history⟩
    | .short _ => .stop .needInput ⟨reader, stage, history⟩
    | .refused flaw rest => .stop (.refused flaw) ⟨rest, stage, history⟩
  | .ended => .stop .ended ⟨reader, stage, history⟩

/-- Unread bits count twice, for a stage that can be left without reading one. -/
def Cursor.work (c : Cursor) : Nat :=
  2 * c.reader.available +
    match c.stage with
    | .stored _ _ => 1
    | .copying _ _ _ _ => 1
    | _ => 0

theorem work_afterBlock (reader : BitReader) (framed last : Bool) (history : Array UInt8) :
    (⟨reader, .afterBlock framed last, history⟩ : Cursor).work = 2 * reader.available := by
  cases framed <;> cases last <;> simp [Cursor.work, Stage.afterBlock]

theorem available_copyBytes {r rest : BitReader} {n : Nat} {byte : UInt8} {bytes : List UInt8}
    (h : r.copyBytes n = (byte :: bytes, rest)) : rest.available < r.available := by
  simp only [BitReader.copyBytes, Prod.mk.injEq] at h
  obtain ⟨hb, rfl⟩ := h
  have hl := congrArg List.length hb
  simp only [Array.length_toList, Array.size_extract, List.length_cons] at hl
  simp only [BitReader.available, hb, List.length_cons]
  omega

/-- A step that leads on has used up some of the work. -/
theorem work_lt_of_step {framed : Bool} {sum : Adler} {base limit : Nat} {c d : Cursor}
    (h : step framed sum base limit c = .next d) : d.work < c.work := by
  obtain ⟨reader, stage, history⟩ := c
  unfold step at h
  cases stage with
  | frameHeader =>
    dsimp only at h
    split at h <;> try contradiction
    next u rest hr =>
    have := consumes_readFrameHeader reader u rest hr
    cases h
    simp only [Cursor.work]
    omega
  | blockHead =>
    dsimp only at h
    split at h <;> try contradiction
    all_goals
      next rest hr =>
      have := consumes_readBlockHead reader _ rest hr
      cases h
      simp only [Cursor.work]
      omega
  | stored last left =>
    dsimp only at h
    split at h
    · cases h
      rw [work_afterBlock]
      simp [Cursor.work]
    · split at h
      · contradiction
      · split at h
        · contradiction
        · next byte bytes rest hr =>
          have := available_copyBytes hr
          cases h
          simp only [Cursor.work]
          omega
  | tokens last tables =>
    dsimp only at h
    split at h
    · contradiction
    · split at h <;> try contradiction
      · next rest hr =>
        have := consumes_readToken tables _ reader _ rest hr
        cases h
        rw [work_afterBlock]
        simp only [Cursor.work]
        omega
      · next rest hr =>
        have := consumes_readToken tables _ reader _ rest hr
        cases h
        simp only [Cursor.work]
        omega
      · next rest hr =>
        have := consumes_readToken tables _ reader _ rest hr
        cases h
        simp only [Cursor.work]
        omega
  | copying last tables length distance =>
    dsimp only at h
    split at h
    · contradiction
    · split at h
      · contradiction
      · cases h
        simp [Cursor.work]
  | trailer =>
    dsimp only at h
    split at h <;> try contradiction
    split at h <;> contradiction
  | ended => contradiction

def run (framed : Bool) (sum : Adler) (base limit : Nat) (c : Cursor) : Pause × Cursor :=
  match _h : step framed sum base limit c with
  | .next d => run framed sum base limit d
  | .stop pause d => (pause, d)
termination_by c.work
decreasing_by exact work_lt_of_step _h

inductive DecompressFault where
  | flaw (flaw : Flaw)
  /-- A call could neither take input nor give output. -/
  | noProgress
deriving DecidableEq, Repr

/-- The state of a stream that is being decompressed; `sum` covers all output so far. -/
structure Decompressor where
  framed : Bool
  cursor : Cursor
  sum : Adler

namespace Decompressor

def start (framed : Bool) : Decompressor where
  framed
  cursor := ⟨.empty, if framed then .frameHeader else .blockHead, #[]⟩
  sum := .start

def reset (d : Decompressor) : Decompressor :=
  start d.framed

/-- At most this many bytes can come out without further input. -/
def backlog (d : Decompressor) : Nat :=
  maxMatch * d.cursor.reader.available +
    match d.cursor.stage with
    | .copying _ _ length _ => length
    | _ => 0

/-- The most input that is looked at in one call: a byte of output needs at most two of input, and
block heads come on top. -/
def appetite (room : Nat) : Nat :=
  2 * room + 1024

def trim (history : Array UInt8) : Array UInt8 :=
  if 2 * windowSize ≤ history.size then history.extract (history.size - windowSize) history.size
  else history

/-- Closes a call that stopped with unread input: the untouched part of it goes back. -/
def giveBack (offered : Nat) (c : Cursor) : Nat × Cursor :=
  let ⟨reader, stage, history⟩ := c
  let returned := min reader.untouched offered
  (offered - returned, ⟨reader.unpush returned, stage, history⟩)

def conclude (framed : Bool) (sum : Adler) (base consumed : Nat) (c : Cursor) :
    Except DecompressFault Step × Decompressor :=
  let output := (c.history.extract base c.history.size).toList
  let finished := c.stage.isEnded
  let sum := sum.update output
  if output.isEmpty && consumed == 0 && !finished then (.error .noProgress, ⟨framed, c, sum⟩)
  else (.ok ⟨output, consumed, finished⟩, ⟨framed, c, sum⟩)

/-- The checksum after a refusal: only a look at the trailer brings it up to date first. -/
def sumRefused (flaw : Flaw) (sum : Adler) (output : List UInt8) : Adler :=
  if flaw = .dataCheck then sum.update output else sum

def process (d : Decompressor) (input : List UInt8) (room : Nat) :
    Except DecompressFault Step × Decompressor :=
  let ⟨framed, ⟨reader, stage, history⟩, sum⟩ := d
  if stage.isEnded then (.ok .ended, ⟨framed, ⟨reader, stage, history⟩, sum⟩)
  else
    let offered := input.take (appetite room)
    let history := trim history
    let base := history.size
    match run framed sum base (base + room) ⟨reader.compact.push offered, stage, history⟩ with
    | (.refused flaw, c) =>
      let output := (c.history.extract base c.history.size).toList
      (.error (.flaw flaw), ⟨framed, c, sumRefused flaw sum output⟩)
    | (.needInput, c) => conclude framed sum base offered.length c
    | (_, c) =>
      let (consumed, c) := giveBack offered.length c
      conclude framed sum base consumed c

end Decompressor

end Conduit.Deflate
