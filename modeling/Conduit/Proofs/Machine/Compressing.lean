import Conduit.Proofs.Deflate.Windowing
import Conduit.Proofs.Machine.Lines
import Conduit.Proofs.Machine.Resetting
import Conduit.Proofs.Machine.Searching

namespace Conduit

open Deflate
open Deflate.Compressor (Act Ledger)

namespace Machine.Encoding

def slice? (bytes : Array UInt8) (start stop : Nat) : Option (Array UInt8) :=
  if start ≤ stop ∧ stop ≤ bytes.size then some (bytes.extract start stop) else none

def trim? (w : Window) : Option Window := do
  if windowSize < w.cursor then
    let excess ← sub? w.cursor windowSize
    let bytes ← slice? w.bytes excess w.bytes.size
    return ⟨bytes, ← index? (w.base + excess), ← sub? w.cursor excess⟩
  else return w

def write? (level : Nat) (w : Window) (chains : Chains) (writer : BitWriter) (n : Nat)
    (last : Bool) : Option (Window × Chains × BitWriter) := do
  let stop ← index? (w.cursor + n)
  let data ← slice? w.bytes w.cursor stop
  let window ← trim? { w with cursor := stop }
  if level = 0 then return (window, chains, writeStored writer data.toList last)
  else
    let (tokens, chains) ←
      Search.tokenize? (.ofLevel level) w.bytes w.base stop w.cursor chains #[]
    return (window, chains, writeBlock writer tokens.toList data.toList last)

def pending? (w : Window) : Option Nat :=
  sub? w.bytes.size w.cursor

def gather? (c : Compressor) (input : List UInt8) : Option (Nat × Compressor) := do
  let taken := input.take (← sub? blockSize (← pending? c.window))
  let window : Window := { c.window with bytes := c.window.bytes ++ taken }
  let sum := c.sum.update taken
  if (← pending? window) = blockSize then
    let (window, chains, writer) ← write? c.level window c.chains c.writer blockSize false
    return (taken.length, { c with window, chains, writer, sum })
  else return (taken.length, { c with window, sum })

def close? (c : Compressor) : Option Compressor := do
  let (window, chains, writer) ←
    write? c.level c.window c.chains c.writer (← pending? c.window) true
  let writer := writer.align
  let writer := if c.framed then writer.putBytes (frameTrailer c.sum) else writer
  return { c with window, chains, writer, phase := .draining }

def take? (c : Compressor) (output input : List UInt8) (room : Nat) :
    Option (Except CompressFault Step × Compressor) :=
  match c.phase with
  | .draining => some (.error .inputAfterEnd, c)
  | _ =>
    if 0 < c.backlog then some (.ok ⟨output, 0, false⟩, c)
    else do
      let (consumed, c) ← gather? c input
      let (more, c) := c.drain (← sub? room output.length)
      return (.ok ⟨output ++ more, consumed, false⟩, c)

def finish? (c : Compressor) (output : List UInt8) (room : Nat) :
    Option (Except CompressFault Step × Compressor) :=
  match c.phase with
  | .gathering => do
    let c ← close? c
    let (more, c) := c.drain (← sub? room output.length)
    let (step, c) := c.settle (output ++ more)
    return (.ok step, c)
  | _ =>
    let (step, c) := c.settle output
    some (.ok step, c)

def process? (c : Compressor) (input : List UInt8) (room : Nat) :
    Option (Except CompressFault Step × Compressor) :=
  match c.phase with
  | .ended => some (.ok .ended, c)
  | _ =>
    let (output, c) := c.drain room
    match input with
    | [] => finish? c output room
    | byte :: rest => take? c output (byte :: rest) room

def use? (c : Compressor) : Act → Option (Option (Except CompressFault Step) × Compressor)
  | .process input room => do
    let (result, c) ← process? c input room
    return (some result, c)
  | .reset => some (none, clear c)

section Write

variable {level n : Nat} {taken : List UInt8} {chains : Chains} {w : Window}

theorem slice?_of_le {bytes : Array UInt8} {start stop : Nat} (h : start ≤ stop)
    (hs : stop ≤ bytes.size) : slice? bytes start stop = some (bytes.extract start stop) :=
  if_pos ⟨h, hs⟩

theorem trim?_eq (hle : w.cursor ≤ w.bytes.size) (hfits : w.base + w.bytes.size < 2 ^ 64) :
    trim? w = some w.trim := by
  obtain ⟨bytes, base, cursor⟩ := w
  dsimp only at hle hfits
  rw [trim?, Window.trim]
  dsimp only
  split
  next hlong =>
    obtain ⟨excess, hexcess⟩ : ∃ excess, excess = cursor - windowSize := ⟨_, rfl⟩
    have hcursor : cursor - excess = windowSize := by omega
    rw [sub?_of_le (Nat.le_of_lt hlong), ← hexcess]
    simp only [Option.bind_eq_bind, Option.bind_some]
    rw [slice?_of_le (by omega) (Nat.le_refl _), index?_of_lt (by omega), sub?_of_le (by omega),
      hcursor]
    rfl
  next => rfl

theorem write?_eq (writer : BitWriter) (last : Bool) (hle : n ≤ taken.length)
    (hwhole : n % blockSize = 0) (hlong : taken.length ≤ n + blockSize)
    (h : Traced (marks level (taken.take n)) n chains) (hfits : taken.length < 2 ^ 64) :
    write? level (.ofStream taken n) chains writer (taken.length - n) last =
      Compressor.writeNext level (.ofStream taken n) chains writer (taken.length - n) last := by
  have hbefore : Traced (marks level taken) n chains :=
    h.congr fun p hp => marks_take hwhole hp
  obtain ⟨bytes, base, cursor, hw, hplace, hsize, -, hmarks⟩ :=
    ofStream_spec level hle hwhole hlong
  have hstop : cursor + (taken.length - n) ≤ bytes.size := by omega
  rw [← hplace] at hbefore
  rw [hw, write?, Compressor.writeNext]
  dsimp only
  rw [index?_of_lt (by omega)]
  simp only [Option.bind_eq_bind, Option.bind_some]
  rw [slice?_of_le (Nat.le_add_right _ _) hstop, trim?_eq hstop (by dsimp only; omega)]
  simp only [Option.bind_some]
  split
  next => rfl
  next hlevel =>
    rw [Search.tokenize?_eq _ hbefore (Nat.le_add_right _ _) hstop (by omega) (hmarks hlevel)]
    cases tokenize (.ofLevel level) bytes base (cursor + (taken.length - n)) cursor chains #[] <;>
      rfl

end Write

section Calls

variable {c : Compressor} {level n : Nat} {taken input : List UInt8}

theorem pending?_eq {w : Window} (h : w.cursor ≤ w.bytes.size) : pending? w = some w.pending :=
  sub?_of_le h

theorem gather?_eq (h : c.Stores level taken n) (hphase : c.phase = .gathering)
    (hfits : taken.length + input.length < 2 ^ 64) :
    ∃ k c', c.gather input = (.ok k, c') ∧ gather? c input = some (k, c') := by
  obtain ⟨k, c', hgather, -, -⟩ := h.gather hphase input
  refine ⟨k, c', hgather, ?_⟩
  have hcursor := h.cursor_le
  have hpending : c.window.pending ≤ blockSize := by
    have hlt := h.pending_lt
    rw [h.window_eq, Window.pending_ofStream h.le]
    omega
  rw [Compressor.gather_eq_absorb] at hgather
  rw [gather?, pending?_eq hcursor, Option.bind_eq_bind, Option.bind_some, sub?_of_le hpending,
    Option.bind_eq_bind, Option.bind_some]
  change (pending? (c.window.absorb input)).bind _ = _
  rw [pending?_eq (Window.cursor_le_absorb hcursor input), Option.bind_some]
  split at hgather
  next hfull =>
    obtain ⟨more, hmore, hagain, habsorb, hle, hlong, htraced⟩ := h.absorb input
    have hmoreLength : more.length ≤ input.length := by
      rw [← hagain]
      exact List.length_take_le' _ _
    have hpend := Window.pending_ofStream hle
    rw [← habsorb, hfull] at hpend
    have hwrite := write?_eq c.writer false hle (h.whole hphase) hlong htraced
      (by rw [List.length_append]; omega)
    rw [← habsorb, ← hpend, ← h.level_eq] at hwrite
    rw [if_pos hfull]
    change (write? c.level (c.window.absorb input) c.chains c.writer blockSize false).bind _ = _
    rw [hwrite]
    split at hgather
    next => cases hgather
    next hsome =>
      cases hgather
      rw [hsome]
      rfl
  next hpart =>
    rw [if_neg hpart]
    cases hgather
    rfl

theorem close?_eq (h : c.Stores level taken n) (hphase : c.phase = .gathering)
    (hfits : taken.length < 2 ^ 64) :
    ∃ c', c.close = (.ok (), c') ∧ close? c = some c' := by
  obtain ⟨c', hclose, -⟩ := h.close hphase
  refine ⟨c', hclose, ?_⟩
  have hwrite := write?_eq c.writer true h.le (h.whole hphase) h.pending_lt.le h.traced hfits
  rw [← Window.pending_ofStream h.le, ← h.window_eq, ← h.level_eq] at hwrite
  rw [Compressor.close] at hclose
  dsimp only at hclose
  rw [close?, pending?_eq h.cursor_le, Option.bind_eq_bind, Option.bind_some, hwrite]
  split at hclose
  next => cases hclose
  next hsome =>
    cases hclose
    rw [hsome]
    rfl

theorem take?_eq (h : c.Stores level taken n) (hphase : c.phase ≠ .ended) {output : List UInt8}
    {room : Nat} (hroom : output.length ≤ room)
    (hfits : taken.length + input.length < 2 ^ 64) :
    take? c output input room = some (c.take output input room) := by
  rw [take?, Compressor.take]
  cases hp : c.phase with
  | ended => exact absurd hp hphase
  | draining => rfl
  | gathering =>
    dsimp only
    split
    next => rfl
    next =>
      obtain ⟨k, c', hgather, hmachine⟩ := gather?_eq h hp hfits
      rw [hgather, hmachine, Option.bind_eq_bind, Option.bind_some, sub?_of_le hroom]
      rfl

theorem finish?_eq (h : c.Stores level taken n) {output : List UInt8} {room : Nat}
    (hroom : output.length ≤ room) (hfits : taken.length < 2 ^ 64) :
    finish? c output room = some (c.finish output room) := by
  rw [finish?, Compressor.finish]
  cases hp : c.phase with
  | gathering =>
    obtain ⟨c', hclose, hmachine⟩ := close?_eq h hp hfits
    dsimp only
    rw [hclose, hmachine, Option.bind_eq_bind, Option.bind_some, sub?_of_le hroom]
    rfl
  | _ => rfl

theorem process?_eq (h : c.Stores level taken n) (room : Nat)
    (hfits : taken.length + input.length < 2 ^ 64) :
    process? c input room = some (c.process input room) := by
  have hdrained := h.drain room
  have hroom := c.length_drain_le room
  rw [process?, Compressor.process]
  cases hp : c.phase with
  | ended => rfl
  | _ =>
    cases input with
    | nil => exact finish?_eq hdrained hroom hfits
    | cons byte rest => exact take?_eq hdrained (by simp [Compressor.drain, hp]) hroom hfits

end Calls

end Machine.Encoding

namespace Deflate.Compressor

def use (c : Compressor) : Act → Option (Except CompressFault Step) × Compressor
  | .process input room =>
    let (result, c) := c.process input room
    (some result, c)
  | .reset => (none, c.reset)

def Act.offered : Act → List UInt8
  | .process input _ => input
  | .reset => []

namespace Ledger

variable {level : Nat} {l : Ledger}

theorem compressor_act (l : Ledger) (a : Act) : (l.act a).compressor = (l.compressor.use a).2 := by
  cases a <;> rfl

theorem split_act (l : Ledger) (input : List UInt8) (room : Nat) :
    (l.act (.process input room)).split =
      l.split ++ ((l.compressor.portion? input room).map Portion.data).getD [] :=
  rfl

theorem length_taken_act_le (l : Ledger) (a : Act) :
    (l.act a).taken.length ≤ l.taken.length + a.offered.length := by
  cases a with
  | process input room =>
    rw [act]
    dsimp only
    rw [List.length_append]
    exact Nat.add_le_add_left (List.length_take_le' _ _) _
  | reset => exact Nat.zero_le _

theorem Keeps.use?_eq (h : l.Keeps level) (a : Act)
    (hfits : l.taken.length + a.offered.length < 2 ^ 64) :
    Machine.Encoding.use? l.compressor a = some (l.compressor.use a) ∧
      (l.compressor.use a).1 ≠ some (.error .outOfRange) := by
  cases a with
  | process input room =>
    obtain ⟨result, c', hprocess, hrange, -⟩ := h.stores.process input room
    have hmachine : Machine.Encoding.process? l.compressor input room =
        some (l.compressor.process input room) :=
      Machine.Encoding.process?_eq h.stores room hfits
    rw [hprocess] at hmachine
    rw [Machine.Encoding.use?, hmachine, use, hprocess]
    exact ⟨rfl, fun hr => hrange (Option.some.inj hr)⟩
  | reset =>
    have hsuits : l.compressor.Suits l.compressor.level l.compressor.framed :=
      ⟨rfl, rfl, h.stores.traced.sized⟩
    rw [Machine.Encoding.use?, Machine.clear_eq_reset hsuits]
    exact ⟨rfl, by simp [use]⟩

theorem Keeps.uses?_eq (h : l.Keeps level) {acts : List Act}
    (hfits : l.taken.length + (acts.flatMap Act.offered).length < 2 ^ 64) :
    replies? Machine.Encoding.use? l.compressor acts = some (replies use l.compressor acts) ∧
      (replies use l.compressor acts).2 = (acts.foldl Ledger.act l).compressor ∧
      ∀ answer ∈ (replies use l.compressor acts).1, answer ≠ some (.error .outOfRange) := by
  induction acts generalizing l with
  | nil => exact ⟨rfl, rfl, by simp [replies]⟩
  | cons a acts ih =>
    rw [List.flatMap_cons, List.length_append] at hfits
    obtain ⟨hmachine, hrange⟩ := h.use?_eq a (by omega)
    have hle := length_taken_act_le l a
    obtain ⟨hrest, hend, hranges⟩ := ih (h.act a) (by omega)
    rw [compressor_act] at hrest hend hranges
    rw [replies_cons]
    refine ⟨?_, hend, List.forall_mem_cons.mpr ⟨hrange, hranges⟩⟩
    exact replies?_cons_eq_some.mpr ⟨_, _, _, hmachine, hrest, rfl⟩

end Ledger

end Deflate.Compressor

/-- Whatever calls and resets have been made, the cursor has at most a window before it and less
than a block behind it, the window begins with the latest bytes that have been encoded, and the
chains hold positions inserted before, each link leading further back. So no call ever looks outside
a table, takes more from less, or meets an entry that does not lead back: the machine never stops
and gives the answers of the compressor. -/
theorem search_stays_within_tables (level : Nat) (framed : Bool) {acts : List Act}
    (hfits : (acts.flatMap Act.offered).length < 2 ^ 64) :
    (Ledger.run level framed acts).InOrder level ∧
      replies? Machine.Encoding.use? (.start level framed) acts =
        some (replies Compressor.use (.start level framed) acts) ∧
      (replies Compressor.use (.start level framed) acts).2 =
        (Ledger.run level framed acts).compressor ∧
      ∀ answer ∈ (replies Compressor.use (.start level framed) acts).1,
        answer ≠ some (.error .outOfRange) := by
  have hstart := Ledger.keeps_start level framed
  refine ⟨(Ledger.keeps_run level framed acts).inOrder, ?_⟩
  refine hstart.uses?_eq ?_
  rwa [List.length_nil, Nat.zero_add]

/-- A stream that is given up, and another that is closed when it has seen one triple of bytes three
times. -/
theorem search_stays_within_tables_of_triples :
    ∃ l run, l = Ledger.run 1 true [.process [5, 6, 7, 8] 9, .reset,
        .process [1, 2, 3, 1, 2, 3, 1, 2, 3] 9, .process [] 4] ∧
      replies? Machine.Encoding.use? (.start 1 true) [.process [5, 6, 7, 8] 9, .reset,
        .process [1, 2, 3, 1, 2, 3, 1, 2, 3] 9, .process [] 4] = some run ∧
      l.split = [1, 2, 3, 1, 2, 3, 1, 2, 3] ∧ l.InOrder 1 ∧
      l.compressor.window.base + l.compressor.window.cursor = 9 := by
  have hfits : (List.flatMap Act.offered [.process [5, 6, 7, 8] 9, .reset,
      .process [1, 2, 3, 1, 2, 3, 1, 2, 3] 9, .process [] 4]).length < 2 ^ 64 := by
    decide
  obtain ⟨horder, hmachine, -⟩ := search_stays_within_tables 1 true hfits
  have hsplit : (Ledger.run 1 true [.process [5, 6, 7, 8] 9, .reset,
      .process [1, 2, 3, 1, 2, 3, 1, 2, 3] 9, .process [] 4]).split =
      [1, 2, 3, 1, 2, 3, 1, 2, 3] := by
    have hlast := Ledger.run_concat 1 true [.process [5, 6, 7, 8] 9, .reset,
      .process [1, 2, 3, 1, 2, 3, 1, 2, 3] 9] (.process [] 4)
    rw [List.cons_append, List.cons_append, List.cons_append, List.nil_append] at hlast
    rw [hlast, Ledger.split_act]
    rfl
  have hencoded := horder.encoded_eq
  rw [hsplit] at hencoded
  exact ⟨_, _, rfl, hmachine, hsplit, horder, hencoded⟩

end Conduit
