import Conduit.Proofs.Compression.Calling
import Conduit.Proofs.Machine.Resetting
import Conduit.Proofs.Replies

namespace Conduit

open Deflate

theorem BitWriter.length_drain_le (w : BitWriter) (room : Nat) :
    (w.drain room).1.length ≤ room := by
  simp only [drain, Array.length_toList, Array.size_extract]
  omega

namespace Deflate

structure Step.Fits (input : List UInt8) (room : Nat) (s : Step) : Prop where
  output_le : s.output.length ≤ room
  consumed_le : s.consumed ≤ input.length

theorem Step.fits_ended (input : List UInt8) (room : Nat) : Step.ended.Fits input room :=
  ⟨Nat.zero_le _, Nat.zero_le _⟩

namespace Compressor

variable {c c' : Compressor} {input output : List UInt8} {room consumed : Nat} {step : Step}

theorem length_drain_le (c : Compressor) (room : Nat) : (c.drain room).1.length ≤ room :=
  c.writer.length_drain_le room

theorem consumed_le_of_gather (h : c.gather input = (.ok consumed, c')) :
    consumed ≤ input.length := by
  have htaken : (input.take (blockSize - (c.window.bytes.size - c.window.cursor))).length ≤
      input.length := by
    rw [List.length_take]
    exact Nat.min_le_right _ _
  rw [gather] at h
  split at h
  · split at h <;> cases h
    exact htaken
  · cases h
    exact htaken

theorem fits_settle (c : Compressor) (h : output.length ≤ room) (input : List UInt8) :
    (c.settle output).1.Fits input room := by
  rw [settle]
  split <;> exact ⟨h, Nat.zero_le _⟩

theorem length_append_drain_le (c : Compressor) (h : output.length ≤ room) :
    (output ++ (c.drain (room - output.length)).1).length ≤ room := by
  have hmore := c.length_drain_le (room - output.length)
  rw [List.length_append]
  omega

theorem fits_finish (h : output.length ≤ room) (hf : c.finish output room = (.ok step, c'))
    (input : List UInt8) : step.Fits input room := by
  rw [finish] at hf
  split at hf
  · split at hf <;> cases hf
    exact fits_settle _ (length_append_drain_le _ h) input
  · cases hf
    exact fits_settle _ h input

theorem fits_take (h : output.length ≤ room) (ht : c.take output input room = (.ok step, c')) :
    step.Fits input room := by
  rw [take] at ht
  split at ht
  · cases ht
  · split at ht
    · cases ht
      exact ⟨h, Nat.zero_le _⟩
    · split at ht <;> cases ht
      next hgather => exact ⟨length_append_drain_le _ h, consumed_le_of_gather hgather⟩

theorem fits_of_process (h : c.process input room = (.ok step, c')) : step.Fits input room := by
  have hdrain := c.length_drain_le room
  rw [process] at h
  split at h
  · cases h
    exact Step.fits_ended input room
  · dsimp only at h
    split at h
    · exact fits_finish hdrain h []
    · exact fits_take hdrain h

end Compressor

end Deflate

namespace Machine

section Fits

variable {input : List UInt8} {room : Nat} {step : Step}

theorem Decompressor.Shows.fits {m : Decompressor} {d d' : Deflate.Decompressor} (h : m.Shows d)
    (hp : d.process input room = (.ok step, d')) : step.Fits input room := by
  cases hended : d.cursor.stage.isEnded with
  | true =>
    rw [Deflate.Decompressor.process_of_isEnded hended] at hp
    cases hp
    exact Step.fits_ended input room
  | false =>
    have hoffered : (input.take (Deflate.Decompressor.appetite room)).length ≤ input.length := by
      rw [List.length_take]
      exact Nat.min_le_right _ _
    rw [Deflate.Decompressor.process_eq_close hended] at hp
    obtain ⟨k, -, hshown, -⟩ := (h.begin (input.take (Deflate.Decompressor.appetite room)) room).run
      ⟨rfl, h.sum_eq⟩ d.framed rfl
    generalize run _ _ _ _ _ = stopped at hp hshown
    obtain ⟨pause, w⟩ := stopped
    have hsize := hshown.size_le
    have houtput : (w.history.toList.drop (Deflate.Decompressor.trim d.cursor.history).size).length ≤
        room := by
      rw [List.length_drop, Array.length_toList]
      exact Nat.sub_le_of_le_add (Nat.add_comm _ room ▸ hsize)
    cases pause with
    | refused flaw => cases hp
    | needInput =>
      rw [Deflate.Decompressor.close, conclude_eq] at hp
      split at hp <;> cases hp
      exact ⟨houtput, hoffered⟩
    | full | ended =>
      rw [Deflate.Decompressor.close, conclude_eq] at hp
      split at hp <;> cases hp
      exact ⟨houtput, (Nat.sub_le _ _).trans hoffered⟩

theorem Session.Shows.fits {p : Profile} {s : Session} {other other' : Conduit.Session}
    (h : s.Shows p other)
    (hp : other.process input room = (.ok step, other')) : step.Fits input room := by
  obtain ⟨profile, codec, finished, consumedLast, poisoned⟩ := other
  obtain ⟨codec', _, _, _⟩ := s
  obtain ⟨rfl, hcodec, -, -, -⟩ := h
  dsimp only at hcodec
  rw [Conduit.Session.process] at hp
  split at hp
  · cases hp
  · split at hp <;> cases hp
    next hprocess =>
      cases hcodec with
      | @compressor c mode suits =>
        rw [Conduit.Codec.process] at hprocess
        rcases hc : c.process input room with ⟨fault | step', c'⟩ <;> rw [hc] at hprocess <;>
          cases hprocess
        exact Compressor.fits_of_process hc
      | @decompressor m d mode shown =>
        rw [Conduit.Codec.process] at hprocess
        rcases hd : d.process input room with ⟨fault | step', d'⟩ <;> rw [hd] at hprocess <;>
          cases hprocess
        exact shown.fits hd

end Fits

structure Chunk where
  buffer : Array UInt8
  filled : Nat
  floor : Nat

namespace Chunk

def start? (size floor : Nat) : Option Chunk :=
  if size ≤ Octets.maxSize then some ⟨Array.replicate (max size 1) 0, 0, max floor 1⟩ else none

def seal? (c : Chunk) (out : Array UInt8) : Option (Chunk × Array UInt8) :=
  if c.filled ≤ c.buffer.size then
    some ({ c with filled := 0 }, out ++ c.buffer.extract 0 c.filled)
  else none

def ready? (c : Chunk) (out : Array UInt8) : Option (Chunk × Array UInt8) := do
  let left ← sub? c.buffer.size c.filled
  if left < c.floor then c.seal? out else return (c, out)

def spare? (c : Chunk) : Option Nat := do
  let left ← sub? c.buffer.size c.filled
  if 0 < left then some left else none

def write? (c : Chunk) (bytes : List UInt8) : Option Chunk :=
  if c.filled + bytes.length ≤ c.buffer.size then
    some { c with
      buffer := c.buffer.extract 0 c.filled ++ bytes ++
        c.buffer.extract (c.filled + bytes.length) c.buffer.size
      filled := c.filled + bytes.length }
  else none

/-- The piece is the current one of the sink, and all before it has been sealed. -/
structure Shows (c : Chunk) (out : Array UInt8) (s : Sink) : Prop where
  size_eq : c.buffer.size = s.size
  floor_eq : c.floor = s.floor
  filled_eq : c.filled = s.filled
  filled_le : c.filled ≤ c.buffer.size
  lasts : s.Lasts
  out_eq : out.toList ++ c.buffer.toList.take c.filled = s.out.toList

variable {c : Chunk} {out : Array UInt8} {s : Sink}

theorem exists_start {size : Nat} (h : size ≤ Octets.maxSize) (floor : Nat) :
    ∃ c s, start? size floor = some c ∧ Sink.start size floor = .ok s ∧ c.Shows #[] s := by
  refine ⟨_, _, if_pos h, if_neg (Nat.not_lt.mpr h), Array.size_replicate, rfl, rfl, Nat.zero_le _,
    ⟨Nat.le_max_right _ _, Nat.le_max_right _ _⟩, ?_⟩
  rw [List.take_zero, List.append_nil]

theorem Shows.seal (h : c.Shows out s) :
    ∃ out', c.seal? out = some ({ c with filled := 0 }, out') ∧
      Shows { c with filled := 0 } out' { s with filled := 0 } := by
  refine ⟨_, if_pos h.filled_le, h.size_eq, h.floor_eq, rfl, Nat.zero_le _,
    ⟨h.lasts.size_pos, h.lasts.floor_pos⟩, ?_⟩
  rw [List.take_zero, List.append_nil, Array.toList_append, Array.toList_extract,
    List.extract_eq_take_drop, List.drop_zero, Nat.sub_zero]
  exact h.out_eq

theorem Shows.take (h : c.Shows out s) :
    ∃ out', c.seal? out = some ({ c with filled := 0 }, out') ∧ out'.toList = s.take.1 ∧
      Shows { c with filled := 0 } #[] s.take.2 := by
  obtain ⟨out', hseal, hshown⟩ := h.seal
  have hout := hshown.out_eq
  rw [List.take_zero, List.append_nil] at hout
  refine ⟨out', hseal, hout, h.size_eq, h.floor_eq, rfl, Nat.zero_le _,
    ⟨h.lasts.size_pos, h.lasts.floor_pos⟩, ?_⟩
  rw [List.take_zero, List.append_nil]
  rfl

theorem Shows.ready (h : c.Shows out s) :
    ∃ c' out', c.ready? out = some (c', out') ∧ c'.Shows out' s.ready := by
  obtain ⟨size, floor, filled, all⟩ := s
  obtain rfl : c.buffer.size = size := h.size_eq
  obtain rfl : c.floor = floor := h.floor_eq
  obtain rfl : c.filled = filled := h.filled_eq
  rw [ready?, sub?_of_le h.filled_le, Sink.ready]
  simp only [Option.bind_eq_bind, Option.bind_some]
  split
  · obtain ⟨out', hseal, hshown⟩ := h.seal
    exact ⟨_, out', hseal, hshown⟩
  · exact ⟨c, out, rfl, h⟩

theorem Shows.spare (h : c.Shows out s) (hroom : 0 < s.room) : c.spare? = some s.room := by
  rw [spare?, sub?_of_le h.filled_le, h.size_eq, h.filled_eq]
  exact if_pos hroom

theorem Shows.write (h : c.Shows out s) {bytes : List UInt8} (hb : bytes.length ≤ s.room) :
    ∃ c', c.write? bytes = some c' ∧ c'.Shows out (s.write bytes) := by
  have hfilled := h.filled_le
  have hle : c.filled + bytes.length ≤ c.buffer.size := by
    rw [Sink.room, ← h.size_eq, ← h.filled_eq] at hb
    omega
  have hsize : (c.buffer.extract 0 c.filled ++ bytes ++
      c.buffer.extract (c.filled + bytes.length) c.buffer.size).size = c.buffer.size := by
    rw [Array.size_append, size_append_list, Array.size_extract, Array.size_extract]
    omega
  have hkept : (c.buffer.extract 0 c.filled ++ bytes).toList =
      c.buffer.toList.take c.filled ++ bytes := by
    rw [Array.toList_appendList, Array.toList_extract, List.extract_eq_take_drop, List.drop_zero,
      Nat.sub_zero]
  have hlength : (c.buffer.toList.take c.filled ++ bytes).length = c.filled + bytes.length := by
    rw [List.length_append, List.length_take, Array.length_toList, Nat.min_eq_left hfilled]
  refine ⟨_, if_pos hle, ?_⟩
  constructor
  · exact hsize.trans h.size_eq
  · exact h.floor_eq
  · exact congrArg (· + bytes.length) h.filled_eq
  · exact hle.trans hsize.ge
  · exact ⟨h.lasts.size_pos, h.lasts.floor_pos⟩
  · change out.toList ++ List.take _ _ = (s.out ++ bytes).toList
    rw [Array.toList_append, hkept, ← hlength, List.take_left, Array.toList_appendList, ← h.out_eq,
      List.append_assoc]

end Chunk

structure Line where
  session : Session
  chunk : Chunk
  out : Array UInt8

namespace Line

def call? (m : Line) (input : List UInt8) : Option (Except Error Step × Line) := do
  let (chunk, out) ← m.chunk.ready? m.out
  let room ← chunk.spare?
  let (result, session) ← m.session.process? input room
  match result with
  | .error error => return (.error error, ⟨session, chunk, out⟩)
  | .ok step =>
    let chunk ← chunk.write? step.output
    return (.ok step, ⟨session, chunk, out⟩)

def left? (input : List UInt8) (step : Step) : Option (List UInt8) :=
  if step.consumed ≤ input.length then some (input.drop step.consumed) else none

def feed? : (calls : Nat) → Line → List UInt8 → Option (Except Error Unit × Line)
  | _, m, [] => some (.ok (), m)
  | 0, _, _ :: _ => none
  | calls + 1, m, byte :: more => do
    let (result, m) ← m.call? (byte :: more)
    match result with
    | .error error => return (.error error, m)
    | .ok step =>
      let left ← left? (byte :: more) step
      feed? calls m left

def close? : (calls : Nat) → Line → Option (Except Error Unit × Line)
  | 0, _ => none
  | calls + 1, m => do
    let (result, m) ← m.call? []
    match result with
    | .error error => return (.error error, m)
    | .ok step => if step.finished then return (.ok (), m) else close? calls m

def expand? : (calls : Nat) → Line → List UInt8 →
    Option (Except Error Unit × List UInt8 × Line)
  | 0, _, _ => none
  | calls + 1, m, input => do
    let (result, m) ← m.call? input
    match result with
    | .error error => return (.error error, input, m)
    | .ok step =>
      let left ← left? input step
      if step.finished then return (.ok (), left, m) else expand? calls m left

structure Shows (p : Profile) (m : Line) (l : Conduit.Line) : Prop where
  session : m.session.Shows p l.session
  chunk : m.chunk.Shows m.out l.sink

variable {p : Profile} {m : Line} {l l' : Conduit.Line} {input : List UInt8} {step : Step}

theorem Shows.call_error (h : m.Shows p l) {error : Error}
    (hcall : l.call input = (.error error, l')) :
    ∃ m', m.call? input = some (.error error, m') ∧ m'.Shows p l' := by
  obtain ⟨chunk, out, hready, hchunk⟩ := h.chunk.ready
  obtain ⟨session, hprocess, hsession⟩ := h.session.process input l.sink.ready.room
  rw [Conduit.Line.call] at hcall
  rcases hp : l.session.process input l.sink.ready.room with ⟨error' | step, session'⟩ <;>
    rw [hp] at hcall hprocess hsession <;> cases hcall
  refine ⟨⟨session, chunk, out⟩, ?_, hsession, hchunk⟩
  rw [call?, hready]
  simp only [Option.bind_eq_bind, Option.bind_some, hchunk.spare h.chunk.lasts.room_pos, hprocess]
  rfl

theorem Shows.call (h : m.Shows p l)
    (hcall : l.call input = (.ok step, l')) :
    ∃ m', m.call? input = some (.ok step, m') ∧ m'.Shows p l' ∧
      left? input step = some (input.drop step.consumed) := by
  obtain ⟨chunk, out, hready, hchunk⟩ := h.chunk.ready
  obtain ⟨session, hprocess, hsession⟩ := h.session.process input l.sink.ready.room
  rw [Conduit.Line.call] at hcall
  rcases hp : l.session.process input l.sink.ready.room with ⟨error | step', session'⟩ <;>
    rw [hp] at hcall hprocess hsession <;> cases hcall
  have hfits := h.session.fits hp
  obtain ⟨chunk', hwrite, hchunk'⟩ := hchunk.write hfits.output_le
  refine ⟨⟨session, chunk', out⟩, ?_, ⟨hsession, hchunk'⟩, if_pos hfits.consumed_le⟩
  rw [call?, hready]
  simp only [Option.bind_eq_bind, Option.bind_some, hchunk.spare h.chunk.lasts.room_pos, hprocess,
    hwrite]
  rfl

section Loops

variable {byte : UInt8} {more left : List UInt8} {m' : Line} {error : Error} {calls : Nat}

theorem feed?_error (h : m.call? (byte :: more) = some (.error error, m')) :
    feed? (calls + 1) m (byte :: more) = some (.error error, m') := by
  rw [feed?, h]
  rfl

theorem feed?_ok (h : m.call? (byte :: more) = some (.ok step, m'))
    (hl : left? (byte :: more) step = some left) :
    feed? (calls + 1) m (byte :: more) = feed? calls m' left := by
  rw [feed?, h]
  simp only [Option.bind_eq_bind, Option.bind_some, hl]

theorem close?_error (h : m.call? [] = some (.error error, m')) :
    close? (calls + 1) m = some (.error error, m') := by
  rw [close?, h]
  rfl

theorem close?_done (h : m.call? [] = some (.ok step, m')) (hf : step.finished = true) :
    close? (calls + 1) m = some (.ok (), m') := by
  rw [close?, h]
  exact if_pos hf

theorem close?_more (h : m.call? [] = some (.ok step, m')) (hf : ¬ step.finished = true) :
    close? (calls + 1) m = close? calls m' := by
  rw [close?, h]
  exact if_neg hf

theorem expand?_error (h : m.call? input = some (.error error, m')) :
    expand? (calls + 1) m input = some (.error error, input, m') := by
  rw [expand?, h]
  rfl

theorem expand?_done (h : m.call? input = some (.ok step, m')) (hl : left? input step = some left)
    (hf : step.finished = true) : expand? (calls + 1) m input = some (.ok (), left, m') := by
  rw [expand?, h]
  simp only [Option.bind_eq_bind, Option.bind_some, hl]
  exact if_pos hf

theorem expand?_more (h : m.call? input = some (.ok step, m')) (hl : left? input step = some left)
    (hf : ¬ step.finished = true) : expand? (calls + 1) m input = expand? calls m' left := by
  rw [expand?, h]
  simp only [Option.bind_eq_bind, Option.bind_some, hl]
  exact if_neg hf

end Loops

theorem Shows.feed (h : m.Shows p l) (input : List UInt8) :
    (l.feed input).1 ≠ .error .endless → ∃ m', m'.Shows p (l.feed input).2 ∧
      Comes (fun calls => m.feed? calls input) ((l.feed input).1, m') := by
  -- on the calls of the line, each of which the machine makes as well
  fun_induction Conduit.Line.feed l input generalizing m with
  | case1 l => exact fun _ => ⟨m, h, comes_of_eq fun calls => by cases calls <;> rfl⟩
  | case2 l byte rest error l' hcall =>
    obtain ⟨m', hm', h'⟩ := h.call_error hcall
    exact fun _ => ⟨m', h', .of_succ (fun _ => feed?_error hm') (comes_of_eq fun _ => rfl)⟩
  | case3 l byte rest step l' hcall hpos ih =>
    obtain ⟨mid, hmid, hl, hleft⟩ := h.call hcall
    intro hne
    obtain ⟨m', h', hcomes⟩ := ih hl hne
    exact ⟨m', h', .of_succ (fun _ => feed?_ok hmid hleft) hcomes⟩
  | case4 l byte rest before step l' hcall hzero hless =>
    rename_i ih
    obtain ⟨mid, hmid, hl, hleft⟩ := h.call hcall
    rw [Nat.eq_zero_of_not_pos hzero, List.drop_zero] at hleft
    intro hne
    obtain ⟨m', h', hcomes⟩ := ih hl hne
    exact ⟨m', h', .of_succ (fun _ => feed?_ok hmid hleft) hcomes⟩
  | case5 => exact fun hne => absurd rfl hne

theorem Shows.drain (h : m.Shows p l) :
    l.drain.1 ≠ .error .endless → ∃ m', m'.Shows p l.drain.2 ∧
      Comes (fun calls => m.close? calls) (l.drain.1, m') := by
  fun_induction Conduit.Line.drain l generalizing m with
  | case1 l error l' hcall =>
    obtain ⟨m', hm', h'⟩ := h.call_error hcall
    exact fun _ => ⟨m', h', .of_succ (fun _ => close?_error hm') (comes_of_eq fun _ => rfl)⟩
  | case2 l step l' hcall hf =>
    obtain ⟨m', hm', h', -⟩ := h.call hcall
    exact fun _ => ⟨m', h', .of_succ (fun _ => close?_done hm' hf) (comes_of_eq fun _ => rfl)⟩
  | case3 l before step l' hcall hf hless =>
    rename_i ih
    obtain ⟨mid, hmid, hl, -⟩ := h.call hcall
    intro hne
    obtain ⟨m', h', hcomes⟩ := ih hl hne
    exact ⟨m', h', .of_succ (fun _ => close?_more hmid hf) hcomes⟩
  | case4 => exact fun hne => absurd rfl hne

theorem Shows.close (h : m.Shows p l)
    (hne : l.close.1 ≠ .error .endless) :
    ∃ m', m'.Shows p l.close.2 ∧ Comes (fun calls => m.close? calls) (l.close.1, m') := by
  rw [Conduit.Line.close] at hne ⊢
  rcases hcall : l.call [] with ⟨error | step, l'⟩ <;> rw [hcall] at hne
  · obtain ⟨m', hm', h'⟩ := h.call_error hcall
    exact ⟨m', h', .of_succ (fun _ => close?_error hm') (comes_of_eq fun _ => rfl)⟩
  · obtain ⟨mid, hmid, hl, -⟩ := h.call hcall
    dsimp only at hne ⊢
    by_cases hf : step.finished = true
    · rw [if_pos hf]
      exact ⟨mid, hl, .of_succ (fun _ => close?_done hmid hf) (comes_of_eq fun _ => rfl)⟩
    · rw [if_neg hf] at hne ⊢
      obtain ⟨m', h', hcomes⟩ := hl.drain hne
      exact ⟨m', h', .of_succ (fun _ => close?_more hmid hf) hcomes⟩

theorem Shows.expand (h : m.Shows p l) (input : List UInt8) :
    (l.expand input).1 ≠ .error .endless → ∃ m', m'.Shows p (l.expand input).2.2 ∧
      Comes (fun calls => m.expand? calls input)
        ((l.expand input).1, (l.expand input).2.1, m') := by
  fun_induction Conduit.Line.expand l input generalizing m with
  | case1 l input error l' hcall =>
    obtain ⟨m', hm', h'⟩ := h.call_error hcall
    exact fun _ => ⟨m', h', .of_succ (fun _ => expand?_error hm') (comes_of_eq fun _ => rfl)⟩
  | case2 l input step l' hcall hf =>
    obtain ⟨m', hm', h', hleft⟩ := h.call hcall
    exact fun _ =>
      ⟨m', h', .of_succ (fun _ => expand?_done hm' hleft hf) (comes_of_eq fun _ => rfl)⟩
  | case3 =>
    rename_i hf byte rest hpos hcall ih
    obtain ⟨mid, hmid, hl, hleft⟩ := h.call hcall
    intro hne
    obtain ⟨m', h', hcomes⟩ := ih hl hne
    exact ⟨m', h', .of_succ (fun _ => expand?_more hmid hleft hf) hcomes⟩
  | case4 =>
    rename_i hf byte rest hzero hless hcall ih
    obtain ⟨mid, hmid, hl, hleft⟩ := h.call hcall
    rw [Nat.eq_zero_of_not_pos hzero, List.drop_zero] at hleft
    intro hne
    obtain ⟨m', h', hcomes⟩ := ih hl hne
    exact ⟨m', h', .of_succ (fun _ => expand?_more hmid hleft hf) hcomes⟩
  | case5 => exact fun hne => absurd rfl hne
  | case6 =>
    rename_i hf hless hcall ih
    obtain ⟨mid, hmid, hl, hleft⟩ := h.call hcall
    rw [List.drop_nil] at hleft
    intro hne
    obtain ⟨m', h', hcomes⟩ := ih hl hne
    exact ⟨m', h', .of_succ (fun _ => expand?_more hmid hleft hf) hcomes⟩
  | case7 => exact fun hne => absurd rfl hne

end Line

end Machine

end Conduit
