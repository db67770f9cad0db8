import Conduit.Proofs.Batch.RoundTrip
import Conduit.Proofs.Machine.Lines

namespace Conduit

open Deflate

namespace Machine

structure BatchCompressor where
  line : Line
  staging : Array UInt8
  capacity : Nat
  packets : Nat

namespace BatchCompressor

def start? (level : Nat) (raw : Bool) (size floor : Nat) : Option BatchCompressor := do
  let chunk ← Chunk.start? size floor
  return ⟨⟨.start ⟨.portable, .compress, level, raw⟩, chunk, #[]⟩, #[], size, 0⟩

def feed? (calls : Nat) (m : BatchCompressor) (bytes : List UInt8) :
    Option (Except Error Unit × BatchCompressor) := do
  let (result, line) ← m.line.feed? calls bytes
  return (result, { m with line })

def unstage? (calls : Nat) (m : BatchCompressor) : Option (Except Error Unit × BatchCompressor) :=
  feed? calls { m with staging := #[] } m.staging.toList

def pushDirect? (calls : Nat) (m : BatchCompressor) (packet : List UInt8) :
    Option (Except Error Unit × BatchCompressor) := do
  let (result, m) ← m.unstage? calls
  match result with
  | .error error => return (.error error, m)
  | .ok _ =>
    let (result, m) ← m.feed? calls (Varint.write packet.length)
    match result with
    | .error error => return (.error error, m)
    | .ok _ => m.feed? calls packet

def push? (calls : Nat) (m : BatchCompressor) (packet : List UInt8) :
    Option (Except PacketError Unit × BatchCompressor) :=
  if packet.isEmpty then some (.ok (), m)
  else if UInt32.size ≤ packet.length then some (.error (.malformed (.tooLarge packet.length)), m)
  else do
    let room ← sub? m.capacity m.staging.size
    if room ≤ packet.length + Varint.maxLength then
      let (result, m) ← m.pushDirect? calls packet
      match result with
      | .error error => return (.error (.session error), m)
      | .ok _ => return (.ok (), { m with packets := m.packets + 1 })
    else
      let staging := m.staging ++ Frames.frame packet
      return (.ok (), { m with staging, packets := m.packets + 1 })

def restart? (m : BatchCompressor) : Option (Except Error (List UInt8) × BatchCompressor) := do
  let (chunk, out) ← m.line.chunk.seal? m.line.out
  match m.line.session.reset with
  | (.error error, session) => return (.error error, { m with line := ⟨session, chunk, out⟩ })
  | (.ok _, session) =>
    return (.ok out.toList, { m with line := ⟨session, chunk, #[]⟩, packets := 0 })

def closeStream? (calls : Nat) (m : BatchCompressor) :
    Option (Except Error Unit × BatchCompressor) := do
  let (result, line) ← m.line.close? calls
  return (result, { m with line })

def flush? (calls : Nat) (m : BatchCompressor) :
    Option (Except PacketError (Option (List UInt8)) × BatchCompressor) :=
  if m.packets = 0 then some (.ok none, m)
  else do
    let (result, m) ← m.unstage? calls
    match result with
    | .error error => return (.error (.session error), m)
    | .ok _ =>
      let (result, m) ← m.closeStream? calls
      match result with
      | .error error => return (.error (.session error), m)
      | .ok _ =>
        let (result, m) ← m.restart?
        return ((result.map some).mapError .session, m)

def act? (calls : Nat) (m : BatchCompressor) :
    Conduit.BatchCompressor.Act → Option (Conduit.BatchCompressor.Reply × BatchCompressor)
  | .push packet => do
    let (result, m) ← m.push? calls packet
    return (result.map fun _ => none, m)
  | .flush => m.flush? calls

structure Shows (p : Profile) (m : BatchCompressor) (c : Conduit.BatchCompressor) : Prop where
  line : m.line.Shows p c.line
  staging_eq : m.staging = c.staging
  capacity_eq : m.capacity = c.capacity
  packets_eq : m.packets = c.packets

variable {p : Profile} {level : Nat} {raw : Bool} {m : BatchCompressor}
  {c c' : Conduit.BatchCompressor} {waiting : List (List UInt8)}

theorem exists_start {size floor : Nat}
    (h : Conduit.BatchCompressor.start .portable level raw size floor = .ok c) :
    ∃ m, start? level raw size floor = some m ∧
      m.Shows ⟨.portable, .compress, level, raw⟩ c := by
  rw [Conduit.BatchCompressor.start] at h
  cases hsession : Conduit.Session.start ⟨.portable, .compress, level, raw⟩ with
  | error error =>
    rw [hsession] at h
    cases h
  | ok session =>
    cases hsink : Sink.start size floor with
    | error error =>
      rw [hsession, hsink] at h
      cases h
    | ok sink =>
      rw [hsession, hsink] at h
      cases h
      obtain ⟨chunk, sink', hchunk, hsink', hshown⟩ :=
        Chunk.exists_start (Sink.le_of_start hsink) floor
      cases hsink.symm.trans hsink'
      obtain rfl := Session.eq_fresh_of_start hsession
      refine ⟨⟨⟨.start _, chunk, #[]⟩, #[], size, 0⟩, ?_, ⟨Session.shows_fresh rfl, hshown⟩, rfl, rfl,
        rfl⟩
      rw [start?, hchunk]
      rfl

theorem Shows.feed (h : m.Shows p c) {bytes : List UInt8}
    (hfeed : c.feed bytes = (.ok (), c')) :
    ∃ m', m'.Shows p c' ∧ Comes (fun calls => m.feed? calls bytes) (.ok (), m') := by
  rw [Conduit.BatchCompressor.feed] at hfeed
  rcases hline : c.line.feed bytes with ⟨result, line⟩
  rw [hline] at hfeed
  cases hfeed
  obtain ⟨line', hshown, hcomes⟩ := h.line.feed bytes (by rw [hline]; rintro ⟨⟩)
  rw [hline] at hshown hcomes
  exact ⟨{ m with line := line' }, ⟨hshown, h.staging_eq, h.capacity_eq, h.packets_eq⟩,
    hcomes.bind (comes_of_eq fun _ => rfl)⟩

theorem Shows.unstage (h : m.Shows p c)
    (hunstage : c.unstage = (.ok (), c')) :
    ∃ m', m'.Shows p c' ∧ Comes (fun calls => m.unstage? calls) (.ok (), m') := by
  have hshown : Shows p { m with staging := #[] } { c with staging := #[] } :=
    ⟨h.line, rfl, h.capacity_eq, h.packets_eq⟩
  rw [funext fun calls => unstage?.eq_def calls m, h.staging_eq]
  exact hshown.feed hunstage

theorem Shows.pushDirect (h : m.Shows p c) {packet : List UInt8}
    (hpush : c.pushDirect packet = (.ok (), c')) :
    ∃ m', m'.Shows p c' ∧ Comes (fun calls => m.pushDirect? calls packet) (.ok (), m') := by
  rw [Conduit.BatchCompressor.pushDirect] at hpush
  split at hpush
  · cases hpush
  next c₁ hunstage =>
    split at hpush
    · cases hpush
    next c₂ hlength =>
      obtain ⟨m₁, h₁, hcomes₁⟩ := h.unstage hunstage
      obtain ⟨m₂, h₂, hcomes₂⟩ := h₁.feed hlength
      obtain ⟨m₃, h₃, hcomes₃⟩ := h₂.feed hpush
      exact ⟨m₃, h₃, hcomes₁.bind (hcomes₂.bind hcomes₃)⟩

theorem Shows.push (h : m.Shows p c)
    (hc : c.Collects level raw waiting) (packet : List UInt8) :
    ∃ m', m'.Shows p (c.push packet).2 ∧
      Comes (fun calls => m.push? calls packet) ((c.push packet).1, m') := by
  simp only [push?, Conduit.BatchCompressor.push]
  split
  · exact ⟨m, h, comes_of_eq fun _ => rfl⟩
  split
  · exact ⟨m, h, comes_of_eq fun _ => rfl⟩
  have hroom : sub? m.capacity m.staging.size = some (c.capacity - c.staging.size) := by
    rw [h.capacity_eq, h.staging_eq, sub?_of_le hc.staged_le]
  simp only [hroom, Option.bind_eq_bind, Option.bind_some]
  split
  · obtain ⟨line, hpush, -⟩ := hc.pushDirect packet
    obtain ⟨m', h', hcomes⟩ := h.pushDirect hpush
    rw [hpush]
    exact ⟨{ m' with packets := m'.packets + 1 },
      ⟨h'.line, h'.staging_eq, h'.capacity_eq, congrArg (· + 1) h'.packets_eq⟩,
      hcomes.bind (comes_of_eq fun _ => rfl)⟩
  · refine ⟨{ m with staging := m.staging ++ Frames.frame packet, packets := m.packets + 1 },
      ⟨h.line, ?_, h.capacity_eq, congrArg (· + 1) h.packets_eq⟩, comes_of_eq fun _ => rfl⟩
    rw [h.staging_eq]
    rfl

theorem Shows.closeStream (h : m.Shows p c)
    (hclose : c.closeStream = (.ok (), c')) :
    ∃ m', m'.Shows p c' ∧ Comes (fun calls => m.closeStream? calls) (.ok (), m') := by
  rw [Conduit.BatchCompressor.closeStream] at hclose
  rcases hline : c.line.close with ⟨result, line⟩
  rw [hline] at hclose
  cases hclose
  obtain ⟨line', hshown, hcomes⟩ := h.line.close (by rw [hline]; rintro ⟨⟩)
  rw [hline] at hshown hcomes
  exact ⟨{ m with line := line' }, ⟨hshown, h.staging_eq, h.capacity_eq, h.packets_eq⟩,
    hcomes.bind (comes_of_eq fun _ => rfl)⟩

theorem Shows.restart (h : m.Shows p c) {batch : List UInt8}
    (hrestart : c.restart = (.ok batch, c')) :
    ∃ m', m'.Shows p c' ∧ m.restart? = some (.ok batch, m') := by
  obtain ⟨out, hseal, hout, hchunk⟩ := h.line.chunk.take
  obtain ⟨hanswer, hsession⟩ := h.line.session.reset
  rw [Conduit.BatchCompressor.restart] at hrestart
  rcases hreset : c.line.session.reset with ⟨error | u, session⟩ <;>
    rw [hreset] at hrestart hanswer hsession <;> cases hrestart
  rcases hreset' : m.line.session.reset with ⟨result, session'⟩
  rw [hreset'] at hanswer hsession
  cases hanswer
  refine ⟨{ m with line := ⟨session', { m.line.chunk with filled := 0 }, #[]⟩, packets := 0 },
    ⟨⟨hsession, hchunk⟩, h.staging_eq, h.capacity_eq, rfl⟩, ?_⟩
  rw [restart?, hseal]
  simp only [Option.bind_eq_bind, Option.bind_some, hreset', hout]
  rfl

theorem Shows.flush (h : m.Shows p c)
    (hc : c.Collects level raw waiting) :
    ∃ m', m'.Shows p c.flush.2 ∧ Comes (fun calls => m.flush? calls) (c.flush.1, m') := by
  have hok := hc.flush.1
  simp only [flush?, Conduit.BatchCompressor.flush, h.packets_eq] at hok ⊢
  split
  · exact ⟨m, h, comes_of_eq fun _ => rfl⟩
  next hsome =>
    rw [if_neg hsome] at hok
    rcases hunstage : c.unstage with ⟨error | u, c₁⟩ <;> rw [hunstage] at hok
    · cases hok
    rcases hclose : c₁.closeStream with ⟨error | u', c₂⟩ <;> simp only [hclose] at hok ⊢
    · cases hok
    rcases hrestart : c₂.restart with ⟨error | batch, c₃⟩ <;> simp only [hrestart] at hok ⊢
    · cases hok
    obtain ⟨m₁, h₁, hcomes₁⟩ := h.unstage hunstage
    obtain ⟨m₂, h₂, hcomes₂⟩ := h₁.closeStream hclose
    obtain ⟨m₃, h₃, hm₃⟩ := h₂.restart hrestart
    refine ⟨m₃, h₃, hcomes₁.bind (hcomes₂.bind (comes_of_eq fun _ => ?_))⟩
    simp only [hm₃, Option.bind_eq_bind, Option.bind_some]
    rfl

theorem Shows.act (h : m.Shows p c)
    (hc : c.Collects level raw waiting) (a : Conduit.BatchCompressor.Act) :
    ∃ m', m'.Shows p (c.act a).2 ∧ Comes (fun calls => m.act? calls a) ((c.act a).1, m') := by
  cases a with
  | push packet =>
    obtain ⟨m', h', hcomes⟩ := h.push hc packet
    exact ⟨m', h', hcomes.bind (comes_of_eq fun _ => rfl)⟩
  | flush => exact h.flush hc

theorem Shows.replies (h : m.Shows p c)
    (hc : c.Collects level raw waiting) (acts : List Conduit.BatchCompressor.Act) :
    ∃ m', Comes (fun calls => replies? (act? calls) m acts)
      ((Conduit.replies Conduit.BatchCompressor.act c acts).1, m') := by
  obtain ⟨m', -, hcomes⟩ := comes_replies Conduit.BatchCompressor.act act?
    (fun m c => m.Shows p c ∧ ∃ waiting, c.Collects level raw waiting)
    (fun ⟨h, waiting, hc⟩ a => by
      obtain ⟨m', h', hcomes⟩ := h.act hc a
      exact ⟨m', ⟨h', _, (hc.act a).2⟩, hcomes⟩)
    ⟨h, waiting, hc⟩ acts
  exact ⟨m', hcomes⟩

end BatchCompressor

structure BatchDecompressor where
  raw : Bool
  session : Session
  chunkSize : Nat
  chunkFloor : Nat

namespace BatchDecompressor

def profile (raw : Bool) : Profile :=
  ⟨.portable, .decompress, 0, raw⟩

def start (raw : Bool) (size floor : Nat) : BatchDecompressor :=
  ⟨raw, .start (profile raw), size, floor⟩

def renew (raw : Bool) (session : Session) : Except Error Session :=
  if session.poisoned then .ok (.start (profile raw))
  else
    match session.reset with
    | (.error error, _) => .error error
    | (.ok _, session) => .ok session

def decode? (calls : Nat) (d : BatchDecompressor) (batch : List UInt8) :
    Option (Except PacketError (List (List UInt8)) × BatchDecompressor) := do
  let chunk ← Chunk.start? d.chunkSize d.chunkFloor
  let (result, left, line) ← Line.expand? calls ⟨d.session, chunk, #[]⟩ batch
  let (_, out) ← line.chunk.seal? line.out
  match renew d.raw line.session with
  | .error error => return (.error (.session error), { d with session := line.session })
  | .ok session =>
    return (Conduit.BatchDecompressor.verdict result left out.toList, { d with session })

variable {raw : Bool} {session : Session} {d : BatchDecompressor} {size floor : Nat}

theorem exists_renew {other : Conduit.Session} (h : session.Shows (profile raw) other)
    (hs : other.Serves (profile raw)) :
    ∃ session', renew raw session = .ok session' ∧
      session'.Shows (profile raw) (.fresh (profile raw)) := by
  rw [renew, h.poisoned_eq]
  split
  · exact ⟨_, rfl, Session.shows_fresh rfl⟩
  next hpoisoned =>
    obtain ⟨hanswer, hshown⟩ := h.reset
    rw [hs.reset_eq (Bool.not_eq_true _ ▸ hpoisoned)] at hanswer hshown
    rcases hreset : session.reset with ⟨result, session'⟩
    rw [hreset] at hanswer hshown
    cases hanswer
    exact ⟨session', rfl, hshown⟩

theorem expand_ne_endless (raw : Bool) {sink : Sink} (hlasts : sink.Lasts) (hout : sink.out = #[])
    (batch : List UInt8) :
    (Conduit.Line.expand ⟨.fresh (profile raw), sink⟩ batch).1 ≠ .error .endless := by
  have hexpands := Conduit.BatchDecompressor.expands_fresh raw hlasts hout batch
  rw [profile]
  generalize Conduit.Line.expand _ _ = result at hexpands ⊢
  cases hexpands with
  | whole => nofun
  | broken =>
    rw [Conduit.Codec.decompressError.eq_def]
    split <;> rintro ⟨⟩

structure Fresh (raw : Bool) (size floor : Nat) (d : BatchDecompressor) : Prop where
  raw_eq : d.raw = raw
  session : d.session.Shows (profile raw) (.fresh (profile raw))
  chunkSize_eq : d.chunkSize = size
  chunkFloor_eq : d.chunkFloor = floor

theorem fresh_start (raw : Bool) (size floor : Nat) : (start raw size floor).Fresh raw size floor :=
  ⟨rfl, Session.shows_fresh rfl, rfl, rfl⟩

theorem Fresh.decode (h : d.Fresh raw size floor) (hsize : size ≤ Octets.maxSize)
    (batch : List UInt8) :
    ∃ d', d'.Fresh raw size floor ∧ Comes (fun calls => d.decode? calls batch)
      (((Conduit.BatchDecompressor.fresh raw size floor).decode batch).1, d') := by
  obtain ⟨raw, session, size, floor⟩ := d
  obtain ⟨rfl, hsession, rfl, rfl⟩ := h
  obtain ⟨chunk, sink, hchunk, hsink, hshown⟩ := Chunk.exists_start hsize floor
  obtain ⟨sink', hsink', hlasts, hout⟩ := Sink.exists_start hsize floor
  cases hsink.symm.trans hsink'
  have hline : Line.Shows (profile raw) ⟨session, chunk, #[]⟩ ⟨.fresh (profile raw), sink⟩ :=
    ⟨hsession, hshown⟩
  obtain ⟨line, hline', hcomes⟩ := hline.expand batch (expand_ne_endless raw hlasts hout batch)
  have hserves := (Conduit.Session.kept_serves _).expand (l := ⟨.fresh (profile raw), sink⟩)
    (Session.serves_fresh rfl) batch
  rcases hexpand : Conduit.Line.expand ⟨.fresh (profile raw), sink⟩ batch with ⟨result, left, l⟩
  rw [hexpand] at hline' hcomes hserves
  obtain ⟨session', hrenew, hfresh⟩ := exists_renew hline'.session hserves
  obtain ⟨out, hseal, hout', -⟩ := hline'.chunk.take
  refine ⟨⟨raw, session', size, floor⟩, ⟨rfl, hfresh, rfl, rfl⟩, ?_⟩
  rw [Conduit.BatchDecompressor.fresh, Conduit.BatchDecompressor.decode_of_expand hsink hexpand]
  refine (comes_of_eq fun _ => hchunk).bind (hcomes.bind (comes_of_eq fun _ => ?_))
  simp only [hseal, Option.bind_eq_bind, Option.bind_some, hrenew, hout']
  rfl

theorem Fresh.replies (h : d.Fresh raw size floor) (hsize : size ≤ Octets.maxSize)
    (batches : List (List UInt8)) :
    ∃ d', d'.Fresh raw size floor ∧ Comes (fun calls => replies? (decode? calls) d batches)
      ((Conduit.replies Conduit.BatchDecompressor.decode (.fresh raw size floor) batches).1, d') := by
  obtain ⟨d', ⟨h', -⟩, hcomes⟩ := comes_replies Conduit.BatchDecompressor.decode decode?
    (fun d other => d.Fresh raw size floor ∧ other = .fresh raw size floor)
    (fun {d other} ⟨h, hother⟩ batch => by
      obtain ⟨d', h', hcomes⟩ := h.decode hsize batch
      subst hother
      exact ⟨d', ⟨h', Conduit.BatchDecompressor.decode_leaves rfl rfl size floor batch⟩, hcomes⟩)
    ⟨h, rfl⟩ batches
  exact ⟨d', h', hcomes⟩

end BatchDecompressor

end Machine

/-- Whatever the pieces and the stage, a batch is the stream that the frames of its packets are
compressed to. Only packets whose length does not fit in 32 bits are refused, and the machine gives
the same replies: no use of it stops for good or goes on for ever. -/
theorem batch_is_stream_of_frames {level : Nat} (hl : level ≤ Session.maxLevel) (raw : Bool) :
    ∃ session stream, Session.start ⟨.portable, .compress, level, raw⟩ = .ok session ∧
      (∀ input, ∀ chunk ≤ Octets.maxSize,
        (session.compressAll input chunk).1 = .ok (stream input)) ∧
      ∀ size floor c, BatchCompressor.start .portable level raw size floor = .ok c →
        ∀ acts : List BatchCompressor.Act,
          (replies BatchCompressor.act c acts).1 =
            (replies (BatchCompressor.plainAct stream) [] acts).1 ∧
          (replies BatchCompressor.act c acts).2.staging.size ≤
            (replies BatchCompressor.act c acts).2.capacity ∧
          ∃ m m', Machine.BatchCompressor.start? level raw size floor = some m ∧
            Comes (fun calls => replies? (Machine.BatchCompressor.act? calls) m acts)
              ((replies (BatchCompressor.plainAct stream) [] acts).1, m') := by
  refine ⟨.compressing level raw, streamOf level raw, start_compressing hl raw,
    fun input chunk hc => compressAll_eq (encode_eq_streamOf level raw input) hc,
    fun size floor c hstart acts => ?_⟩
  have hcollects := BatchCompressor.collects_of_start hstart
  obtain ⟨hreplies, hafter⟩ := replies_of_related BatchCompressor.Collects.act hcollects acts
  obtain ⟨m, hm, hshown⟩ := Machine.BatchCompressor.exists_start hstart
  obtain ⟨m', hcomes⟩ := hshown.replies hcollects acts
  exact ⟨hreplies, hafter.staged_le, m, m', hm, hreplies ▸ hcomes⟩

/-- With a stage that holds no packet and a floor that no piece reaches. -/
theorem batch_is_stream_of_frames_unstaged :
    ∃ session, ∃ stream : List UInt8 → List UInt8, ∃ c,
      Session.start ⟨.portable, .compress, 6, false⟩ = .ok session ∧
      (session.compressAll [1, 9] 7).1 = .ok (stream [1, 9]) ∧
      BatchCompressor.start .portable 6 false 0 9 = .ok c ∧
      (replies BatchCompressor.act c [.push [], .push [9], .flush, .flush]).1 =
        [.ok none, .ok none, .ok (some (stream [1, 9])), .ok none] := by
  obtain ⟨c, hc⟩ := BatchCompressor.exists_start (show 6 ≤ Session.maxLevel by decide) false
    (Nat.zero_le _) 9
  obtain ⟨session, stream, hsession, hall, hbatch⟩ :=
    batch_is_stream_of_frames (show 6 ≤ Session.maxLevel by decide) false
  refine ⟨session, stream, c, hsession, hall [1, 9] 7 (by decide), hc, ?_⟩
  have hframe : Frames.join [[9]] = [1, 9] := by
    rw [Frames.join_singleton, Frames.frame_of_lt (by decide)]
    rfl
  rw [(hbatch 0 9 c hc _).1, ← hframe]
  rfl

/-- Of the batches that have been read there is no trace, nor of the pieces in which they were read:
each comes to what a new decompressor makes of it. The machine gives the same replies and is as good
as new after them. -/
theorem batches_decoded_as_new (raw : Bool) {size size' : Nat} (hs : size ≤ Octets.maxSize)
    (hs' : size' ≤ Octets.maxSize) (floor floor' : Nat) :
    ∃ d d', BatchDecompressor.start .portable raw size floor = .ok d ∧
      BatchDecompressor.start .portable raw size' floor' = .ok d' ∧
      ∀ batches : List (List UInt8),
        replies BatchDecompressor.decode d batches =
          (batches.map fun batch => (d'.decode batch).1, d) ∧
        ∃ m, m.session.Shows ⟨.portable, .decompress, 0, raw⟩ d.session ∧
          Comes (fun calls => replies? (Machine.BatchDecompressor.decode? calls)
            (.start raw size floor) batches) (batches.map fun batch => (d'.decode batch).1, m) := by
  refine ⟨.fresh raw size floor, .fresh raw size' floor', rfl, rfl, fun batches => ?_⟩
  have hreplies : replies BatchDecompressor.decode (.fresh raw size floor) batches =
      (batches.map fun batch => ((BatchDecompressor.fresh raw size' floor').decode batch).1,
        .fresh raw size floor) := by
    rw [BatchDecompressor.replies_decode]
    exact congrArg (·, BatchDecompressor.fresh raw size floor) (List.map_congr_left fun batch _ =>
      BatchDecompressor.decode_congr raw hs floor hs' floor' batch)
  obtain ⟨m, hm, hcomes⟩ :=
    (Machine.BatchDecompressor.fresh_start raw size floor).replies hs batches
  rw [hreplies] at hcomes
  exact ⟨hreplies, m, hm.session, hcomes⟩

/-- Byte by byte, or in pieces of which each is nearly full from the start. -/
theorem batches_decoded_as_new_bytewise :
    ∃ d d', BatchDecompressor.start .portable true 1 0 = .ok d ∧
      BatchDecompressor.start .portable true 16 99 = .ok d' ∧
      replies BatchDecompressor.decode d [[6], [3], [3, 0]] =
        ([(d'.decode [6]).1, (d'.decode [3]).1, (d'.decode [3, 0]).1], d) := by
  obtain ⟨d, d', hd, hd', hreplies⟩ :=
    batches_decoded_as_new true (show 1 ≤ Octets.maxSize by decide)
      (show 16 ≤ Octets.maxSize by decide) 0 99
  exact ⟨d, d', hd, hd', (hreplies [[6], [3], [3, 0]]).1⟩

/-- Pieces that do not fit in a buffer are refused. -/
theorem batches_decoded_otherwise_beyond_maxSize :
    ∃ d d', BatchDecompressor.start .portable true (2 ^ 63) 0 = .ok d ∧
      BatchDecompressor.start .portable true 1 0 = .ok d' ∧
      (d'.decode [1, 2, 0, 253, 255, 1, 2]).1 = .ok [[2]] ∧
      (d.decode [1, 2, 0, 253, 255, 1, 2]).1 ≠ .ok [[2]] := by
  refine ⟨_, .fresh true 1 0, rfl, rfl, ?_, nofun⟩
  have hframe : Frames.join [[2]] = [1, 2] := by
    rw [Frames.join_singleton, Frames.frame_of_lt (by decide)]
    rfl
  rw [BatchDecompressor.decode_of_completes completes_stored_pair (by decide) 0, ← hframe,
    Frames.split_join (by decide)]
  rfl

end Conduit
