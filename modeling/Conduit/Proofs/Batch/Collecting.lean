import Conduit.Batch.Compressor
import Conduit.Proofs.Batch.Framing
import Conduit.Proofs.Compression.Cutting
import Conduit.Proofs.Replies

namespace Conduit

open Deflate

namespace Line

variable {level : Nat} {raw : Bool} {l : Line} {taken whole : List UInt8}

/-- The line has taken these bytes into a stream that it has not closed. -/
structure Takes (level : Nat) (raw : Bool) (l : Line) (taken : List UInt8) : Prop where
  serves : l.session.Serves ⟨.portable, .compress, level, raw⟩
  gathers : ∃ c out, l.Carries (.compressor c) out ∧ c.Gathers level (!raw) taken out

theorem takes_fresh (level : Nat) (raw : Bool) {sink : Sink} (hlasts : sink.Lasts)
    (hout : sink.out = #[]) :
    Takes level raw ⟨.fresh ⟨.portable, .compress, level, raw⟩, sink⟩ [] where
  serves := Session.serves_fresh rfl
  gathers := ⟨.start level !raw, [],
    ⟨runs_compressing level raw, hlasts, congrArg Array.toList hout⟩,
    Compressor.gathers_start level !raw⟩

theorem Takes.feed (h : l.Takes level raw taken) (input : List UInt8) :
    ∃ l', l.feed input = (.ok (), l') ∧ l'.Takes level raw (taken ++ input) := by
  obtain ⟨c, out, hcarries, hgathers⟩ := h.gathers
  obtain ⟨l', c', out', hfeed, hcarries', hgathers'⟩ := feed_spec [] input hcarries hgathers
  have hserves := (Session.kept_serves _).feed h.serves input
  rw [hfeed] at hserves
  exact ⟨l', hfeed, hserves, c', out', hcarries', hgathers'⟩

theorem Takes.close (h : l.Takes level raw taken)
    (hwhole : encode level (!raw) taken = some whole) :
    ∃ l', l.close = (.ok (), l') ∧
      l'.session.reset = (.ok (), .fresh ⟨.portable, .compress, level, raw⟩) ∧
      l'.sink.out.toList = whole ∧ l'.sink.Lasts := by
  obtain ⟨c, out, hcarries, hgathers⟩ := h.gathers
  obtain ⟨l', codec, out', hclose, hcarries', rfl⟩ := close_spec [] hcarries hgathers hwhole
  have hserves := (Session.kept_serves _).close h.serves
  rw [hclose] at hserves
  exact ⟨l', hclose, hserves.reset_eq hcarries'.runs.fresh, hcarries'.out_eq, hcarries'.lasts⟩

end Line

def streamOf (level : Nat) (raw : Bool) (input : List UInt8) : List UInt8 :=
  (encode level (!raw) input).getD []

theorem encode_eq_streamOf (level : Nat) (raw : Bool) (input : List UInt8) :
    encode level (!raw) input = some (streamOf level raw input) := by
  obtain ⟨blocks, hencode, -⟩ := encode_spec level (!raw) input
  rw [streamOf, hencode]
  rfl

theorem Sink.le_of_start {size floor : Nat} {s : Sink} (h : start size floor = .ok s) :
    size ≤ Octets.maxSize := by
  rw [start] at h
  split at h
  · cases h
  next hle => exact Nat.not_lt.mp hle

namespace BatchCompressor

inductive Act where
  | push (packet : List UInt8)
  | flush

abbrev Reply : Type :=
  Except PacketError (Option (List UInt8))

def act (c : BatchCompressor) : Act → Reply × BatchCompressor
  | .push packet =>
    let (result, c) := c.push packet
    (result.map fun _ => none, c)
  | .flush => c.flush

def waitingAfter (waiting : List (List UInt8)) : Act → List (List UInt8)
  | .push packet =>
    if packet = [] ∨ UInt32.size ≤ packet.length then waiting else waiting ++ [packet]
  | .flush => []

/-- A packet whose length does not fit in 32 bits is refused. -/
def permit (packet : List UInt8) : Except PacketError Unit :=
  if UInt32.size ≤ packet.length then .error (.malformed (.tooLarge packet.length)) else .ok ()

def replyFor (stream : List UInt8 → List UInt8) (waiting : List (List UInt8)) : Act → Reply
  | .push packet => (permit packet).map fun _ => none
  | .flush => .ok (if waiting = [] then none else some (stream (Frames.join waiting)))

/-- A batch compressor that keeps its packets as they are until it is flushed. -/
def plainAct (stream : List UInt8 → List UInt8) (waiting : List (List UInt8)) (a : Act) :
    Reply × List (List UInt8) :=
  (replyFor stream waiting a, waitingAfter waiting a)

/-- These packets wait: their frames have been taken by the line or are staged behind it. -/
structure Collects (level : Nat) (raw : Bool) (c : BatchCompressor) (waiting : List (List UInt8)) :
    Prop where
  takes : ∃ taken, c.line.Takes level raw taken ∧ taken ++ c.staging.toList = Frames.join waiting
  staged_le : c.staging.size ≤ c.capacity
  packets_eq : c.packets = waiting.length
  short : ∀ packet ∈ waiting, packet.length < 2 ^ 32

variable {level : Nat} {raw : Bool} {c : BatchCompressor} {waiting : List (List UInt8)}
  {packet : List UInt8}

theorem exists_start (hl : level ≤ Session.maxLevel) (raw : Bool) {size : Nat}
    (hs : size ≤ Octets.maxSize) (floor : Nat) :
    ∃ c, start .portable level raw size floor = .ok c := by
  obtain ⟨sink, hsink, -⟩ := Sink.exists_start hs floor
  rw [start, start_compressing hl raw, hsink]
  exact ⟨_, rfl⟩

theorem collects_of_start {size floor : Nat}
    (h : start .portable level raw size floor = .ok c) : c.Collects level raw [] := by
  rw [start] at h
  cases hsession : Session.start ⟨.portable, .compress, level, raw⟩ with
  | error error =>
    rw [hsession] at h
    cases h
  | ok session =>
    cases hsink : Sink.start size floor with
    | error error =>
      rw [hsession, hsink] at h
      cases h
    | ok sink =>
      rw [hsession, hsink] at h
      cases h
      obtain ⟨sink', hsink', hlasts, hout⟩ := Sink.exists_start (Sink.le_of_start hsink) floor
      cases hsink.symm.trans hsink'
      obtain rfl := Session.eq_fresh_of_start hsession
      exact ⟨⟨[], Line.takes_fresh level raw hlasts hout, rfl⟩, Nat.zero_le _, rfl, nofun⟩

theorem exists_feed {taken : List UInt8} (h : c.line.Takes level raw taken) (bytes : List UInt8) :
    ∃ line, c.feed bytes = (.ok (), { c with line }) ∧ line.Takes level raw (taken ++ bytes) := by
  obtain ⟨line, hfeed, htakes⟩ := h.feed bytes
  refine ⟨line, ?_, htakes⟩
  rw [feed, hfeed]

theorem Collects.unstage (h : c.Collects level raw waiting) :
    ∃ line, c.unstage = (.ok (), { c with line, staging := #[] }) ∧
      line.Takes level raw (Frames.join waiting) := by
  obtain ⟨taken, htakes, hjoin⟩ := h.takes
  obtain ⟨line, hfeed, htakes'⟩ := htakes.feed c.staging.toList
  refine ⟨line, ?_, hjoin ▸ htakes'⟩
  rw [BatchCompressor.unstage, hfeed]

theorem Collects.pushDirect (h : c.Collects level raw waiting) (packet : List UInt8) :
    ∃ line, c.pushDirect packet = (.ok (), { c with line, staging := #[] }) ∧
      line.Takes level raw (Frames.join waiting ++ Frames.frame packet) := by
  obtain ⟨line, hunstage, htakes⟩ := h.unstage
  obtain ⟨line', hlength, htakes'⟩ :=
    exists_feed (c := { c with line, staging := #[] }) htakes (Varint.write packet.length)
  obtain ⟨line'', hpacket, htakes''⟩ :=
    exists_feed (c := { c with line := line', staging := #[] }) htakes' packet
  refine ⟨line'', ?_, ?_⟩
  · rw [BatchCompressor.pushDirect, hunstage]
    dsimp only
    rw [hlength]
    exact hpacket
  · rwa [Frames.frame, ← List.append_assoc]

theorem Collects.count (h : c.Collects level raw waiting) (hl : packet.length < 2 ^ 32)
    {d : BatchCompressor} (hp : d.packets = c.packets) (hle : d.staging.size ≤ d.capacity)
    {taken : List UInt8} (htakes : d.line.Takes level raw taken)
    (hjoin : taken ++ d.staging.toList = Frames.join waiting ++ Frames.frame packet) :
    d.count.Collects level raw (waiting ++ [packet]) where
  takes := ⟨taken, htakes, by rw [Frames.join_append, Frames.join_singleton]; exact hjoin⟩
  staged_le := hle
  packets_eq := by
    rw [List.length_append, List.length_singleton, ← h.packets_eq, ← hp]
    rfl
  short := by
    rw [List.forall_mem_append, List.forall_mem_singleton]
    exact ⟨h.short, hl⟩

theorem Collects.stage (h : c.Collects level raw waiting) (hl : packet.length < 2 ^ 32)
    (hroom : ¬ c.capacity - c.staging.size ≤ packet.length + Varint.maxLength) :
    (c.stage packet).count.Collects level raw (waiting ++ [packet]) := by
  obtain ⟨taken, htakes, hjoin⟩ := h.takes
  refine h.count (d := c.stage packet) hl rfl ?_ htakes ?_
  · change (c.staging ++ Frames.frame packet).size ≤ c.capacity
    have hwrite := Varint.length_write_le_maxLength hl
    rw [size_append_list, Frames.frame, List.length_append]
    omega
  · change taken ++ (c.staging ++ Frames.frame packet).toList = _
    rw [Array.toList_appendList, ← List.append_assoc, hjoin]

theorem Collects.push (h : c.Collects level raw waiting) (packet : List UInt8) :
    ∃ c', c.push packet = (permit packet, c') ∧
      c'.Collects level raw (waitingAfter waiting (.push packet)) := by
  rw [BatchCompressor.push, permit, waitingAfter]
  split
  next hempty =>
    obtain rfl := List.isEmpty_iff.mp hempty
    exact ⟨c, rfl, h⟩
  next hempty =>
    have hne : packet ≠ [] := fun he => hempty (List.isEmpty_iff.mpr he)
    split
    next hlong =>
      rw [if_pos (Or.inr hlong)]
      exact ⟨c, rfl, h⟩
    next hlong =>
      rw [if_neg (not_or.mpr ⟨hne, hlong⟩)]
      split
      · obtain ⟨line, hpush, htakes⟩ := h.pushDirect packet
        rw [hpush]
        exact ⟨_, rfl, h.count (d := { c with line, staging := #[] }) (Nat.lt_of_not_le hlong) rfl
          (Nat.zero_le _) htakes (List.append_nil _)⟩
      next hroom => exact ⟨_, rfl, h.stage (Nat.lt_of_not_le hlong) hroom⟩

theorem Collects.flush (h : c.Collects level raw waiting) :
    c.flush.1 = .ok (if waiting = [] then none else some (streamOf level raw (Frames.join waiting))) ∧
      c.flush.2.Collects level raw [] := by
  rw [BatchCompressor.flush, h.packets_eq]
  split
  next hnone =>
    obtain rfl := List.length_eq_zero_iff.mp hnone
    exact ⟨rfl, h⟩
  next hsome =>
    have hne : waiting ≠ [] := fun he => hsome (List.length_eq_zero_iff.mpr he)
    obtain ⟨line, hunstage, htakes⟩ := h.unstage
    obtain ⟨line', hclose, hreset, hout, hlasts⟩ := htakes.close (encode_eq_streamOf level raw _)
    rw [hunstage, if_neg hne]
    dsimp only
    rw [closeStream, hclose]
    dsimp only
    rw [restart, hreset]
    dsimp only [Sink.take]
    rw [hout]
    exact ⟨rfl, ⟨[], Line.takes_fresh level raw ⟨hlasts.size_pos, hlasts.floor_pos⟩ rfl, rfl⟩,
      Nat.zero_le _, rfl, nofun⟩

/-- Every use is answered as if the packets were kept as they are. -/
theorem Collects.act (h : c.Collects level raw waiting) (a : Act) :
    (c.act a).1 = (plainAct (streamOf level raw) waiting a).1 ∧
      (c.act a).2.Collects level raw (plainAct (streamOf level raw) waiting a).2 := by
  cases a with
  | push packet =>
    obtain ⟨c', hpush, h'⟩ := h.push packet
    rw [BatchCompressor.act, hpush]
    exact ⟨rfl, h'⟩
  | flush => exact h.flush

end BatchCompressor

end Conduit
