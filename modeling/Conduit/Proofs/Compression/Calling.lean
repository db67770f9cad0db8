import Conduit.Compression.Line
import Conduit.Compression.Schedule
import Conduit.Proofs.Bits.Strings

namespace Conduit

open Deflate

/-- Every call offers some of the input while any is left, and the end is asked for after it. -/
structure Schedule.Offers (s : Schedule) : Prop where
  feed : ∀ k, s.feed k ≠ some 0
  finish : s.finish = true

structure Schedule.Feeds (s : Schedule) : Prop extends Schedule.Offers s where
  room : ∀ k, 0 < s.room k

namespace Trace

def start (input : List UInt8) : Trace :=
  ⟨#[], #[], input, false, none⟩

def Over (t : Trace) : Prop :=
  t.finished = true ∨ t.error? ≠ none

def consumed (t : Trace) : Nat :=
  (t.calls.toList.map Prod.snd).sum

end Trace

/-- With calls enough, the schedule drives the session to an end, and this is what it has done. -/
def Schedule.Ends (s : Schedule) (session : Session) (input : List UInt8) (t : Trace) : Prop :=
  t.Over ∧ ∃ n, ∀ calls, n ≤ calls → (s.run calls 0 session (.start input)).1 = t

section Process

variable {input : List UInt8} {room : Nat} {step : Step}

theorem Codec.process_compressor {c c' : Compressor} (h : c.process input room = (.ok step, c')) :
    (Codec.compressor c).process input room = (.ok step, .compressor c') := by
  rw [Codec.process, h]
  rfl

theorem Codec.process_compressor_error {c c' : Compressor} {fault : CompressFault}
    (h : c.process input room = (.error fault, c')) :
    (Codec.compressor c).process input room =
      (.error (Codec.compressError fault), .compressor c') := by
  rw [Codec.process, h]
  rfl

theorem Codec.process_decompressor {d d' : Decompressor}
    (h : d.process input room = (.ok step, d')) :
    (Codec.decompressor d).process input room = (.ok step, .decompressor d') := by
  rw [Codec.process, h]
  rfl

theorem Codec.process_decompressor_error {d d' : Decompressor} {fault : DecompressFault}
    (h : d.process input room = (.error fault, d')) :
    (Codec.decompressor d).process input room =
      (.error (Codec.decompressError fault), .decompressor d') := by
  rw [Codec.process, h]
  rfl

theorem Codec.decompressError_flaw {flaw : Flaw} (h : flaw ≠ .code .outOfRange) :
    decompressError (.flaw flaw) = .fault (.flaw flaw) := by
  rw [decompressError]
  exact h

structure Session.Runs (s : Session) (codec : Codec) : Prop where
  backend_eq : s.profile.backend = .portable
  codec_eq : s.codec = codec
  fresh : s.poisoned = false

variable {s : Session} {codec codec' : Codec}

theorem Session.Runs.process_ok (h : s.Runs codec)
    (hc : codec.process input room = (.ok step, codec')) :
    ∃ s', s.process input room = (.ok step, s') ∧ s'.Runs codec' := by
  obtain ⟨profile, codec, finished, consumedLast, poisoned⟩ := s
  obtain ⟨hb, rfl, rfl⟩ := h
  refine ⟨⟨profile, codec', step.finished, step.consumed, false⟩, ?_, ⟨hb, rfl, rfl⟩⟩
  dsimp only at hc
  simp only [process, hc]
  rfl

theorem Session.Runs.process_error (h : s.Runs codec) {error : Error}
    (hc : codec.process input room = (.error error, codec')) :
    ∃ s', s.process input room = (.error error, s') := by
  obtain ⟨profile, codec, finished, consumedLast, poisoned⟩ := s
  obtain ⟨hb, rfl, rfl⟩ := h
  dsimp only at hc
  simp only [process, hc]
  exact ⟨_, rfl⟩

theorem Session.Runs.answer (h : s.Runs codec) (input : List UInt8) (room : Nat) :
    (s.process input room).1 = (codec.process input room).1 := by
  rcases hc : codec.process input room with ⟨error | step, codec'⟩
  · obtain ⟨s', hs⟩ := h.process_error hc
    rw [hs]
  · obtain ⟨s', hs, -⟩ := h.process_ok hc
    rw [hs]

theorem Session.finished_of_process {s' : Session} (h : s.process input room = (.ok step, s')) :
    s'.finished = step.finished := by
  rw [process] at h
  split at h
  · cases h
  · split at h <;> cases h
    rfl

theorem Session.unpoisoned_of_process {s' : Session}
    (h : s.process input room = (.ok step, s')) : s'.poisoned = false := by
  rw [process] at h
  split at h
  · cases h
  · split at h <;> cases h
    rfl

theorem Session.poisoned_of_process {s' : Session} {error : Error}
    (h : s.process input room = (.error error, s')) : s'.poisoned = true := by
  rw [process] at h
  split at h
  next hp =>
    cases h
    exact hp
  · split at h <;> cases h
    rfl

end Process

section Run

variable {s : Schedule} {session session' : Session} {output : Array UInt8}
  {made : Array (Nat × Nat)} {left : List UInt8} {k : Nat}

theorem Schedule.offered (s : Schedule) (k : Nat) (left : List UInt8) :
    s.offer k left <+: left := by
  rw [Schedule.offer]
  split
  · exact List.prefix_refl left
  · exact List.take_prefix _ left

theorem Schedule.Offers.offer_eq_nil (h : s.Offers) (k : Nat) (he : s.offer k left = []) :
    left = [] := by
  rw [Schedule.offer] at he
  split at he
  · exact he
  next n hn =>
    obtain rfl | he := List.take_eq_nil_iff.mp he
    · exact absurd hn (h.feed k)
    · exact he

theorem Schedule.Offers.run_of_ok (h : s.Offers) {step : Step}
    (hp : session.process (s.offer k left) (s.room k) = (.ok step, session')) (calls : Nat) :
    s.run (calls + 1) k session ⟨output, made, left, false, none⟩ =
      if step.finished then
        (⟨output ++ step.output, made.push (step.produced, step.consumed),
          left.drop step.consumed, true, none⟩, session')
      else
        s.run calls (k + 1) session' ⟨output ++ step.output,
          made.push (step.produced, step.consumed), left.drop step.consumed, false, none⟩ := by
  rw [Schedule.run, h.finish]
  simp only [Bool.not_true, Bool.and_false, Bool.false_eq_true, if_false, hp]
  cases step.finished <;> rfl

theorem Schedule.Offers.run_of_error (h : s.Offers) {error : Error}
    (hp : session.process (s.offer k left) (s.room k) = (.error error, session')) (calls : Nat) :
    s.run (calls + 1) k session ⟨output, made, left, false, none⟩ =
      (⟨output, made, left, false, some error⟩, session') := by
  rw [Schedule.run, h.finish]
  simp only [Bool.not_true, Bool.and_false, Bool.false_eq_true, if_false, hp]

end Run

namespace Sink

/-- The sink can be written to again and again. -/
structure Lasts (s : Sink) : Prop where
  size_pos : 0 < s.size
  floor_pos : 0 < s.floor

variable {s : Sink}

theorem Lasts.room_pos (h : s.Lasts) : 0 < s.ready.room := by
  have hsize := h.size_pos
  have hfloor := h.floor_pos
  rw [ready]
  split
  · exact hsize
  · simp only [room]
    omega

theorem Lasts.write_ready (h : s.Lasts) (bytes : List UInt8) :
    (s.ready.write bytes).Lasts ∧ (s.ready.write bytes).out.toList = s.out.toList ++ bytes := by
  have hready : s.ready.size = s.size ∧ s.ready.floor = s.floor ∧ s.ready.out = s.out := by
    rw [ready]
    split <;> exact ⟨rfl, rfl, rfl⟩
  obtain ⟨hsize, hfloor, hout⟩ := hready
  refine ⟨⟨hsize.symm ▸ h.size_pos, hfloor.symm ▸ h.floor_pos⟩, ?_⟩
  rw [write, hout]
  exact Array.toList_appendList

theorem exists_start {size : Nat} (h : size ≤ Octets.maxSize) (floor : Nat) :
    ∃ s, start size floor = .ok s ∧ s.Lasts ∧ s.out = #[] := by
  rw [start, if_neg (Nat.not_lt.mpr h)]
  exact ⟨_, rfl, ⟨Nat.le_max_right _ _, Nat.le_max_right _ _⟩, rfl⟩

theorem exists_whole {size : Nat} (h : size ≤ Octets.maxSize) :
    ∃ s, whole size = .ok s ∧ s.Lasts ∧ s.out = #[] :=
  exists_start h _

end Sink

namespace Line

/-- This codec is at work, and `out` has been collected. -/
structure Carries (l : Line) (codec : Codec) (out : List UInt8) : Prop where
  runs : l.session.Runs codec
  lasts : l.sink.Lasts
  out_eq : l.sink.out.toList = out

variable {l : Line} {codec codec' : Codec} {input out : List UInt8} {step : Step}

theorem Carries.backlog_eq (h : l.Carries codec out) : l.backlog = codec.backlog := by
  rw [backlog, Session.backlog, h.runs.codec_eq]

theorem Carries.call (h : l.Carries codec out)
    (hc : codec.process input l.sink.ready.room = (.ok step, codec')) :
    ∃ l', l.call input = (.ok step, l') ∧ l'.Carries codec' (out ++ step.output) := by
  obtain ⟨session', hp, hr⟩ := h.runs.process_ok hc
  obtain ⟨hlasts, hout⟩ := h.lasts.write_ready step.output
  refine ⟨⟨session', l.sink.ready.write step.output⟩, ?_, hr, hlasts, ?_⟩
  · rw [Line.call, hp]
  · rw [hout, h.out_eq]

theorem Carries.call_error (h : l.Carries codec out) {error : Error}
    (hc : codec.process input l.sink.ready.room = (.error error, codec')) :
    ∃ l', l.call input = (.error error, l') ∧ l'.session.poisoned = true := by
  obtain ⟨session', hp⟩ := h.runs.process_error hc
  refine ⟨⟨session', l.sink.ready⟩, ?_, Session.poisoned_of_process hp⟩
  rw [Line.call, hp]

theorem Carries.settle (h : l.Carries codec out) : (Session.settle (.ok ()) l).1 = .ok out := by
  rw [Session.settle, Session.reset, h.runs.fresh, h.out_eq]
  rfl

end Line

end Conduit
