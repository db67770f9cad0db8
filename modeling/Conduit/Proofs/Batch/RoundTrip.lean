import Conduit.Proofs.Batch.Collecting

namespace Conduit

open Deflate

namespace BatchDecompressor

variable {raw : Bool} {size floor : Nat} {batch : List UInt8}

def fresh (raw : Bool) (size floor : Nat) : BatchDecompressor :=
  ⟨.fresh ⟨.portable, .decompress, 0, raw⟩, size, floor⟩

def reading (pause : Pause) (e : Cursor) : Except PacketError (List (List UInt8)) :=
  match pause.fault? with
  | none => (Frames.split e.history.toList).mapError .malformed
  | some .noProgress => .error (.malformed .endedEarly)
  | some (.flaw flaw) => .error (.session (Codec.decompressError (.flaw flaw)))

theorem status?_flaw (flaw : Flaw) :
    (Codec.decompressError (.flaw flaw)).status? ≠ some (-5) := by
  rw [Codec.decompressError.eq_def]
  split
  · rintro ⟨⟩
  next hf =>
    cases hf
    cases flaw <;> rintro ⟨⟩
  · contradiction

/-- The expansion of a batch comes to what its whole reading comes to. -/
theorem expands_fresh (raw : Bool) {sink : Sink} (hlasts : sink.Lasts) (hout : sink.out = #[])
    (batch : List UInt8) :
    Line.Expands (!raw) (opening (!raw) batch)
      (Line.expand ⟨.fresh ⟨.portable, .decompress, 0, raw⟩, sink⟩ batch) :=
  Line.Carries.expands ⟨runs_fresh 0 raw, hlasts, congrArg Array.toList hout⟩
    (tracks_start (!raw) batch)

theorem decode_eq (raw : Bool) (hsize : size ≤ Octets.maxSize) (floor : Nat) (batch : List UInt8) :
    ∃ pause e, Halts (!raw) (opening (!raw) batch) pause e ∧
      ((fresh raw size floor).decode batch).1 = reading pause e := by
  obtain ⟨sink, hsink, hlasts, hout⟩ := Sink.exists_start hsize floor
  have hexpands := expands_fresh raw hlasts hout batch
  rcases hexpand : Line.expand ⟨.fresh ⟨.portable, .decompress, 0, raw⟩, sink⟩ batch with
    ⟨result, left, l⟩
  rw [hexpand] at hexpands
  have hdecode := decode_of_expand hsink hexpand
  cases hexpands with
  | whole halts carries =>
    refine ⟨.ended, _, halts, hdecode.trans ?_⟩
    rw [carries.out_eq]
    rfl
  | @broken pause _ fault _ _ halts reason starved _ =>
    refine ⟨pause, _, halts, hdecode.trans ?_⟩
    rw [reading, reason]
    cases fault with
    | noProgress =>
      rw [starved rfl]
      rfl
    | flaw flaw =>
      rw [verdict, expandError, if_neg fun h => status?_flaw flaw h.1]

/-- The pieces in which a batch is expanded do not matter. -/
theorem decode_congr (raw : Bool) (hsize : size ≤ Octets.maxSize) (floor : Nat) {size' : Nat}
    (hsize' : size' ≤ Octets.maxSize) (floor' : Nat) (batch : List UInt8) :
    ((fresh raw size floor).decode batch).1 = ((fresh raw size' floor').decode batch).1 := by
  obtain ⟨pause, e, hhalts, hdecode⟩ := decode_eq raw hsize floor batch
  obtain ⟨pause', e', hhalts', hdecode'⟩ := decode_eq raw hsize' floor' batch
  obtain ⟨rfl, rfl⟩ := hhalts.unique hhalts'
  rw [hdecode, hdecode']

/-- Batches that have been read leave no trace. -/
theorem replies_decode (raw : Bool) (size floor : Nat) (batches : List (List UInt8)) :
    replies decode (fresh raw size floor) batches =
      (batches.map fun batch => ((fresh raw size floor).decode batch).1, fresh raw size floor) := by
  induction batches with
  | nil => rfl
  | cons batch batches ih =>
    have hleaves : ((fresh raw size floor).decode batch).2 = fresh raw size floor :=
      decode_leaves rfl rfl size floor batch
    rw [replies_cons, hleaves, ih, List.map_cons]

theorem decode_of_completes {out : List UInt8} (h : Completes raw batch out)
    (hsize : size ≤ Octets.maxSize) (floor : Nat) :
    ((fresh raw size floor).decode batch).1 = (Frames.split out).mapError .malformed := by
  obtain ⟨pause, e, hhalts, hdecode⟩ := decode_eq raw hsize floor batch
  obtain ⟨e', -, hhalts', rfl, -⟩ := completes_iff.mp h
  obtain ⟨rfl, rfl⟩ := hhalts.unique hhalts'
  exact hdecode

/-- The stream of some frames comes to their packets. -/
theorem decode_stream {level : Nat} {packets : List (List UInt8)}
    (hlt : ∀ packet ∈ packets, packet.length < 2 ^ 42) (hsize : size ≤ Octets.maxSize)
    (floor : Nat) :
    ((fresh raw size floor).decode (streamOf level raw (Frames.join packets))).1 =
      .ok packets := by
  rw [decode_of_completes (completes_encode (encode_eq_streamOf level raw _)) hsize floor,
    Frames.split_join hlt]
  rfl

end BatchDecompressor

namespace BatchCompressor

variable {level : Nat} {raw : Bool} {c : BatchCompressor}

/-- The packets that wait after some uses: those pushed since the last flush that were neither empty
nor refused. -/
def waiting (acts : List Act) : List (List UInt8) :=
  acts.foldl waitingAfter []

theorem replies_plainAct (stream : List UInt8 → List UInt8) (packets : List (List UInt8))
    (acts : List Act) :
    (replies (plainAct stream) packets acts).2 = acts.foldl waitingAfter packets := by
  induction acts generalizing packets with
  | nil => rfl
  | cons a acts ih => exact ih (waitingAfter packets a)

theorem collects_replies {size floor : Nat} (h : start .portable level raw size floor = .ok c)
    (acts : List Act) : (replies act c acts).2.Collects level raw (waiting acts) := by
  obtain ⟨-, hcollects⟩ := replies_of_related (R := Collects level raw) Collects.act
    (collects_of_start h) acts
  rwa [replies_plainAct] at hcollects

end BatchCompressor

/-- Whatever is pushed and flushed, each flush gives a batch unless nothing waits, and a
decompressor that may have read other batches reads from it the packets that waited. -/
theorem batches_round_trip {level : Nat} (hl : level ≤ Session.maxLevel) (raw : Bool)
    {size size' : Nat} (hs : size ≤ Octets.maxSize) (hs' : size' ≤ Octets.maxSize)
    (floor floor' : Nat) :
    ∃ c d, BatchCompressor.start .portable level raw size floor = .ok c ∧
      BatchDecompressor.start .portable raw size' floor' = .ok d ∧
      ∀ (acts : List BatchCompressor.Act) (earlier : List (List UInt8)),
        ∃ flushed, (replies BatchCompressor.act c acts).2.flush.1 = .ok flushed ∧
          (flushed = none ↔ BatchCompressor.waiting acts = []) ∧
          ∀ batch, flushed = some batch →
            ((replies BatchDecompressor.decode d earlier).2.decode batch).1 =
              .ok (BatchCompressor.waiting acts) := by
  obtain ⟨c, hc⟩ := BatchCompressor.exists_start hl raw hs floor
  refine ⟨c, .fresh raw size' floor', hc, rfl, fun acts earlier => ?_⟩
  have hcollects := BatchCompressor.collects_replies hc acts
  refine ⟨_, hcollects.flush.1, ?_, fun batch hbatch => ?_⟩
  · split
    next hnone => exact iff_of_true rfl hnone
    next hsome => exact iff_of_false nofun hsome
  · rw [BatchDecompressor.replies_decode raw size' floor']
    split at hbatch <;> cases hbatch
    exact BatchDecompressor.decode_stream
      (fun packet hm => (hcollects.short packet hm).trans (by decide)) hs' floor'

/-- Without a stage, and read byte by byte. -/
theorem batches_round_trip_unstaged :
    ∃ c d, BatchCompressor.start .portable 6 true 0 9 = .ok c ∧
      BatchDecompressor.start .portable true 1 0 = .ok d ∧
      ∀ (acts : List BatchCompressor.Act) (earlier : List (List UInt8)),
        ∃ flushed, (replies BatchCompressor.act c acts).2.flush.1 = .ok flushed ∧
          (flushed = none ↔ BatchCompressor.waiting acts = []) ∧
          ∀ batch, flushed = some batch →
            ((replies BatchDecompressor.decode d earlier).2.decode batch).1 =
              .ok (BatchCompressor.waiting acts) :=
  batches_round_trip (by decide) true (by decide) (by decide) 9 0

/-- Pieces that do not fit in a buffer are refused, for the batches that are made and for those that
are read. -/
theorem batches_refused_beyond_maxSize :
    (¬ ∃ c, BatchCompressor.start .portable 6 true (2 ^ 63) 0 = .ok c) ∧
      ∃ c d batch, BatchCompressor.start .portable 6 true 0 0 = .ok c ∧
        BatchDecompressor.start .portable true (2 ^ 63) 0 = .ok d ∧
        (replies BatchCompressor.act c [.push [1]]).2.flush.1 = .ok (some batch) ∧
        (d.decode batch).1 ≠ .ok [[1]] := by
  obtain ⟨c, hc⟩ := BatchCompressor.exists_start (show 6 ≤ Session.maxLevel by decide) true
    (Nat.zero_le _) 0
  have hwaiting : BatchCompressor.waiting [.push [1]] = [[1]] := by decide
  have hflush := (BatchCompressor.collects_replies hc [.push [1]]).flush.1
  rw [hwaiting, if_neg (List.cons_ne_nil _ _)] at hflush
  refine ⟨?_, c, _, _, hc, rfl, hflush, ?_⟩
  · rintro ⟨c, h⟩
    cases h
  · intro h
    cases h

end Conduit
