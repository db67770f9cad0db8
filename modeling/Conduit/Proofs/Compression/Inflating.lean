import Conduit.Proofs.Compression.Poisoning
import Conduit.Proofs.Deflate.Yielding
import Conduit.Proofs.Machine.Lines

namespace Conduit

open Deflate

/-- A session of the portable backend in which this decompressor is at work. The machine stands for
it in memory, so it never looks outside a table. -/
structure Session.Inflates (s : Session) (d : Decompressor) : Prop extends
    s.Runs (.decompressor d) where
  shown : ∃ m : Machine.Decompressor, m.Shows d
  finished_eq : s.finished = d.cursor.stage.isEnded

inductive Session.Called (d : Decompressor) (input : List UInt8) (room : Nat) :
    Except Error Step × Session → Prop
  | failed {fault : DecompressFault} {s' : Session} (reported : fault ≠ .flaw (.code .outOfRange))
      (starved : 0 < room → fault = .noProgress → input = []) (poisoned : s'.poisoned = true) :
      Called d input room (.error (Codec.decompressError fault), s')
  | answered {step : Step} {d' : Decompressor} {s' : Session} (inflates : s'.Inflates d')
      (finished : s'.finished = step.finished) (fits : step.Fits input room)
      (moves : step.finished = true ∨ 0 < step.produced + step.consumed)
      (paid : d'.backlog + step.produced ≤ d.backlog + 8 * maxMatch * step.consumed) :
      Called d input room (.ok step, s')

namespace Session

variable {s : Session} {d : Decompressor} {p : Profile}

theorem Inflates.called (h : s.Inflates d) (input : List UInt8) (room : Nat) :
    Called d input room (s.process input room) := by
  obtain ⟨m, hm⟩ := h.shown
  obtain ⟨m', -, hm', hreported⟩ := hm.process input room
  rcases hp : d.process input room with ⟨fault | step, d'⟩ <;> rw [hp] at hm' hreported
  · obtain ⟨s', hs⟩ := h.process_error (Codec.process_decompressor_error hp)
    rw [hs]
    apply Called.failed
    · exact fun hf => hreported (congrArg _ hf)
    · rintro hroom rfl
      exact Decompressor.input_eq_nil_of_noProgress hroom hp
    · exact poisoned_of_process hs
  · obtain ⟨s', hs, hr⟩ := h.process_ok (Codec.process_decompressor hp)
    have hfinished := finished_of_process hs
    rw [hs]
    apply Called.answered
    · exact ⟨hr, ⟨m', hm'⟩, hfinished.trans (Decompressor.isEnded_of_process hp).symm⟩
    · exact hfinished
    · exact hm.fits hp
    · exact Decompressor.moves_of_process hp
    · exact Decompressor.backlog_process hp

theorem inflates_fresh (hb : p.backend = .portable) (hm : p.mode = .decompress) :
    (fresh p).Inflates (.start !p.raw) := by
  refine ⟨⟨hb, Codec.start_decompress hb hm, rfl⟩, ⟨_, Machine.Decompressor.shows_start _⟩, ?_⟩
  · cases p.raw <;> rfl

theorem Inflates.reset (h : s.Inflates d) : s.reset.2.Inflates d.reset := by
  obtain ⟨m, hm⟩ := h.shown
  rw [Session.reset, h.codec_eq]
  simp only [h.fresh]
  refine ⟨⟨h.backend_eq, rfl, rfl⟩, ⟨m.reset, hm.reset⟩, ?_⟩
  cases hframed : d.framed <;> simp [Decompressor.reset, Decompressor.start, hframed, Stage.isEnded]

def Decompresses (s : Session) : Prop :=
  s.poisoned = true ∨ ∃ d, s.Inflates d

theorem Called.decompresses {input : List UInt8} {room : Nat} {called : Except Error Step × Session}
    (h : Called d input room called) : called.2.Decompresses := by
  cases h with
  | failed reported starved poisoned => exact Or.inl poisoned
  | answered inflates finished fits moves paid => exact Or.inr ⟨_, inflates⟩

theorem kept_decompresses : Kept Decompresses where
  process := by
    rintro s (hp | ⟨d, h⟩) input room
    · rw [process_of_poisoned hp]
      exact Or.inl hp
    · exact (h.called input room).decompresses
  reset := by
    rintro s (hp | ⟨d, h⟩)
    · rw [reset_of_poisoned hp]
      exact Or.inl hp
    · exact Or.inr ⟨_, h.reset⟩

theorem decompresses_fresh (hb : p.backend = .portable) (hm : p.mode = .decompress) :
    (fresh p).Decompresses :=
  Or.inr ⟨_, inflates_fresh hb hm⟩

theorem Decompresses.inflates (h : s.Decompresses) (hp : s.poisoned = false) :
    ∃ d, s.Inflates d := by
  obtain hpoisoned | hd := h
  · cases hp.symm.trans hpoisoned
  · exact hd

end Session

end Conduit
