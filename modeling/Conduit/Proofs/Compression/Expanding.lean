import Conduit.Proofs.Compression.Driving
import Conduit.Proofs.Deflate.Stalling

namespace Conduit.Line

open Deflate Relation

inductive Expands (framed : Bool) (c : Cursor) : Except Error Unit × List UInt8 × Line → Prop
  | whole {e : Cursor} {rest : List UInt8} {l : Line} {codec : Codec}
      (halts : Halts framed c .ended e) (carries : l.Carries codec e.history.toList) :
      Expands framed c (.ok (), rest, l)
  | broken {pause : Pause} {e : Cursor} {fault : DecompressFault} {rest : List UInt8} {l : Line}
      (halts : Halts framed c pause e) (reason : pause.fault? = some fault)
      (starved : fault = .noProgress → rest = []) (poisoned : l.session.poisoned = true) :
      Expands framed c (.error (Codec.decompressError fault), rest, l)

variable {framed : Bool} {l l' : Line} {d : Decompressor} {c : Cursor} {left : List UInt8}

theorem Expands.of_leads {result : Except Error Unit × List UInt8 × Line} {mid : Cursor}
    (hm : ReflTransGen (Leads framed) c mid) (h : Expands framed mid result) :
    Expands framed c result := by
  cases h with
  | whole halts carries => exact .whole (.of_leads hm halts) carries
  | broken halts reason starved poisoned =>
    exact .broken (.of_leads hm halts) reason starved poisoned

/-- A line from which the reading goes on at `mid`, with input taken or with less to come. -/
def Continues (framed : Bool) (c : Cursor) (left : List UInt8) (l : Line) (step : Step)
    (l' : Line) : Prop :=
  step.consumed ≤ left.length ∧ (step.consumed = 0 → l'.backlog < l.backlog) ∧
    ∃ d mid, ReflTransGen (Leads framed) c mid ∧
      l'.Carries (.decompressor d) mid.history.toList ∧
      d.Tracks framed (left.drop step.consumed) mid

theorem Carries.expands_of_error (h : l.Carries (.decompressor d) c.history.toList)
    (hd : d.Tracks framed left c) {error : Error} (hcall : l.call left = (.error error, l')) :
    Expands framed c (.error error, left, l') := by
  have hanswers := hd.answers (List.prefix_refl left) id h.lasts.room_pos
  rcases hp : d.process left l.sink.ready.room with ⟨fault | step, d'⟩
  · rw [hp] at hanswers
    obtain ⟨-, pause, e, hhalts, hpause, -⟩ := hanswers
    obtain ⟨l'', hcall', hpoisoned⟩ := h.call_error (Codec.process_decompressor_error hp)
    cases hcall.symm.trans hcall'
    refine .broken hhalts hpause ?_ hpoisoned
    rintro rfl
    exact Decompressor.input_eq_nil_of_noProgress h.lasts.room_pos hp
  · obtain ⟨l'', hcall', -⟩ := h.call (Codec.process_decompressor hp)
    cases hcall.symm.trans hcall'

theorem Carries.call_spec (h : l.Carries (.decompressor d) c.history.toList)
    (hd : d.Tracks framed left c) {step : Step} (hcall : l.call left = (.ok step, l')) :
    if step.finished then Expands framed c (.ok (), left.drop step.consumed, l')
    else Continues framed c left l step l' := by
  have hanswers := hd.answers (List.prefix_refl left) id h.lasts.room_pos
  rcases hp : d.process left l.sink.ready.room with ⟨fault | step', d'⟩
  · obtain ⟨l'', hcall', -⟩ := h.call_error (Codec.process_decompressor_error hp)
    cases hcall.symm.trans hcall'
  · rw [hp] at hanswers
    obtain ⟨hc, hanswers⟩ := hanswers
    obtain ⟨l'', hcall', h'⟩ := h.call (Codec.process_decompressor hp)
    cases hcall.symm.trans hcall'
    split
    next hf =>
      rw [if_pos hf] at hanswers
      obtain ⟨e, bits, hhalts, hout, -, -⟩ := hanswers
      exact .whole hhalts (hout ▸ h')
    next hf =>
      rw [if_neg hf] at hanswers
      obtain ⟨mid, hleads, hout, hd', heffect, hbacklog⟩ := hanswers
      refine ⟨hc, fun h0 => ?_, d', mid, hleads, hout ▸ h', hd'⟩
      rw [h'.backlog_eq, h.backlog_eq]
      rw [h0, Nat.mul_zero] at hbacklog
      change d'.backlog < d.backlog
      omega

theorem Carries.continues (h : l.Carries (.decompressor d) c.history.toList)
    (hd : d.Tracks framed left c) {step : Step} (hcall : l.call left = (.ok step, l'))
    (hf : ¬ step.finished = true) : Continues framed c left l step l' := by
  have hspec := h.call_spec hd hcall
  rwa [if_neg hf] at hspec

theorem Carries.expands (h : l.Carries (.decompressor d) c.history.toList)
    (hd : d.Tracks framed left c) : Expands framed c (l.expand left) := by
  fun_induction Line.expand l left generalizing d c with
  | case1 l input error l' hcall => exact h.expands_of_error hd hcall
  | case2 l input step l' hcall hf =>
    have hspec := h.call_spec hd hcall
    rwa [if_pos hf] at hspec
  | case3 l =>
    rename_i step l' hf byte rest hpos hcall ih
    obtain ⟨-, -, d', mid, hleads, h', hd'⟩ := h.continues hd hcall hf
    exact .of_leads hleads (ih h' hd')
  | case4 l =>
    rename_i before step l' hf byte rest hzero hless hcall ih
    obtain ⟨-, -, d', mid, hleads, h', hd'⟩ := h.continues hd hcall hf
    rw [Nat.eq_zero_of_not_pos hzero] at hd'
    exact .of_leads hleads (ih h' hd')
  | case5 l =>
    rename_i before step l' hf byte rest hzero hmore hcall
    obtain ⟨-, hless, -⟩ := h.continues hd hcall hf
    exact absurd (hless (Nat.eq_zero_of_not_pos hzero)) hmore
  | case6 l =>
    rename_i before step l' hf hless hcall ih
    obtain ⟨hc, -, d', mid, hleads, h', hd'⟩ := h.continues hd hcall hf
    rw [Nat.eq_zero_of_le_zero hc] at hd'
    exact .of_leads hleads (ih h' hd')
  | case7 l =>
    rename_i before step l' hf hmore hcall
    obtain ⟨hc, hless, -⟩ := h.continues hd hcall hf
    exact absurd (hless (Nat.eq_zero_of_le_zero hc)) hmore

end Conduit.Line
