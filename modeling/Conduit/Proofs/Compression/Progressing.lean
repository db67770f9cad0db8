import Conduit.Proofs.Compression.Completing
import Conduit.Proofs.Compression.Inflating
import Conduit.Proofs.Machine.Messages

namespace Conduit

open Deflate

/-- The call does not end for want of input, and it does not end without an effect. -/
def Moves : Except Error Step → Prop
  | .error error => ∃ fault : Fault, error = .fault fault ∧ fault.status ≠ -5
  | .ok step => step.finished = true ∨ 0 < step.produced + step.consumed

theorem moves_of_flaw {flaw : Flaw} (h : flaw ≠ .code .outOfRange) :
    Moves (.error (Codec.decompressError (.flaw flaw))) := by
  refine ⟨.flaw flaw, Codec.decompressError_flaw h, ?_⟩
  by_cases hd : flaw = .presetDictionary
  · subst hd
    decide
  · rw [Fault.status]
    · decide
    · rintro rfl
      exact hd rfl

theorem Session.Called.moves {d : Decompressor} {input : List UInt8} {room : Nat}
    {called : Except Error Step × Session} (h : Called d input room called) (hne : input ≠ [])
    (hroom : 0 < room) : Moves called.1 := by
  cases h with
  | @failed fault s' reported starved poisoned =>
    cases fault with
    | noProgress => exact absurd (starved hroom rfl) hne
    | flaw flaw => exact moves_of_flaw fun hf => reported (congrArg DecompressFault.flaw hf)
  | answered inflates finished fits moves paid => exact moves

section Trace

namespace Trace

/-- The successful calls before the last one, which reports the end of the stream or fails. -/
def earlier (t : Trace) : Array (Nat × Nat) :=
  if t.finished then t.calls.pop else t.calls

def verdict (t : Trace) : Except Error (List UInt8) :=
  match t.error? with
  | some error => .error error
  | none => .ok t.output.toList

def push (t : Trace) (step : Step) : Trace :=
  ⟨t.output ++ step.output, t.calls.push (step.produced, step.consumed),
    t.left.drop step.consumed, step.finished, none⟩

theorem consumed_push (t : Trace) (step : Step) :
    (t.push step).consumed = t.consumed + step.consumed := by
  simp [push, consumed]

theorem size_output_push (t : Trace) (step : Step) :
    (t.push step).output.size = t.output.size + step.produced :=
  size_append_list t.output step.output

theorem of_mem_earlier_push {t : Trace} {step : Step} {call : Nat × Nat}
    (hf : t.finished = false) (h : call ∈ (t.push step).earlier) :
    call ∈ t.earlier ∨ step.finished = false ∧ call = (step.produced, step.consumed) := by
  rw [earlier, hf, if_neg (by decide)]
  rw [earlier, push] at h
  cases hstep : step.finished with
  | true =>
    simp only [hstep, if_true, Array.pop_push] at h
    exact Or.inl h
  | false =>
    simp only [hstep, Bool.false_eq_true, if_false, Array.mem_push] at h
    exact h.imp_right fun h => ⟨rfl, h⟩

/-- All calls before the last had an effect, the last one fails at most by a fault, and the output
is paid for by the input that was taken and by what was at hand before. -/
structure Thrifty (credit : Nat) (input : List UInt8) (t : Trace) : Prop where
  earlier_moved : ∀ call ∈ t.earlier, 0 < call.1 + call.2
  consumed_le : t.consumed ≤ input.length
  left_eq : t.left = input.drop t.consumed
  fault_of_error : ∀ error, t.error? = some error → ∃ fault : Fault, error = .fault fault
  given : t.output.size ≤ credit + 8 * maxMatch * t.consumed

variable {credit : Nat} {input : List UInt8} {t : Trace}

theorem thrifty_start (credit : Nat) (input : List UInt8) : (start input).Thrifty credit input := by
  refine ⟨?_, Nat.zero_le _, rfl, ?_, Nat.zero_le _⟩
  · simp [start, earlier]
  · simp [start]

theorem Thrifty.push (h : t.Thrifty credit input) (hf : t.finished = false) {step : Step}
    (hmoves : step.finished = true ∨ 0 < step.produced + step.consumed)
    (hc : step.consumed ≤ t.left.length)
    (hpaid : t.output.size + step.produced ≤ credit + 8 * maxMatch * (t.consumed + step.consumed)) :
    (t.push step).Thrifty credit input := by
  have hle := h.consumed_le
  rw [h.left_eq, List.length_drop] at hc
  constructor
  · intro call hcall
    obtain hcall | ⟨hstep, rfl⟩ := of_mem_earlier_push hf hcall
    · exact h.earlier_moved call hcall
    · exact hmoves.resolve_left (by simp [hstep])
  · rw [consumed_push]
    omega
  · rw [consumed_push, ← List.drop_drop, ← h.left_eq]
    rfl
  · simp [Trace.push]
  · rw [consumed_push, size_output_push]
    exact hpaid

theorem Thrifty.output_le (h : t.Thrifty credit input) :
    t.output.size ≤ credit + maxMatch * (8 * input.length) := by
  have hconsumed := h.consumed_le
  have hgiven := h.given
  simp only [maxMatch] at hgiven ⊢
  omega

end Trace

variable {s : Schedule} {session : Session} {d : Decompressor} {output : Array UInt8}
  {made : Array (Nat × Nat)} {input left : List UInt8} {k credit calls : Nat}

/-- A run stays thrifty as long as what is at hand pays for what may still come of it. -/
theorem Schedule.Offers.thrifty (h : s.Offers) (hd : session.Inflates d)
    (ht : Trace.Thrifty credit input ⟨output, made, left, false, none⟩)
    (hpaid : output.size + d.backlog ≤
      credit + 8 * maxMatch * Trace.consumed ⟨output, made, left, false, none⟩) :
    (s.run calls k session ⟨output, made, left, false, none⟩).1.Thrifty credit input := by
  induction calls generalizing k session output made left d with
  | zero => exact ht
  | succ calls ih =>
    have hcalled := hd.called (s.offer k left) (s.room k)
    rcases hp : session.process (s.offer k left) (s.room k) with ⟨error | step, session'⟩ <;>
      rw [hp] at hcalled
    · rw [h.run_of_error hp]
      refine ⟨ht.earlier_moved, ht.consumed_le, ht.left_eq, ?_, ht.given⟩
      rintro _ ⟨⟩
      cases hcalled with
      | failed reported starved poisoned => exact decompressError_eq_fault reported
    · cases hcalled with
      | @answered _ d' _ inflates finished fits moves paid =>
        have hc := fits.consumed_le.trans (s.offered k left).length_le
        have hpaid' : output.size + step.produced + d'.backlog ≤ credit + 8 * maxMatch *
            (Trace.consumed ⟨output, made, left, false, none⟩ + step.consumed) := by
          simp only [maxMatch] at hpaid paid ⊢
          omega
        have ht' := ht.push rfl moves hc ((Nat.le_add_right _ _).trans hpaid')
        rw [← Trace.consumed_push, ← Trace.size_output_push ⟨output, made, left, false, none⟩]
          at hpaid'
        rw [h.run_of_ok hp]
        rw [Trace.push] at ht' hpaid'
        cases hf : step.finished with
        | true => rwa [hf] at ht'
        | false =>
          rw [hf] at ht' hpaid'
          exact ih inflates ht' hpaid'

theorem Schedule.Leaves.thrifty {t : Trace} {after : Session} (h : s.Leaves session input t after)
    (hs : s.Offers) (hd : session.Inflates d) : t.Thrifty session.backlog input := by
  obtain ⟨-, n, hn⟩ := h
  have hpaid : (#[] : Array UInt8).size + d.backlog ≤
      session.backlog + 8 * maxMatch * Trace.consumed ⟨#[], #[], input, false, none⟩ := by
    rw [Session.backlog, hd.codec_eq]
    exact (Nat.zero_add _).trans_le (Nat.le_add_right _ _)
  have hrun : (s.run n 0 session (.start input)).1.Thrifty session.backlog input :=
    hs.thrifty hd (Trace.thrifty_start _ _) hpaid
  rwa [hn n (Nat.le_refl n)] at hrun

end Trace

section Message

def Schedule.whole (chunk : Nat) : Schedule :=
  ⟨fun _ => none, fun _ => max chunk 1, true⟩

theorem Schedule.feeds_whole (chunk : Nat) : (whole chunk).Feeds :=
  ⟨⟨by simp [whole], rfl⟩, fun _ => Nat.le_max_right chunk 1⟩

structure Sink.Even (room : Nat) (s : Sink) : Prop where
  room_pos : 0 < room
  size_eq : s.size = room
  floor_eq : s.floor = room

variable {room chunk : Nat} {k : Sink} {l l' : Line} {input : List UInt8} {step : Step}

theorem Sink.exists_even (hc : chunk ≤ Octets.maxSize) :
    ∃ k, whole chunk = .ok k ∧ k.Even (max chunk 1) ∧ k.out = #[] := by
  refine ⟨_, if_neg (Nat.not_lt.mpr hc), ⟨Nat.le_max_right chunk 1, rfl, ?_⟩, rfl⟩
  simp

theorem Sink.Even.room_ready (h : k.Even room) : k.ready.room = room := by
  have hpos := h.room_pos
  rw [ready, h.size_eq, h.floor_eq]
  split
  · exact Nat.sub_zero room
  · simp only [Sink.room]
    omega

def Sink.called (k : Sink) : Except Error Step → Sink
  | .ok step => k.ready.write step.output
  | .error _ => k.ready

theorem Sink.Even.called (h : k.Even room) (answer : Except Error Step) :
    (k.called answer).Even room := by
  have hready : k.ready.Even room := by
    rw [ready]
    split <;> exact ⟨h.room_pos, h.size_eq, h.floor_eq⟩
  cases answer <;> exact ⟨h.room_pos, hready.size_eq, hready.floor_eq⟩

theorem Sink.out_called_error (k : Sink) (error : Error) :
    (k.called (.error error)).out = k.out := by
  rw [called, ready]
  split <;> rfl

theorem Sink.out_called_ok (k : Sink) (step : Step) :
    (k.called (.ok step)).out = k.out ++ step.output := by
  rw [called, write, ready]
  split <;> rfl

theorem Line.sink_of_call {answer : Except Error Step} (h : l.call input = (answer, l')) :
    l'.sink = l.sink.called answer := by
  rw [Line.call] at h
  rcases hp : l.session.process input l.sink.ready.room with ⟨error | step, session⟩ <;>
  · rw [hp] at h
    cases h
    rfl

def Trace.result (t : Trace) : Except Error Unit :=
  match t.error? with
  | some error => .error error
  | none => .ok ()

/-- The schedule makes the calls of a drive from here on that turns out like this. -/
def Schedule.Follows (s : Schedule) (l : Line) (input : List UInt8)
    (result : Except Error Unit × List UInt8 × Line) : Prop :=
  ∀ k made, ∃ calls t, s.run calls k l.session ⟨l.sink.out, made, input, false, none⟩ =
    (t, result.2.2.session) ∧ t.Over ∧ t.result = result.1 ∧ t.left = result.2.1 ∧
      t.output = result.2.2.sink.out

theorem Schedule.follows_of_error {error : Error} (he : l.sink.Even (max chunk 1))
    (hcall : l.call input = (.error error, l')) :
    (whole chunk).Follows l input (.error error, input, l') := by
  intro k made
  have hp := Line.session_of_call hcall
  rw [he.room_ready] at hp
  refine ⟨1, ⟨l.sink.out, made, input, false, some error⟩, ?_, Or.inr nofun, rfl, rfl, ?_⟩
  · exact (feeds_whole chunk).run_of_error hp 0
  · rw [Line.sink_of_call hcall, Sink.out_called_error]

theorem Schedule.follows_of_finished (he : l.sink.Even (max chunk 1))
    (hcall : l.call input = (.ok step, l')) (hf : step.finished = true) :
    (whole chunk).Follows l input (.ok (), input.drop step.consumed, l') := by
  intro k made
  have hp := Line.session_of_call hcall
  rw [he.room_ready] at hp
  refine ⟨1, ⟨l.sink.out ++ step.output, made.push (step.produced, step.consumed),
    input.drop step.consumed, true, none⟩, ?_, Or.inl rfl, rfl, rfl, ?_⟩
  · exact ((feeds_whole chunk).run_of_ok hp 0).trans (if_pos hf)
  · rw [Line.sink_of_call hcall, Sink.out_called_ok]

theorem Schedule.Follows.of_call {result : Except Error Unit × List UInt8 × Line}
    (he : l.sink.Even (max chunk 1)) (hcall : l.call input = (.ok step, l'))
    (hf : ¬ step.finished = true)
    (h : (whole chunk).Follows l' (input.drop step.consumed) result) :
    (whole chunk).Follows l input result := by
  intro k made
  have hp := Line.session_of_call hcall
  rw [he.room_ready] at hp
  obtain ⟨calls, t, hrun, ht⟩ := h (k + 1) (made.push (step.produced, step.consumed))
  refine ⟨calls + 1, t, ?_, ht⟩
  rw [Line.sink_of_call hcall, Sink.out_called_ok] at hrun
  exact ((feeds_whole chunk).run_of_ok hp calls).trans ((if_neg hf).trans hrun)

/-- A call that leads on has taken input, or there is less to come. -/
theorem Session.Inflates.of_call {d : Decompressor} (h : l.session.Inflates d)
    (he : l.sink.Even room) (hcall : l.call input = (.ok step, l')) :
    (∃ d', l'.session.Inflates d') ∧ l'.sink.Even room ∧ step.consumed ≤ input.length ∧
      (¬ step.finished = true → step.consumed = 0 → l'.backlog < l.backlog) := by
  have hcalled := h.called input l.sink.ready.room
  rw [Line.session_of_call hcall] at hcalled
  cases hcalled with
  | @answered _ d' _ inflates finished fits moves paid =>
    refine ⟨⟨d', inflates⟩, ?_, fits.consumed_le, fun hf hc => ?_⟩
    · rw [Line.sink_of_call hcall]
      exact he.called _
    · have hmoves := moves.resolve_left hf
      rw [hc, Nat.mul_zero] at paid
      rw [Line.backlog, Line.backlog, Session.backlog, Session.backlog, inflates.codec_eq, h.codec_eq]
      change d'.backlog < d.backlog
      omega

/-- A drive makes the calls of a schedule, so it is never given up without an answer. -/
theorem Schedule.follows_expand {d : Decompressor} (h : l.session.Inflates d)
    (he : l.sink.Even (max chunk 1)) (input : List UInt8) :
    (whole chunk).Follows l input (l.expand input) := by
  -- on the calls of the drive, which is given up only after a call without an effect
  fun_induction Line.expand l input generalizing d with
  | case1 l input error l' hcall => exact follows_of_error he hcall
  | case2 l input step l' hcall hf => exact follows_of_finished he hcall hf
  | case3 l =>
    rename_i step l' hf byte rest hpos hcall ih
    obtain ⟨⟨d', h'⟩, he', -⟩ := h.of_call he hcall
    exact (ih h' he').of_call he hcall hf
  | case4 l =>
    rename_i before step l' hf byte rest hzero hless hcall ih
    obtain ⟨⟨d', h'⟩, he', -⟩ := h.of_call he hcall
    apply Follows.of_call he hcall hf
    rw [Nat.eq_zero_of_not_pos hzero]
    exact ih h' he'
  | case5 l =>
    rename_i before step l' hf byte rest hzero hmore hcall
    obtain ⟨-, -, -, hless⟩ := h.of_call he hcall
    exact absurd (hless hf (Nat.eq_zero_of_not_pos hzero)) hmore
  | case6 l =>
    rename_i before step l' hf hless hcall ih
    obtain ⟨⟨d', h'⟩, he', -⟩ := h.of_call he hcall
    apply Follows.of_call he hcall hf
    rw [List.drop_nil]
    exact ih h' he'
  | case7 l =>
    rename_i before step l' hf hmore hcall
    obtain ⟨-, -, hc, hless⟩ := h.of_call he hcall
    exact absurd (hless hf (Nat.eq_zero_of_le_zero hc)) hmore

theorem Session.Inflates.decompressAll {s : Session} {d : Decompressor} (h : s.Inflates d)
    (hm : s.profile.mode = .decompress) (input : List UInt8) (hc : chunk ≤ Octets.maxSize) :
    ∃ t after, (Schedule.whole chunk).Leaves s input t after ∧
      (s.decompressAll input chunk).1 = t.verdict := by
  obtain ⟨k, hk, heven, hout⟩ := Sink.exists_even hc
  have hfeeds := Schedule.feeds_whole chunk
  obtain ⟨calls, t, hrun, hover, hresult, hleft, houtput⟩ :=
    Schedule.follows_expand (l := ⟨s, k⟩) h heven input 0 #[]
  rw [hout] at hrun
  have hleaves : (Schedule.whole chunk).Leaves s input t (Line.expand ⟨s, k⟩ input).2.2.session := by
    refine ⟨hover, calls, fun more hmore => ?_⟩
    rw [Trace.start, hfeeds.run_eq_of_over (by rwa [hrun]) hmore]
    exact hrun
  refine ⟨t, _, hleaves, ?_⟩
  rw [Session.decompressAll, if_neg (not_not_intro hm), hk]
  dsimp only
  rw [← hresult, Trace.result, Trace.verdict]
  cases hleaves.last hfeeds.toOffers h.toRuns with
  | finished ended runs finished error =>
    rw [error]
    dsimp only
    rw [settle, Session.reset, runs.fresh, houtput]
    rfl
  | failed answer poisoned finished error =>
    rw [error]
    rfl

theorem Session.Inflates.decompressAll_ne_endless {s : Session} {d : Decompressor}
    (h : s.Inflates d) (hm : s.profile.mode = .decompress) (input : List UInt8)
    (hc : chunk ≤ Octets.maxSize) : (s.decompressAll input chunk).1 ≠ .error .endless := by
  obtain ⟨t, after, hleaves, hanswer⟩ := h.decompressAll hm input hc
  have hthrifty := hleaves.thrifty (Schedule.feeds_whole chunk).toOffers h
  rw [hanswer, Trace.verdict]
  cases herror : t.error? with
  | none => simp
  | some error =>
    obtain ⟨fault, rfl⟩ := hthrifty.fault_of_error error herror
    simp

end Message

/-- Every call of the session that is given input and room moves, and every message comes to an
answer after calls that moved and gave no more than was paid for. -/
structure Session.Progresses (s : Session) : Prop where
  call : ∀ {input : List UInt8} {room : Nat}, input ≠ [] → 0 < room →
    Moves (s.process input room).1
  message : ∀ (input : List UInt8) {chunk : Nat}, chunk ≤ Octets.maxSize →
    ∃ t after, (Schedule.whole chunk).Leaves s input t after ∧
      (s.decompressAll input chunk).1 = t.verdict ∧ t.Thrifty s.backlog input

theorem Session.Inflates.progresses {s : Session} {d : Decompressor} (h : s.Inflates d)
    (hm : s.profile.mode = .decompress) : s.Progresses where
  call hne hroom := (h.called _ _).moves hne hroom
  message input {chunk} hc := by
    obtain ⟨t, after, hleaves, hanswer⟩ := h.decompressAll hm input hc
    exact ⟨t, after, hleaves, hanswer, hleaves.thrifty (Schedule.feeds_whole chunk).toOffers h⟩

theorem Schedule.Leaves.unique {s : Schedule} {session after after' : Session} {input : List UInt8}
    {t t' : Trace} (h : s.Leaves session input t after) (h' : s.Leaves session input t' after') :
    t = t' ∧ after = after' := by
  obtain ⟨-, m, hm⟩ := h
  obtain ⟨-, n, hn⟩ := h'
  have heq := (hm (max m n) (Nat.le_max_left m n)).symm.trans (hn (max m n) (Nat.le_max_right m n))
  exact Prod.mk.inj heq

theorem Schedule.Feeds.leaves_of_completes {s : Schedule} (hs : s.Feeds) {raw : Bool}
    {stream out : List UInt8} (h : Completes raw stream out) (rest : List UInt8) (level : Nat) :
    ∃ t after, s.Leaves (.fresh ⟨.portable, .decompress, level, raw⟩) (stream ++ rest) t after ∧
      t.verdict = .ok out := by
  obtain ⟨e, bits, hhalts, hout, hholds, hlength⟩ := completes_iff.mp h
  obtain ⟨session, t, hstart, hends, hshows⟩ := hs.ends level raw (stream ++ rest)
  obtain rfl := Session.eq_fresh_of_start hstart
  obtain ⟨after, hleaves⟩ := hends.leaves hs.toOffers
  obtain ⟨-, herror, houtput, -⟩ := hshows.trailing hhalts hholds hlength
  refine ⟨t, after, hleaves, ?_⟩
  rw [Trace.verdict, herror, ← hout, ← houtput]

/-- Whatever was done with a decompressing session that is not poisoned, it makes progress. From a
new session no more comes than a longest copy for every bit of the input. -/
theorem decompression_progresses {p : Profile} (hb : p.backend = .portable)
    (hm : p.mode = .decompress) {s : Session} (hs : Session.start p = .ok s)
    (uses : List Session.Use) (hp : (replies Session.use s uses).2.poisoned = false) :
    (replies Session.use s uses).2.Progresses ∧
      ∀ (input : List UInt8) {chunk : Nat}, chunk ≤ Octets.maxSize → ∀ t after,
        (Schedule.whole chunk).Leaves s input t after →
          t.output.size ≤ maxMatch * (8 * input.length) := by
  obtain rfl := Session.eq_fresh_of_start hs
  have hmode : (Session.fresh p).profile.mode = .decompress := hm
  have hfresh := Session.inflates_fresh hb hm
  constructor
  · obtain ⟨d, hd⟩ :=
      (Session.kept_decompresses.uses (Session.decompresses_fresh hb hm) uses).inflates hp
    apply hd.progresses
    rw [((Session.kept_serves p).uses (Session.serves_fresh hb) uses).profile_eq]
    exact hm
  · intro input chunk hc t after hleaves
    obtain ⟨t', after', hleaves', -, hthrifty⟩ := (hfresh.progresses hmode).message input hc
    obtain ⟨rfl, rfl⟩ := hleaves.unique hleaves'
    have hnothing : (Session.fresh p).backlog = 0 := by
      rw [Session.backlog, hfresh.codec_eq]
      cases hraw : p.raw <;> rfl
    have houtput := hthrifty.output_le
    rwa [hnothing, Nat.zero_add] at houtput

/-- Within the head of a block, of which the first byte has been taken. -/
theorem decompression_progresses_within_head :
    ∃ s, Session.start ⟨.portable, .decompress, 0, true⟩ = .ok s ∧
      (replies Session.use s [.process [1] 4]).2.poisoned = false ∧
      (replies Session.use s [.process [1] 4]).2.Progresses ∧
      ∀ (input : List UInt8) {chunk : Nat}, chunk ≤ Octets.maxSize → ∀ t after,
        (Schedule.whole chunk).Leaves s input t after →
          t.output.size ≤ maxMatch * (8 * input.length) := by
  have hs : Session.start ⟨.portable, .decompress, 0, true⟩ =
    .ok (.fresh ⟨.portable, .decompress, 0, true⟩) := rfl
  have hp : (replies Session.use (.fresh ⟨.portable, .decompress, 0, true⟩)
    [.process [1] 4]).2.poisoned = false := by decide +kernel
  exact ⟨_, hs, hp, decompression_progresses rfl rfl hs [.process [1] 4] hp⟩

/-- A chunk that does not fit in a buffer stops the machine before the first call, though the calls
would come to an answer. -/
theorem decompression_stops_beyond_maxSize :
    (∀ calls, (Machine.Session.start ⟨.portable, .decompress, 0, true⟩).decompressAll? calls
      [1, 2, 0, 253, 255, 1, 2] (2 ^ 63) = none) ∧
      ∃ s t after, Session.start ⟨.portable, .decompress, 0, true⟩ = .ok s ∧
        (s.decompressAll [1, 2, 0, 253, 255, 1, 2] (2 ^ 63)).1 = .error (.bufferSize (2 ^ 63)) ∧
        (Schedule.whole (2 ^ 63)).Leaves s [1, 2, 0, 253, 255, 1, 2] t after ∧
        t.verdict = .ok [1, 2] := by
  constructor
  · intro calls
    exact Machine.Session.decompressAll?_of_maxSize_lt rfl (by decide)
  · obtain ⟨t, after, hleaves, hverdict⟩ :=
      (Schedule.feeds_whole (2 ^ 63)).leaves_of_completes completes_stored_pair [] 0
    exact ⟨_, t, after, rfl, rfl, hleaves, hverdict⟩

end Conduit
