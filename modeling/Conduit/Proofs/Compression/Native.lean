import Conduit.Proofs.Compression.Keeping

namespace Conduit

variable {c c' : NativeCodec} {s s' : Session} {l l' : Line} {input : List UInt8}
  {room chunk : Nat} {step : Step}

/-- By the law of its engine, a native codec has less to give out after a call that took nothing. -/
theorem NativeCodec.backlog_lt (h : c.process input room = (.ok step, c'))
    (hf : step.finished = false) (hc : step.consumed = 0) : c'.backlog < c.backlog := by
  obtain ⟨engine, mode, framed, stream, finished⟩ := c
  rw [process] at h
  split at h
  · cases h
    cases hf
  · split at h <;> cases h
    next hrun => exact engine.backlog_lt hrun rfl hc
    next => cases hf

theorem NativeCodec.consumed_le (h : c.process input room = (.ok step, c')) :
    step.consumed ≤ input.length := by
  obtain ⟨engine, mode, framed, stream, finished⟩ := c
  rw [process] at h
  split at h
  · cases h
    exact Nat.zero_le _
  · split at h <;> cases h
    next hrun => exact engine.consumed_le hrun
    next hrun => exact engine.consumed_le hrun

namespace Session

def IsNative (s : Session) : Prop :=
  ∃ c, s.codec = .native c

theorem kept_isNative : Kept IsNative where
  process := by
    rintro ⟨profile, _, finished, consumedLast, poisoned⟩ ⟨c, rfl⟩ input room
    rw [process]
    cases poisoned with
    | true => exact ⟨c, rfl⟩
    | false =>
      simp only [Codec.process]
      rcases c.process input room with ⟨fault | step, c'⟩ <;> exact ⟨c', rfl⟩
  reset := by
    rintro ⟨profile, _, finished, consumedLast, poisoned⟩ ⟨c, rfl⟩
    cases poisoned with
    | true => exact ⟨c, rfl⟩
    | false => exact ⟨c.reset, rfl⟩

theorem IsNative.exists_process (hs : s.IsNative) (h : s.process input room = (.ok step, s')) :
    ∃ c c' : NativeCodec, s.codec = .native c ∧ s'.codec = .native c' ∧
      c.process input room = (.ok step, c') := by
  obtain ⟨profile, _, finished, consumedLast, poisoned⟩ := s
  obtain ⟨c, rfl⟩ := hs
  rw [process] at h
  split at h
  · cases h
  · simp only [Codec.process] at h
    rcases hprocess : c.process input room with ⟨fault | step', c'⟩ <;> rw [hprocess] at h <;>
      cases h
    exact ⟨c, c', rfl, rfl, hprocess⟩

/-- Nothing is the whole of what a call can take of an empty input. -/
theorem IsNative.backlog_lt (hs : s.IsNative) (h : s.process input room = (.ok step, s'))
    (hf : ¬step.finished = true) (hc : step.consumed = 0 ∨ input = []) :
    s'.backlog < s.backlog := by
  obtain ⟨c, c', hcodec, hcodec', hprocess⟩ := hs.exists_process h
  have hzero : step.consumed = 0 := by
    rcases hc with hc | rfl
    · exact hc
    · exact Nat.le_zero.mp (NativeCodec.consumed_le hprocess)
  rw [backlog, backlog, hcodec, hcodec']
  exact NativeCodec.backlog_lt hprocess (Bool.eq_false_iff.mpr hf) hzero

theorem IsNative.process_ne_endless (hs : s.IsNative) (input : List UInt8) (room : Nat) :
    (s.process input room).1 ≠ .error .endless := by
  obtain ⟨profile, _, finished, consumedLast, poisoned⟩ := s
  obtain ⟨c, rfl⟩ := hs
  rw [process]
  cases poisoned with
  | true => rintro ⟨⟩
  | false =>
    simp only [Codec.process]
    rcases c.process input room with ⟨fault | step, c'⟩ <;> rintro ⟨⟩

end Session

namespace Line

theorem expand_ne_endless_of_isNative (h : l.session.IsNative) (input : List UInt8) :
    (l.expand input).1 ≠ .error .endless := by
  fun_induction Line.expand l input with
  | case1 l input error l' hcall =>
    have hne := h.process_ne_endless input l.sink.ready.room
    rw [session_of_call hcall] at hne
    exact fun heq => hne (congrArg Except.error (Except.error.inj heq))
  | case2 => rintro ⟨⟩
  | case3 l step l' hf byte rest hpos hcall ih => exact ih (Session.kept_isNative.call h hcall)
  | case4 l before step l' hf byte rest hzero hless hcall ih =>
    exact ih (Session.kept_isNative.call h hcall)
  | case5 l before step l' hf byte rest hzero hsame hcall =>
    exact absurd (h.backlog_lt (session_of_call hcall) hf (.inl (Nat.eq_zero_of_not_pos hzero)))
      hsame
  | case6 l before step l' hf hless hcall ih => exact ih (Session.kept_isNative.call h hcall)
  | case7 l before step l' hf hsame hcall =>
    exact absurd (h.backlog_lt (session_of_call hcall) hf (.inr rfl)) hsame

end Line

theorem Session.settle_ne_endless {result : Except Error Unit} (h : result ≠ .error .endless)
    (l : Line) : (settle result l).1 ≠ .error .endless := by
  cases result with
  | error error => exact fun heq => h (congrArg Except.error (Except.error.inj heq))
  | ok done =>
    rw [settle, reset]
    cases l.session.poisoned <;> simp

/-- Whatever has been done with a native session, it comes to an answer on every message. -/
theorem native_decompression_returns {n : Native} {mode : Mode} {level : Nat} {raw : Bool}
    (hstart : Session.start ⟨.native n, mode, level, raw⟩ = .ok s) (uses : List Session.Use)
    (input : List UInt8) (chunk : Nat) :
    ((replies Session.use s uses).2.decompressAll input chunk).1 ≠ .error .endless := by
  have hs : s.IsNative := by
    cases Session.eq_fresh_of_start hstart
    exact ⟨_, rfl⟩
  have hused := Session.kept_isNative.uses hs uses
  generalize (replies Session.use s uses).2 = used at hused
  rw [Session.decompressAll, Sink.whole, Sink.start]
  by_cases hmode : used.profile.mode ≠ .decompress
  · rw [if_pos hmode]
    rintro ⟨⟩
  · rw [if_neg hmode]
    by_cases hsize : Octets.maxSize < chunk
    · rw [if_pos hsize]
      simp
    · rw [if_neg hsize]
      exact Session.settle_ne_endless (Line.expand_ne_endless_of_isNative hused input) _

end Conduit
