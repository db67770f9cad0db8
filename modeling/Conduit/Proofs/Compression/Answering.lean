import Conduit.Proofs.Compression.Compressing
import Conduit.Proofs.Compression.Reckoning
import Conduit.Proofs.Deflate.Phases
import Conduit.Proofs.Deflate.Waiting

namespace Conduit

open Deflate

/-- How a stream has gone so far: what has passed, whether a call with empty input has asked for its
end, and whether a call has reported it. -/
structure Course extends Passed where
  asked : Bool := false
  reported : Bool := false

namespace Course

def called (t : Course) (input : List UInt8) (step : Step) : Course :=
  ⟨t.toPassed.called input step, t.asked || input.isEmpty, t.reported || step.finished⟩

/-- With one more use that was answered like this. A use that fails changes nothing. -/
def after (t : Course) : Session.Act → Except Error (Option Step) → Course
  | .call input _, .ok (some step) => t.called input step
  | .reset, .ok _ => {}
  | _, .ok none => t
  | _, .error _ => t

def through : Course → List Session.Act → List Session.Sight → Course :=
  follow fun t a sight => t.after a sight.answer

def encoded (t : Course) (level : Nat) (framed : Bool) : List UInt8 :=
  Deflate.encoded level framed t.asked t.taken

def waiting (t : Course) (level : Nat) (framed : Bool) : Nat :=
  (t.encoded level framed).length - t.given.length

structure Answers (t : Course) (level : Nat) (framed : Bool) (input : List UInt8) (room : Nat)
    (answer : Except Error Step) : Prop where
  handed : t.given <+: t.encoded level framed
  fails_iff : (∃ error, answer = .error error) ↔ input ≠ [] ∧ t.asked = true ∧ t.reported = false
  fault : ∀ error, answer = .error error →
    error = .fault .inputAfterEnd ∧ error.status? = some (-2)
  finished_iff : ∀ step, answer = .ok step → (step.finished = true ↔
    (t.called input step).asked = true ∧
      (t.called input step).given = (t.called input step).encoded level framed)
  ended : t.reported = true → answer = .ok .ended
  takes_iff : t.asked = false → input ≠ [] → ∀ step, answer = .ok step →
    (0 < step.consumed ↔ t.waiting level framed ≤ room)
  consumed_eq : t.asked = false → input ≠ [] → ∀ step, answer = .ok step → 0 < step.consumed →
    step.consumed = min (blockSize - t.taken.length % blockSize) input.length

variable {t : Course} {level room : Nat} {framed : Bool} {input : List UInt8} {step : Step}

theorem called_ended (ha : t.asked = true) (ho : t.reported = true) (input : List UInt8) :
    t.called input .ended = t := by
  obtain ⟨passed, asked, reported⟩ := t
  obtain rfl : asked = true := ha
  obtain rfl : reported = true := ho
  rw [called, Passed.called_ended]
  rfl

theorem asked_called (t : Course) (input : List UInt8) (step : Step) :
    (t.called input step).asked = true ↔ t.asked = true ∨ input = [] := by
  rw [called, Bool.or_eq_true, List.isEmpty_iff]

theorem asked_called_nil (t : Course) (step : Step) : (t.called [] step).asked = true :=
  (t.asked_called [] step).mpr (.inr rfl)

theorem taken_called_nil (t : Course) (step : Step) : (t.called [] step).taken = t.taken :=
  (congrArg _ List.take_nil).trans (List.append_nil _)

theorem answers_refused (handed : t.given <+: t.encoded level framed) (hne : input ≠ [])
    (ha : t.asked = true) (ho : t.reported = false) :
    t.Answers level framed input room (.error (.fault .inputAfterEnd)) where
  handed := handed
  fails_iff := iff_of_true ⟨_, rfl⟩ ⟨hne, ha, ho⟩
  fault := by
    rintro error ⟨⟩
    exact ⟨rfl, rfl⟩
  finished_iff := by rintro step ⟨⟩
  ended h := absurd (ho.symm.trans h) (by decide)
  takes_iff h := absurd (ha.symm.trans h) (by decide)
  consumed_eq h := absurd (ha.symm.trans h) (by decide)

theorem answers_asked (handed : t.given <+: t.encoded level framed)
    (ha : t.asked = true ∨ input = []) (hne : input ≠ [] → t.reported = true)
    (hended : t.reported = true → step = .ended)
    (hfinished : step.finished = true ↔
      (t.called input step).given = (t.called input step).encoded level framed) :
    t.Answers level framed input room (.ok step) where
  handed := handed
  fails_iff := by
    apply iff_of_false
    · rintro ⟨error, ⟨⟩⟩
    · rintro ⟨h, -, ho⟩
      exact absurd (ho.symm.trans (hne h)) (by decide)
  fault := by rintro error ⟨⟩
  finished_iff := by
    rintro _ ⟨⟩
    rw [hfinished, asked_called]
    exact (and_iff_right ha).symm
  ended ho := congrArg _ (hended ho)
  takes_iff h hn := absurd (h.symm.trans (ha.resolve_right hn)) (by decide)
  consumed_eq h hn := absurd (h.symm.trans (ha.resolve_right hn)) (by decide)

theorem answers_taken (handed : t.given <+: t.encoded level framed) (hne : input ≠ [])
    (ha : t.asked = false) (ho : t.reported = false) (hf : step.finished = false)
    (htakes : step.consumed = if t.waiting level framed ≤ room then
      min (blockSize - t.taken.length % blockSize) input.length else 0) :
    t.Answers level framed input room (.ok step) where
  handed := handed
  fails_iff := by
    apply iff_of_false
    · rintro ⟨error, ⟨⟩⟩
    · rintro ⟨-, h, -⟩
      exact absurd (ha.symm.trans h) (by decide)
  fault := by rintro error ⟨⟩
  finished_iff := by
    rintro _ ⟨⟩
    apply iff_of_false (Bool.eq_false_iff.mp hf)
    rintro ⟨h, -⟩
    obtain h | rfl := (asked_called t input step).mp h
    · exact absurd (ha.symm.trans h) (by decide)
    · exact hne rfl
  ended h := absurd (ho.symm.trans h) (by decide)
  takes_iff := by
    rintro - - _ ⟨⟩
    have hpos := List.length_pos_iff.mpr hne
    have hblock : t.taken.length % blockSize < blockSize := Nat.mod_lt _ (by decide)
    rw [htakes]
    split
    next h => exact iff_of_true (by omega) h
    next h => exact iff_of_false (Nat.lt_irrefl 0) h
  consumed_eq := by
    rintro - - _ ⟨⟩ hpos
    rw [htakes] at hpos ⊢
    split at hpos
    next h => rw [if_pos h]
    next => exact absurd hpos (Nat.lt_irrefl 0)

end Course

section Compressor

variable {c c' : Compressor} {t : Course} {level room : Nat} {framed : Bool}
  {input whole : List UInt8} {step : Step}

inductive Deflate.Compressor.Along (c : Compressor) (level : Nat) (framed : Bool) (t : Course) :
    Prop
  | gathers (gathers : c.Gathers level framed t.taken t.given) (asked : t.asked = false)
      (reported : t.reported = false)
  | closes {whole : List UInt8} (closes : c.Closes whole t.given)
      (encode_eq : encode level framed t.taken = some whole) (asked : t.asked = true)
      (reported : t.reported = false)
  | ended (phase_eq : c.phase = .ended) (encode_eq : encode level framed t.taken = some t.given)
      (asked : t.asked = true) (reported : t.reported = true)

namespace Deflate.Compressor

theorem along_start (level : Nat) (framed : Bool) :
    (start level framed).Along level framed {} :=
  .gathers (gathers_start level framed) rfl rfl

theorem encoded_of_asked (ha : t.asked = true) (h : encode level framed t.taken = some whole) :
    t.encoded level framed = whole := by
  rw [Course.encoded, encoded, if_pos ha, h, Option.getD_some]

theorem Along.handed (h : c.Along level framed t) : t.given <+: t.encoded level framed := by
  cases h with
  | gathers gathers asked reported =>
    obtain ⟨waiting, hencoded, -⟩ := gathers.encoded_eq
    rw [Course.encoded, asked, hencoded]
    exact List.prefix_append _ _
  | closes closes encode_eq asked reported =>
    obtain ⟨waiting, rfl⟩ := closes.exists_append
    rw [encoded_of_asked asked encode_eq]
    exact List.prefix_append _ _
  | ended phase_eq encode_eq asked reported =>
    exact (encoded_of_asked asked encode_eq) ▸ List.prefix_refl _

theorem Settles.called_answers (h : c'.Settles whole t.given step)
    (hwhole : encode level framed t.taken = some whole) (ho : t.reported = false)
    (handed : t.given <+: t.encoded level framed) :
    t.Answers level framed [] room (.ok step) := by
  apply Course.answers_asked handed (.inr rfl) (absurd rfl)
  · intro h'
    exact absurd (ho.symm.trans h') (by decide)
  · rw [← t.taken_called_nil step] at hwhole
    rw [encoded_of_asked (t.asked_called_nil step) hwhole]
    exact h.finished_iff

theorem Settles.along (h : c'.Settles whole t.given step)
    (hwhole : encode level framed t.taken = some whole)
    (hprocess : c.process [] room = (.ok step, c')) (ho : t.reported = false) :
    c'.Along level framed (t.called [] step) := by
  have hover : (t.called [] step).reported = step.finished := by
    rw [Course.called, ho, Bool.false_or]
  rw [← t.taken_called_nil step] at hwhole
  obtain ⟨-, h⟩ := h
  by_cases hf : step.finished = true
  · rw [if_pos hf] at h
    subst h
    exact .ended ((finished_of_process hprocess).mp hf) hwhole (t.asked_called_nil step)
      (hover.trans hf)
  · rw [if_neg hf] at h
    exact .closes h.1 hwhole (t.asked_called_nil step) (hover.trans (Bool.eq_false_iff.mpr hf))

theorem Along.answers (h : c.Along level framed t) (input : List UInt8) (room : Nat) :
    t.Answers level framed input room ((c.process input room).1.mapError Codec.compressError) := by
  have handed := h.handed
  cases h with
  | gathers gathers asked reported =>
    by_cases hne : input = []
    · subst hne
      obtain ⟨blocks, hwhole, -⟩ := encode_spec level framed t.taken
      obtain ⟨step, c', hprocess, hsettles⟩ := gathers.finish hwhole room
      rw [hprocess]
      exact hsettles.called_answers hwhole reported handed
    · obtain ⟨step, c', hprocess, hf, -⟩ := gathers.take hne room
      obtain ⟨waiting, hencoded, hlen⟩ := gathers.encoded_eq
      have hwaiting : t.waiting level framed = c.backlog := by
        rw [Course.waiting, Course.encoded, asked, hencoded, List.length_append, hlen]
        exact Nat.add_sub_cancel_left _ _
      rw [hprocess]
      apply Course.answers_taken handed hne asked reported hf
      rw [hwaiting]
      exact gathers.consumed_eq hne hprocess
  | closes closes encode_eq asked reported =>
    by_cases hne : input = []
    · subst hne
      obtain ⟨step, c', hprocess, hsettles, -⟩ := closes.finish room
      rw [hprocess]
      exact hsettles.called_answers encode_eq reported handed
    · obtain ⟨c', hprocess⟩ := closes.refuses hne room
      rw [hprocess]
      exact Course.answers_refused handed hne asked reported
  | ended phase_eq encode_eq asked reported =>
    rw [process_of_ended phase_eq]
    apply Course.answers_asked handed (.inl asked) (fun _ => reported) (fun _ => rfl)
    rw [Course.called_ended asked reported, encoded_of_asked asked encode_eq]
    exact iff_of_true rfl rfl

theorem Along.process (h : c.Along level framed t)
    (hprocess : c.process input room = (.ok step, c')) :
    c'.Along level framed (t.called input step) := by
  cases h with
  | gathers gathers asked reported =>
    by_cases hne : input = []
    · subst hne
      obtain ⟨blocks, hwhole, -⟩ := encode_spec level framed t.taken
      obtain ⟨step', c'', hfinish, hsettles⟩ := gathers.finish hwhole room
      cases hprocess.symm.trans hfinish
      exact hsettles.along hwhole hfinish reported
    · obtain ⟨step', c'', htake, hf, -, gathers', -⟩ := gathers.take hne room
      cases hprocess.symm.trans htake
      refine .gathers gathers' ?_ ?_
      · rw [Bool.eq_false_iff, ne_eq, Course.asked_called, asked]
        intro h
        exact hne (h.resolve_left (by decide))
      · rw [Course.called, reported, hf, Bool.or_self]
  | closes closes encode_eq asked reported =>
    by_cases hne : input = []
    · subst hne
      obtain ⟨step', c'', hfinish, hsettles, -⟩ := closes.finish room
      cases hprocess.symm.trans hfinish
      exact hsettles.along encode_eq hfinish reported
    · obtain ⟨c'', hrefused⟩ := closes.refuses hne room
      cases hprocess.symm.trans hrefused
  | ended phase_eq encode_eq asked reported =>
    cases hprocess.symm.trans (process_of_ended phase_eq input room)
    rw [Course.called_ended asked reported]
    exact .ended phase_eq encode_eq asked reported

end Deflate.Compressor

end Compressor

section Session

variable {s : Session} {t : Course} {p : Profile}

inductive Session.Along (s : Session) (p : Profile) (t : Course) : Prop
  | poisoned (poisoned : s.poisoned = true)
  | runs {c : Compressor} (runs : s.Runs (.compressor c)) (along : c.Along p.level (!p.raw) t)

namespace Session

theorem along_fresh (hb : p.backend = .portable) (hm : p.mode = .compress) :
    (fresh p).Along p {} := by
  obtain ⟨backend, mode, level, raw⟩ := p
  obtain rfl : backend = .portable := hb
  obtain rfl : mode = .compress := hm
  exact .runs (runs_compressing level raw) (Compressor.along_start level _)

theorem Along.call (h : s.Along p t) (input : List UInt8) (room : Nat) :
    (s.process input room).2.Along p
      (t.after (.call input room) ((s.process input room).1.map some)) := by
  cases h with
  | poisoned hpoisoned =>
    rw [process_of_poisoned hpoisoned]
    exact .poisoned hpoisoned
  | @runs c runs along =>
    rcases hc : c.process input room with ⟨fault | step, c'⟩
    · obtain ⟨s', hs⟩ := runs.process_error (Codec.process_compressor_error hc)
      rw [hs]
      exact .poisoned (poisoned_of_process hs)
    · obtain ⟨s', hs, runs'⟩ := runs.process_ok (Codec.process_compressor hc)
      rw [hs]
      exact .runs runs' (along.process hc)

theorem along_reset (t : Course) (hs : s.Serves p) (hm : p.mode = .compress) :
    s.reset.2.Along p (t.after .reset (s.reset.1.map fun _ => none)) := by
  cases hp : s.poisoned with
  | true =>
    rw [reset_of_poisoned hp]
    exact .poisoned hp
  | false =>
    rw [hs.reset_eq hp]
    exact along_fresh hs.backend_eq hm

theorem Along.act (h : s.Along p t) (hs : s.Serves p) (hm : p.mode = .compress) (a : Act) :
    (s.act a).2.Along p (t.after a (s.act a).1.answer) := by
  cases a with
  | call input room => exact h.call input room
  | reset => exact along_reset t hs hm

theorem Along.acts (h : s.Along p t) (hs : s.Serves p) (hm : p.mode = .compress)
    (acts : List Act) :
    (replies Session.act s acts).2.Along p (t.through acts (replies Session.act s acts).1) :=
  (follow_replies (R := fun (s : Session) t => s.Along p t ∧ s.Serves p)
    (fun h a => ⟨h.1.act h.2 hm a, h.2.act a⟩) ⟨h, hs⟩ acts).1

theorem Along.answers (h : s.Along p t) (hp : s.poisoned = false) (input : List UInt8)
    (room : Nat) : t.Answers p.level (!p.raw) input room (s.process input room).1 := by
  cases h with
  | poisoned poisoned => cases hp.symm.trans poisoned
  | runs runs along =>
    rw [runs.answer]
    exact along.answers input room

section Poison

variable {s' : Session} {input : List UInt8} {room : Nat} {step : Step} {error : Error}

theorem unpoisoned_of_act {a : Act} (h : (s.act a).1.answer.isOk = true) :
    (s.act a).2.poisoned = false := by
  cases a with
  | call input room =>
    rw [act] at h ⊢
    rcases hp : s.process input room with ⟨error | step, s'⟩ <;> rw [hp] at h
    · cases h
    · exact unpoisoned_of_process hp
  | reset =>
    cases hp : s.poisoned with
    | true =>
      rw [act, reset_of_poisoned hp] at h
      cases h
    | false => rw [act, Session.reset, if_neg (by simp [hp])]

theorem unpoisoned_of_replies {acts : List Act} (hp : s.poisoned = false)
    (h : ∀ sight ∈ (replies Session.act s acts).1, sight.answer.isOk = true) :
    (replies Session.act s acts).2.poisoned = false := by
  induction acts generalizing s with
  | nil => exact hp
  | cons a acts ih =>
    rw [replies_cons] at h
    obtain ⟨hfirst, hrest⟩ := List.forall_mem_cons.mp h
    exact ih (unpoisoned_of_act hfirst) hrest

/-- A poisoned session says that its latest call took nothing. -/
theorem kept_idle : Kept fun s => s.poisoned = true → s.consumedLast = 0 where
  process := by
    intro s h input room
    rw [process]
    split
    · exact h
    · split
      · rintro ⟨⟩
      · intro _
        rfl
  reset := by
    intro s h
    rw [Session.reset]
    split
    · exact h
    · rintro ⟨⟩

theorem sight_of_failure (hidle : s.poisoned = true → s.consumedLast = 0)
    (h : s.process input room = (.error error, s')) (answer : Except Error (Option Step)) :
    s'.sight answer = ⟨answer, s.finished, 0, true⟩ := by
  rw [process] at h
  split at h
  next hp =>
    cases h
    rw [sight, hidle hp, hp]
  · split at h <;> cases h
    rfl

/-- Behind a call that fails every use does. -/
theorem replies_of_failure (hidle : s.poisoned = true → s.consumedLast = 0)
    (h : (s.process input room).1 = .error error) (later : List Act) :
    (replies Session.act s (.call input room :: later)).1 =
      ⟨.error error, s.finished, 0, true⟩ ::
        List.replicate later.length ⟨.error .poisoned, s.finished, 0, true⟩ := by
  obtain ⟨s', hprocess⟩ : ∃ s', s.process input room = (.error error, s') := ⟨_, Prod.ext h rfl⟩
  have hact : s.act (.call input room) = (⟨.error error, s.finished, 0, true⟩, s') := by
    rw [act, hprocess]
    exact congrArg (·, s') (sight_of_failure hidle hprocess (.error error))
  rw [replies_cons, hact]
  dsimp only
  rw [replies_of_poisoned (poisoned_of_process hprocess), sight_of_failure hidle hprocess]

end Poison

end Session

end Session

/-- What a compressing session answers to each of its calls, as long as none has failed, and what a
session of either mode shows from the first call that fails on. -/
theorem session_life_cycle :
    (∀ (p : Profile) (s : Session) (acts : List Session.Act), p.backend = .portable →
      p.mode = .compress → Session.start p = .ok s →
      (∀ sight ∈ (replies Session.act s acts).1, sight.answer.isOk = true) →
      ∀ input room,
        (Course.through {} acts (replies Session.act s acts).1).Answers p.level (!p.raw) input room
          ((replies Session.act s acts).2.process input room).1) ∧
    ∀ (p : Profile) (s : Session) (acts : List Session.Act) (input : List UInt8) (room : Nat)
      (error : Error), Session.start p = .ok s →
      ((replies Session.act s acts).2.process input room).1 = .error error →
      ∀ later, (replies Session.act s (acts ++ .call input room :: later)).1 =
        (replies Session.act s acts).1 ++
          ⟨.error error, (replies Session.act s acts).2.finished, 0, true⟩ ::
          List.replicate later.length
            ⟨.error .poisoned, (replies Session.act s acts).2.finished, 0, true⟩ := by
  refine ⟨?_, ?_⟩
  · intro p s acts hb hm hstart hok input room
    cases Session.eq_fresh_of_start hstart
    have halong := (Session.along_fresh hb hm).acts (Session.serves_fresh hb) hm acts
    exact halong.answers (Session.unpoisoned_of_replies rfl hok) input room
  · intro p s acts input room error hstart herror later
    cases Session.eq_fresh_of_start hstart
    have hidle := Session.kept_idle.acts (s := .fresh p) (fun _ => rfl) acts
    rw [replies_append]
    exact congrArg _ (Session.replies_of_failure hidle herror later)

/-- The second stream of a session is asked to end, but there is no room for all of it when more
input comes. -/
theorem session_life_cycle_of_late_input :
    ∃ s sights m, Session.start ⟨.portable, .compress, 0, true⟩ = .ok s ∧
      replies Session.act s [.call [1, 2] 0, .reset, .call [7] 9, .call [] 2] = (sights, m) ∧
      (∀ sight ∈ sights, sight.answer.isOk = true) ∧
      (m.process [5] 9).1 = .error (.fault .inputAfterEnd) ∧
      (Course.through {} [.call [1, 2] 0, .reset, .call [7] 9, .call [] 2] sights).Answers 0 false
        [5] 9 (m.process [5] 9).1 ∧
      (replies Session.act s ([.call [1, 2] 0, .reset, .call [7] 9, .call [] 2] ++ .call [5] 9 ::
          [.reset, .call [] 9])).1 =
        sights ++ ⟨.error (.fault .inputAfterEnd), m.finished, 0, true⟩ ::
          List.replicate 2 ⟨.error .poisoned, m.finished, 0, true⟩ := by
  refine ⟨_, _, _, rfl, rfl, by decide +kernel, by decide +kernel, ?_, ?_⟩
  · exact session_life_cycle.1 ⟨.portable, .compress, 0, true⟩ _ _ rfl rfl rfl (by decide +kernel)
      [5] 9
  · exact session_life_cycle.2 ⟨.portable, .compress, 0, true⟩ _ _ [5] 9 _ rfl (by decide +kernel)
      [.reset, .call [] 9]

end Conduit
