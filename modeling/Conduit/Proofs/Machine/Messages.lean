import Conduit.Proofs.Compression.Keeping
import Conduit.Proofs.Machine.Lines

namespace Conduit

namespace Machine

def Codec.mode : Codec → Mode
  | .compressor _ => .compress
  | .decompressor _ => .decompress

namespace Session

def settle? (result : Except Error Unit) (l : Line) :
    Option (Except Error (List UInt8) × Session) :=
  match result with
  | .error error => some (.error error, l.session)
  | .ok _ => do
    let (_, out) ← l.chunk.seal? l.out
    let (answer, session) := l.session.reset
    return (answer.map fun _ => out.toList, session)

def compressAll? (calls : Nat) (s : Session) (input : List UInt8) (chunk : Nat) :
    Option (Except Error (List UInt8) × Session) :=
  if s.codec.mode ≠ .compress then some (.error (.fault (.wrongMode .compress)), s)
  else do
    let chunk ← Chunk.start? chunk (max chunk 1)
    let (result, l) ← Line.feed? calls ⟨s, chunk, #[]⟩ input
    match result with
    | .error error => return (.error error, l.session)
    | .ok _ =>
      let (result, l) ← l.close? calls
      settle? result l

def decompressAll? (calls : Nat) (s : Session) (input : List UInt8) (chunk : Nat) :
    Option (Except Error (List UInt8) × Session) :=
  if s.codec.mode ≠ .decompress then some (.error (.fault (.wrongMode .decompress)), s)
  else do
    let chunk ← Chunk.start? chunk (max chunk 1)
    let (result, _, l) ← Line.expand? calls ⟨s, chunk, #[]⟩ input
    settle? result l

def use? (calls : Nat) (s : Session) :
    Conduit.Session.Use → Option (Except Error Reply × Session)
  | .process input room => do
    let (answer, s) ← s.process? input room
    return (answer.map .step, s)
  | .reset =>
    let (answer, s) := s.reset
    some (answer.map fun _ => .done, s)
  | .compressAll input chunk => do
    let (answer, s) ← s.compressAll? calls input chunk
    return (answer.map .bytes, s)
  | .decompressAll input chunk => do
    let (answer, s) ← s.decompressAll? calls input chunk
    return (answer.map .bytes, s)

variable {s s' : Session} {l l' : Line} {input : List UInt8} {calls chunk : Nat}
  {answer : Except Error (List UInt8)}

theorem settle?_ok {done : Unit} (h : settle? (.ok done) l = some (answer, s')) :
    s' = l.session.reset.2 ∧ ∃ out, answer = l.session.reset.1.map fun _ => out := by
  simp only [settle?, Option.bind_eq_bind, Option.bind_eq_some_iff] at h
  obtain ⟨sealed, -, hreset⟩ := h
  obtain ⟨rfl, rfl⟩ := Prod.mk.inj (Option.some.inj hreset)
  exact ⟨rfl, _, rfl⟩

theorem decompressAll?_cases (h : s.decompressAll? calls input chunk = some (answer, s')) :
    (answer = .error (.fault (.wrongMode .decompress)) ∧ s' = s) ∨
      ∃ piece result left l, Line.expand? calls ⟨s, piece, #[]⟩ input = some (result, left, l) ∧
        settle? result l = some (answer, s') := by
  rw [decompressAll?] at h
  split at h
  · cases h
    exact Or.inl ⟨rfl, rfl⟩
  · simp only [Option.bind_eq_bind, Option.bind_eq_some_iff] at h
    obtain ⟨piece, -, ⟨result, left, l⟩, hexpand, hsettle⟩ := h
    exact Or.inr ⟨piece, result, left, l, hexpand, hsettle⟩

structure Kept (P : Session → Prop) : Prop where
  process : ∀ {s s' : Session} {input : List UInt8} {room : Nat} {answer : Except Error Step},
    P s → s.process? input room = some (answer, s') → P s'
  reset : ∀ {s : Session}, P s → P s.reset.2

variable {P : Session → Prop}

theorem Kept.call (k : Kept P) (h : P l.session) {answer : Except Error Step}
    (hcall : l.call? input = some (answer, l')) : P l'.session := by
  simp only [Line.call?, Option.bind_eq_bind, Option.bind_eq_some_iff] at hcall
  obtain ⟨⟨chunk, out⟩, -, room, -, ⟨result, session⟩, hprocess, hrest⟩ := hcall
  have hnext := k.process h hprocess
  cases result with
  | error error =>
    cases hrest
    exact hnext
  | ok step =>
    simp only [Option.bind_eq_some_iff] at hrest
    obtain ⟨chunk', -, hrest⟩ := hrest
    cases hrest
    exact hnext

theorem Kept.feed (k : Kept P) (h : P l.session) {answer : Except Error Unit}
    (hfeed : l.feed? calls input = some (answer, l')) : P l'.session := by
  induction calls generalizing l input with
  | zero =>
    cases input with
    | nil =>
      cases hfeed
      exact h
    | cons byte more => cases hfeed
  | succ calls ih =>
    cases input with
    | nil =>
      cases hfeed
      exact h
    | cons byte more =>
      simp only [Line.feed?, Option.bind_eq_bind, Option.bind_eq_some_iff] at hfeed
      obtain ⟨⟨result, mid⟩, hcall, hrest⟩ := hfeed
      have hmid := k.call h hcall
      cases result with
      | error error =>
        cases hrest
        exact hmid
      | ok step =>
        simp only [Option.bind_eq_some_iff] at hrest
        obtain ⟨left, -, hrest⟩ := hrest
        exact ih hmid hrest

theorem Kept.close (k : Kept P) (h : P l.session) {answer : Except Error Unit}
    (hclose : l.close? calls = some (answer, l')) : P l'.session := by
  induction calls generalizing l with
  | zero => cases hclose
  | succ calls ih =>
    simp only [Line.close?, Option.bind_eq_bind, Option.bind_eq_some_iff] at hclose
    obtain ⟨⟨result, mid⟩, hcall, hrest⟩ := hclose
    have hmid := k.call h hcall
    cases result with
    | error error =>
      cases hrest
      exact hmid
    | ok step =>
      by_cases hf : step.finished = true
      · simp only [hf, if_true] at hrest
        cases hrest
        exact hmid
      · simp only [hf] at hrest
        exact ih hmid hrest

theorem Kept.expand (k : Kept P) (h : P l.session) {answer : Except Error Unit} {left : List UInt8}
    (hexpand : l.expand? calls input = some (answer, left, l')) : P l'.session := by
  induction calls generalizing l input with
  | zero => cases hexpand
  | succ calls ih =>
    simp only [Line.expand?, Option.bind_eq_bind, Option.bind_eq_some_iff] at hexpand
    obtain ⟨⟨result, mid⟩, hcall, hrest⟩ := hexpand
    have hmid := k.call h hcall
    cases result with
    | error error =>
      cases hrest
      exact hmid
    | ok step =>
      simp only [Option.bind_eq_some_iff] at hrest
      obtain ⟨rest, -, hrest⟩ := hrest
      by_cases hf : step.finished = true
      · simp only [hf, if_true] at hrest
        cases hrest
        exact hmid
      · simp only [hf] at hrest
        exact ih hmid hrest

theorem Kept.settle (k : Kept P) (h : P l.session) {result : Except Error Unit}
    (hsettle : settle? result l = some (answer, s')) : P s' := by
  cases result with
  | error error =>
    cases hsettle
    exact h
  | ok done =>
    obtain ⟨rfl, -⟩ := settle?_ok hsettle
    exact k.reset h

theorem Kept.compressAll (k : Kept P) (h : P s)
    (hall : s.compressAll? calls input chunk = some (answer, s')) : P s' := by
  rw [compressAll?] at hall
  split at hall
  · cases hall
    exact h
  · simp only [Option.bind_eq_bind, Option.bind_eq_some_iff] at hall
    obtain ⟨piece, -, ⟨result, l⟩, hfeed, hrest⟩ := hall
    have hl := k.feed (l := ⟨s, piece, #[]⟩) h hfeed
    cases result with
    | error error =>
      cases hrest
      exact hl
    | ok done =>
      simp only [Option.bind_eq_some_iff] at hrest
      obtain ⟨⟨result, l'⟩, hclose, hsettle⟩ := hrest
      exact k.settle (k.close hl hclose) hsettle

theorem Kept.decompressAll (k : Kept P) (h : P s)
    (hall : s.decompressAll? calls input chunk = some (answer, s')) : P s' := by
  obtain ⟨-, rfl⟩ | ⟨piece, result, left, l, hexpand, hsettle⟩ := decompressAll?_cases hall
  · exact h
  · exact k.settle (k.expand (l := ⟨s, piece, #[]⟩) h hexpand) hsettle

theorem Kept.use (k : Kept P) (h : P s) {use : Conduit.Session.Use} {answer : Except Error Reply}
    (huse : s.use? calls use = some (answer, s')) : P s' := by
  cases use with
  | process input room =>
    simp only [use?, Option.bind_eq_bind, Option.bind_eq_some_iff] at huse
    obtain ⟨⟨result, s''⟩, hprocess, hrest⟩ := huse
    cases hrest
    exact k.process h hprocess
  | reset =>
    cases huse
    exact k.reset h
  | compressAll input chunk =>
    simp only [use?, Option.bind_eq_bind, Option.bind_eq_some_iff] at huse
    obtain ⟨⟨result, s''⟩, hall, hrest⟩ := huse
    cases hrest
    exact k.compressAll h hall
  | decompressAll input chunk =>
    simp only [use?, Option.bind_eq_bind, Option.bind_eq_some_iff] at huse
    obtain ⟨⟨result, s''⟩, hall, hrest⟩ := huse
    cases hrest
    exact k.decompressAll h hall

theorem Kept.uses (k : Kept P) (h : P s) {uses : List Conduit.Session.Use}
    {answers : List (Except Error Reply)}
    (huses : replies? (use? calls) s uses = some (answers, s')) : P s' := by
  induction uses generalizing s answers with
  | nil =>
    cases huses
    exact h
  | cons use uses ih =>
    simp only [replies?, Option.bind_eq_bind, Option.bind_eq_some_iff] at huses
    obtain ⟨⟨answer, mid⟩, huse, ⟨more, last⟩, huses, hrest⟩ := huses
    cases hrest
    exact ih (k.use h huse) huses

theorem kept_shows (p : Profile) {Q : Conduit.Session → Prop}
    (k : Conduit.Session.Kept Q) : Kept fun s => ∃ other, s.Shows p other ∧ Q other where
  process := by
    rintro s s' input room answer ⟨other, h, hq⟩ hs
    obtain ⟨s'', hs'', hnext⟩ := h.process input room
    cases hs.symm.trans hs''
    exact ⟨_, hnext, k.process hq input room⟩
  reset := by
    rintro s ⟨other, h, hq⟩
    exact ⟨_, h.reset.2, k.reset hq⟩

variable {p : Profile} {other : Conduit.Session}

theorem Shows.mode_eq (h : s.Shows p other) : s.codec.mode = p.mode := by
  obtain ⟨profile, otherCodec, otherFinished, otherConsumed, otherPoisoned⟩ := other
  obtain ⟨codec, finished, consumedLast, poisoned⟩ := s
  cases h.codec with
  | compressor mode suits => exact mode.symm
  | decompressor mode shown => exact mode.symm

theorem exists_settle {l : Line} {shown : Conduit.Line} (h : l.Shows p shown)
    (result : Except Error Unit) :
    ∃ s', s'.Shows p (Conduit.Session.settle result shown).2 ∧
      settle? result l = some ((Conduit.Session.settle result shown).1, s') := by
  cases result with
  | error error => exact ⟨l.session, h.session, rfl⟩
  | ok done =>
    obtain ⟨out, hseal, hout, -⟩ := h.chunk.take
    obtain ⟨hanswer, hreset⟩ := h.session.reset
    refine ⟨l.session.reset.2, ?_, ?_⟩
    · rw [Conduit.Session.settle]
      cases hs : shown.session.reset with
      | mk answer session => cases answer <;> simpa [hs] using hreset
    · simp only [settle?, hseal, Conduit.Session.settle, Option.bind_eq_bind, Option.bind_some,
        hanswer, hout]
      cases hs : shown.session.reset with
      | mk answer session => cases answer <;> rfl

theorem Shows.compressAll (h : s.Shows p other) (input : List UInt8)
    (hc : chunk ≤ Octets.maxSize) (hne : (other.compressAll input chunk).1 ≠ .error .endless) :
    ∃ s', s'.Shows p (other.compressAll input chunk).2 ∧
      Comes (fun calls => s.compressAll? calls input chunk)
        ((other.compressAll input chunk).1, s') := by
  obtain ⟨piece, sink, hpiece, hsink, hchunk⟩ := Chunk.exists_start hc (max chunk 1)
  have hline : Line.Shows p ⟨s, piece, #[]⟩ ⟨other, sink⟩ := ⟨h, hchunk⟩
  rw [Conduit.Session.compressAll, h.profile_eq, Sink.whole, hsink] at hne ⊢
  simp only [compressAll?, h.mode_eq, hpiece, Option.bind_eq_bind, Option.bind_some]
  by_cases hmode : p.mode ≠ .compress
  · simp only [if_pos hmode]
    exact ⟨s, h, comes_of_eq fun calls => rfl⟩
  · simp only [if_neg hmode] at hne ⊢
    cases hfeed : Conduit.Line.feed ⟨other, sink⟩ input with
    | mk result l =>
      rw [hfeed] at hne
      obtain ⟨m, hm, hfed⟩ := hline.feed input (by
        rw [hfeed]
        rintro rfl
        exact hne rfl)
      rw [hfeed] at hm hfed
      cases result with
      | error error => exact ⟨m.session, hm.session, hfed.bind (comes_of_eq fun calls => rfl)⟩
      | ok done =>
        dsimp only at hne ⊢
        obtain ⟨m', hm', hclosed⟩ := hm.close (by
          intro hendless
          rw [hendless] at hne
          exact hne rfl)
        obtain ⟨s', hs', hsettle⟩ := exists_settle hm' l.close.1
        exact ⟨s', hs', hfed.bind (hclosed.bind (comes_of_eq fun calls => hsettle))⟩

theorem Shows.decompressAll (h : s.Shows p other)
    (input : List UInt8) (hc : chunk ≤ Octets.maxSize)
    (hne : (other.decompressAll input chunk).1 ≠ .error .endless) :
    ∃ s', s'.Shows p (other.decompressAll input chunk).2 ∧
      Comes (fun calls => s.decompressAll? calls input chunk)
        ((other.decompressAll input chunk).1, s') := by
  obtain ⟨piece, sink, hpiece, hsink, hchunk⟩ := Chunk.exists_start hc (max chunk 1)
  have hline : Line.Shows p ⟨s, piece, #[]⟩ ⟨other, sink⟩ := ⟨h, hchunk⟩
  rw [Conduit.Session.decompressAll, h.profile_eq, Sink.whole, hsink] at hne ⊢
  simp only [decompressAll?, h.mode_eq, hpiece, Option.bind_eq_bind, Option.bind_some]
  by_cases hmode : p.mode ≠ .decompress
  · simp only [if_pos hmode]
    exact ⟨s, h, comes_of_eq fun calls => rfl⟩
  · simp only [if_neg hmode] at hne ⊢
    obtain ⟨m, hm, hexpanded⟩ := hline.expand input (by
      intro hendless
      rw [hendless] at hne
      exact hne rfl)
    obtain ⟨s', hs', hsettle⟩ := exists_settle hm (Conduit.Line.expand ⟨other, sink⟩ input).1
    exact ⟨s', hs', hexpanded.bind (comes_of_eq fun calls => hsettle)⟩

theorem decompressAll?_of_maxSize_lt (hmode : s.codec.mode = .decompress)
    (hc : Octets.maxSize < chunk) : s.decompressAll? calls input chunk = none := by
  rw [decompressAll?, if_neg (not_not_intro hmode), Chunk.start?, if_neg (Nat.not_le.mpr hc)]
  rfl

end Session

end Machine

end Conduit
