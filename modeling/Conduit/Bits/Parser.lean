import Conduit.Bits.Reader

namespace Conduit

inductive Parsed (ε α : Type) where
  | value (result : α) (rest : BitReader)
  | short (rest : BitReader)
  | refused (cause : ε) (rest : BitReader)

def BitParser (ε α : Type) : Type :=
  BitReader → Parsed ε α

namespace BitParser

variable {ε α β : Type}

@[inline] protected def pure (a : α) : BitParser ε α :=
  fun r => .value a r

@[inline] protected def bind (p : BitParser ε α) (f : α → BitParser ε β) : BitParser ε β :=
  fun r =>
    match p r with
    | .value a rest => f a rest
    | .short rest => .short rest
    | .refused cause rest => .refused cause rest

@[always_inline] instance : Monad (BitParser ε) where
  pure := BitParser.pure
  bind := BitParser.bind

@[inline] def refuse (cause : ε) : BitParser ε α :=
  fun r => .refused cause r

@[inline] def ofExcept (x : Except ε α) : BitParser ε α :=
  match x with
  | .ok a => BitParser.pure a
  | .error cause => refuse cause

def mapCause {δ : Type} (f : δ → ε) (p : BitParser δ α) : BitParser ε α :=
  fun r =>
    match p r with
    | .value a rest => .value a rest
    | .short rest => .short rest
    | .refused cause rest => .refused (f cause) rest

def bits (n : Nat) : BitParser ε Nat :=
  fun r =>
    match r.bits? n with
    | some (v, rest) => .value v rest
    | none => .short r

def align : BitParser ε Unit :=
  fun r => .value () r.align

def fields (n : Nat) : (count : Nat) → BitParser ε (List Nat)
  | 0 => pure []
  | count + 1 => do
    let field ← bits n
    let rest ← fields n count
    return field :: rest

/-- Whatever the parser reads successfully is at least `n` bits long. -/
def Consumes (n : Nat) (p : BitParser ε α) : Prop :=
  ∀ r a rest, p r = .value a rest → rest.available + n ≤ r.available

theorem Consumes.mono {p : BitParser ε α} {m n : Nat} (h : Consumes n p) (hle : m ≤ n) :
    Consumes m p :=
  fun r a rest hp => by have := h r a rest hp; omega

theorem consumes_pure (a : α) : Consumes 0 (pure a : BitParser ε α) := by
  intro r b rest h
  change Parsed.value a r = _ at h
  simp only [Parsed.value.injEq] at h
  simp [h.2]

theorem consumes_refuse (n : Nat) (cause : ε) : Consumes n (refuse cause : BitParser ε α) := by
  intro r b rest h
  simp [refuse] at h

theorem Consumes.bind {p : BitParser ε α} {f : α → BitParser ε β} {m n : Nat} (hp : Consumes m p)
    (hf : ∀ a, Consumes n (f a)) : Consumes (m + n) (p >>= f) := by
  intro r b rest h
  change BitParser.bind p f r = _ at h
  unfold BitParser.bind at h
  split at h
  · next a mid ha =>
    have := hp r a mid ha
    have := hf a mid b rest h
    omega
  · simp at h
  · simp at h

theorem Consumes.before {p : BitParser ε α} {f : α → BitParser ε β} {n : Nat} (hp : Consumes n p)
    (hf : ∀ a, Consumes 0 (f a)) : Consumes n (p >>= f) :=
  hp.bind hf

theorem Consumes.andThen {p : BitParser ε α} {f : α → BitParser ε β} {n : Nat} (hp : Consumes n p)
    (hf : ∀ a, Consumes 0 (f a)) : Consumes 0 (p >>= f) :=
  (hp.bind hf).mono (Nat.zero_le _)

theorem consumes_ofExcept (x : Except ε α) : Consumes 0 (ofExcept x) := by
  cases x with
  | ok a => exact consumes_pure a
  | error cause => exact consumes_refuse 0 cause

theorem consumes_bits (n : Nat) : Consumes n (bits n : BitParser ε Nat) := by
  intro r a rest h
  unfold bits BitReader.bits? at h
  split at h
  · next v mid hv =>
    split at hv
    · simp only [Option.some.injEq, Prod.mk.injEq] at hv
      simp only [Parsed.value.injEq] at h
      obtain ⟨-, rfl⟩ := h
      obtain ⟨-, rfl⟩ := hv
      simp only [BitReader.available]
      omega
    · simp at hv
  · simp at h

theorem consumes_align : Consumes 0 (align : BitParser ε Unit) := by
  intro r a rest h
  simp only [align, Parsed.value.injEq] at h
  simp only [← h.2, BitReader.available, BitReader.align]
  omega

theorem consumes_fields (n count : Nat) : Consumes 0 (fields n count : BitParser ε (List Nat)) := by
  induction count with
  | zero => exact consumes_pure _
  | succ count ih => exact (consumes_bits n).andThen fun _ => ih.andThen fun _ => consumes_pure _

theorem Consumes.mapCause {δ : Type} {f : δ → ε} {p : BitParser δ α} {n : Nat} (h : Consumes n p) :
    Consumes n (p.mapCause f) := by
  intro r a rest hp
  unfold BitParser.mapCause at hp
  split at hp
  · next b mid hb =>
    simp only [Parsed.value.injEq] at hp
    exact hp.2 ▸ h r b mid hb
  · simp at hp
  · simp at hp

end BitParser

end Conduit
