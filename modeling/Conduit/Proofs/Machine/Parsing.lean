import Conduit.Proofs.Bits.Parsing
import Conduit.Proofs.Machine.Checked

namespace Conduit

instance {ε : Type} : LawfulMonad (BitParser ε) := LawfulMonad.mk' _
  (fun p => by
    funext r
    change BitParser.bind p BitParser.pure r = p r
    rw [BitParser.bind]
    cases p r <;> rfl)
  (fun _ _ => rfl)
  (fun p f g => by
    funext r
    change BitParser.bind (BitParser.bind p f) g r =
      BitParser.bind p (fun a => BitParser.bind (f a) g) r
    rw [BitParser.bind, BitParser.bind, BitParser.bind]
    cases p r <;> rfl)

namespace Machine

/-- A parser that may stop for good. -/
def Checked (ε α : Type) : Type :=
  BitReader → Option (Parsed ε α)

theorem short_fields {ε : Type} {r : BitReader} {n count : Nat} (hr : r.Within)
    (h : r.available < n * count) :
    ∃ rest, (BitParser.fields n count : BitParser ε (List Nat)) r = .short rest := by
  induction count generalizing r with
  | zero => exact absurd h (Nat.not_lt_zero _)
  | succ count ih =>
    rw [BitParser.fields]
    have hread := hr.holds
    rw [hread.available, Nat.mul_succ] at h
    by_cases hn : n ≤ r.unread.length
    · obtain ⟨rest, hbits, hrest⟩ := hread.bits?_eq_some hn
      have hfirst : (BitParser.bits n : BitParser ε Nat) r =
          .value (Bits.toNat (r.unread.take n)) rest := by rw [BitParser.bits, hbits]
      obtain ⟨last, hlast⟩ := ih hrest.within (by
        rw [hrest.available, List.length_drop]
        omega)
      exact ⟨last, by rw [BitParser.bind_value hfirst, BitParser.bind_short hlast]⟩
    · have hfirst : (BitParser.bits n : BitParser ε Nat) r = .short r := by
        rw [BitParser.bits, hread.bits?_eq_none (Nat.not_le.mp hn)]
      exact ⟨r, BitParser.bind_short hfirst⟩

namespace Checked

variable {ε α β γ δ : Type}

protected def pure (a : α) : Checked ε α :=
  fun r => some (.value a r)

protected def bind (g : Checked ε α) (f : α → Checked ε β) : Checked ε β :=
  fun r =>
    match g r with
    | none => none
    | some (.value a rest) => f a rest
    | some (.short rest) => some (.short rest)
    | some (.refused cause rest) => some (.refused cause rest)

instance : Monad (Checked ε) where
  pure := Checked.pure
  bind := Checked.bind

def refuse (cause : ε) : Checked ε α :=
  fun r => some (.refused cause r)

def need (x : Option α) : Checked ε α :=
  fun r => x.map (.value · r)

def bits (n : Nat) : Checked ε Nat :=
  fun r => do
    let available ← r.available?
    if available < n then return .short r
    else
      let (value, position) ← BitReader.gather? r.buffer n r.position 0 0
      return .value value (← BitReader.within? { r with position })

def align : Checked ε Unit :=
  fun r => do return .value () (← r.align?)

def await (n : Nat) : Checked ε Unit :=
  fun r => do
    let available ← r.available?
    if available < n then return .short r else return .value () r

def fields (n : Nat) : (count : Nat) → Checked ε (List Nat)
  | 0 => pure []
  | count + 1 => do
    let field ← bits n
    let rest ← fields n count
    return field :: rest

/-- Both fields are read, the second one also where the first runs short. -/
def both (g : Checked ε α) (h : Checked ε β) : Checked ε (α × β) :=
  fun r =>
    match g r with
    | none => none
    | some (.value a rest) => (h >>= fun b => pure (a, b)) rest
    | some (.short rest) => (h rest).map fun
      | .value _ rest | .short rest | .refused _ rest => .short rest
    | some (.refused cause rest) => some (.refused cause rest)

def mapCause (f : δ → ε) (g : Checked δ α) : Checked ε α :=
  fun r =>
    match g r with
    | none => none
    | some (.value a rest) => some (.value a rest)
    | some (.short rest) => some (.short rest)
    | some (.refused cause rest) => some (.refused (f cause) rest)

/-- What the machine comes to where the grammar comes to the first argument. -/
inductive Echoes (R : α → β → Prop) (buffer : Array UInt8) :
    Parsed ε α → Option (Parsed ε β) → Prop
  | value {a : α} {b : β} {rest : BitReader} (related : R a b) (within : rest.Within)
      (same : rest.buffer = buffer) : Echoes R buffer (.value a rest) (some (.value b rest))
  | short {rest rest' : BitReader} (within : rest'.Within) (same : rest'.buffer = buffer) :
      Echoes R buffer (.short rest) (some (.short rest'))
  | refused {cause : ε} {rest : BitReader} (within : rest.Within) (same : rest.buffer = buffer) :
      Echoes R buffer (.refused cause rest) (some (.refused cause rest))

/-- The machine's parser does what that of the grammar does, with values so related. -/
def Follows (R : α → β → Prop) (g : Checked ε β) (p : BitParser ε α) : Prop :=
  ∀ r : BitReader, r.Within → Echoes R r.buffer (p r) (g r)

namespace Follows

variable {R : α → β → Prop} {g : Checked ε β} {p : BitParser ε α}

theorem pure {a : α} {b : β} (h : R a b) :
    Follows R (Pure.pure b : Checked ε β) (Pure.pure a : BitParser ε α) :=
  fun _ hr => .value h hr rfl

theorem need_pure {x : Option β} {a : α} {b : β} (hx : x = some b) (h : R a b) :
    Follows R (Checked.need x : Checked ε β) (Pure.pure a : BitParser ε α) := by
  subst hx
  exact pure h

theorem refuse (cause : ε) :
    Follows R (Checked.refuse cause : Checked ε β) (BitParser.refuse cause : BitParser ε α) :=
  fun _ hr => .refused hr rfl

theorem mono {S : α → β → Prop} (h : Follows R g p) (hs : ∀ a b, R a b → S a b) :
    Follows S g p := by
  intro r hr
  have hecho := h r hr
  generalize p r = x, g r = y at hecho ⊢
  cases hecho with
  | value related within same => exact .value (hs _ _ related) within same
  | short within same => exact .short within same
  | refused within same => exact .refused within same

theorem meets {post : α → Prop} {fair : ε → Prop} (h : Follows R g p) (hm : p.Meets post fair) :
    Follows (fun a b => R a b ∧ post a) g p := by
  intro r hr
  have hecho := h r hr
  have hpost := (hm r).1
  generalize p r = x, g r = y at hecho hpost ⊢
  cases hecho with
  | value related within same => exact .value ⟨related, hpost _ _ rfl⟩ within same
  | short within same => exact .short within same
  | refused within same => exact .refused within same

theorem map {S : γ → β → Prop} (h : Follows R g p) (f : α → γ) (hs : ∀ a b, R a b → S (f a) b) :
    Follows S g (p >>= fun a => Pure.pure (f a)) := by
  intro r hr
  have hecho := h r hr
  change Echoes S r.buffer (BitParser.bind p _ r) (g r)
  rw [BitParser.bind]
  generalize p r = x, g r = y at hecho ⊢
  cases hecho with
  | value related within same => exact .value (hs _ _ related) within same
  | short within same => exact .short within same
  | refused within same => exact .refused within same

section Sequence

variable {S : γ → δ → Prop} {f : α → BitParser ε γ} {k : β → Checked ε δ}

theorem bind (h : Follows R g p) (hf : ∀ a b, R a b → Follows S (k b) (f a)) :
    Follows S (g >>= k) (p >>= f) := by
  intro r hr
  have hecho := h r hr
  change Echoes S r.buffer (BitParser.bind p f r) (Checked.bind g k r)
  rw [BitParser.bind, Checked.bind]
  generalize p r = x, g r = y at hecho ⊢
  cases hecho with
  | value related within same => exact same ▸ hf _ _ related _ within
  | short within same => exact .short within same
  | refused within same => exact .refused within same

theorem assoc {ζ : Type} {q : BitParser ε ζ} {f : ζ → BitParser ε α} {l : α → BitParser ε γ}
    {m : Checked ε δ} (h : Follows S m ((q >>= f) >>= l)) :
    Follows S m (q >>= fun a => f a >>= l) := by
  rwa [bind_assoc] at h

theorem need {x : Option β} {b : β} {q : BitParser ε γ} (hx : x = some b)
    (h : Follows S (k b) q) : Follows S (Checked.need x >>= k) q := by
  subst hx
  exact h

theorem both {h : Checked ε δ} {q : BitParser ε γ} (hp : Follows R g p) (hq : Follows S h q) :
    Follows (fun a b => R a.1 b.1 ∧ S a.2 b.2) (Checked.both g h)
      (p >>= fun a => q >>= fun c => Pure.pure (a, c)) := by
  intro r hr
  have hecho := hp r hr
  change Echoes _ r.buffer (BitParser.bind p _ r) _
  rw [BitParser.bind, Checked.both]
  generalize p r = x, g r = y at hecho ⊢
  cases hecho with
  | value related within same =>
    exact same ▸ hq.bind (fun _ _ hcd => pure ⟨related, hcd⟩) _ within
  | @short rest rest' within same =>
    have hlost := hq rest' within
    dsimp only
    generalize q rest' = x, h rest' = y at hlost ⊢
    cases hlost with
    | value _ within' same' => exact .short within' (same'.trans same)
    | short within' same' => exact .short within' (same'.trans same)
    | refused within' same' => exact .short within' (same'.trans same)
  | refused within same => exact .refused within same

end Sequence

section Fields

variable {ζ η θ ι : Type} {S : γ → δ → Prop} {T : ζ → η → Prop} {U : θ → ι → Prop}
  {h : Checked ε δ} {q : BitParser ε γ} {l : Checked ε η} {s : BitParser ε ζ}

theorem bind_both {k : β × δ → Checked ε ι} {f : α → γ → BitParser ε θ} (hp : Follows R g p)
    (hq : Follows S h q) (hf : ∀ a b c d, R a b → S c d → Follows U (k (b, d)) (f a c)) :
    Follows U (Checked.both g h >>= k) (p >>= fun a => q >>= f a) := by
  have hboth : Follows U (Checked.both g h >>= k) _ :=
    (hp.both hq).bind (f := fun ac => f ac.1 ac.2) fun _ _ hr => hf _ _ _ _ hr.1 hr.2
  simpa only [bind_assoc, pure_bind] using hboth

theorem bind_three {k : β × δ × η → Checked ε ι} {f : α → γ → ζ → BitParser ε θ}
    (hp : Follows R g p) (hq : Follows S h q) (hs : Follows T l s)
    (hf : ∀ a b c d x y, R a b → S c d → T x y → Follows U (k (b, d, y)) (f a c x)) :
    Follows U (Checked.both g (Checked.both h l) >>= k)
      (p >>= fun a => q >>= fun c => s >>= f a c) := by
  have hthree : Follows U (Checked.both g (Checked.both h l) >>= k) _ :=
    (hp.both (hq.both hs)).bind (f := fun acx => f acx.1 acx.2.1 acx.2.2)
      fun _ _ hr => hf _ _ _ _ _ _ hr.1 hr.2.1 hr.2.2
  simpa only [bind_assoc, pure_bind] using hthree

end Fields

theorem bits (n : Nat) :
    Follows (fun a b => b = a ∧ a < 2 ^ n) (Checked.bits n : Checked ε Nat) (BitParser.bits n) := by
  refine (?_ : Follows (fun a b => b = a) _ _).meets (BitParser.Meets.bits n fun _ => True)
  intro r hr
  have hread := hr.holds
  have hlength := hread.length
  rw [BitParser.bits, Checked.bits, hr.available?, BitReader.bits?]
  simp only [Option.bind_eq_bind, Option.bind_some, hread.available]
  rw [BitReader.Within] at hr
  by_cases hn : n ≤ r.unread.length
  · rw [dif_pos (by omega), if_neg (by omega),
      BitReader.gather?_eq_some hread (Nat.zero_le n) (by omega)]
    have hwithin : BitReader.Within ⟨r.buffer, r.position + n⟩ := by
      dsimp only [BitReader.Within]
      omega
    simp only [Nat.sub_zero, Nat.pow_zero, Nat.mul_one, Nat.zero_add, Option.bind_some,
      BitReader.within?_eq_some hwithin, BitReader.fieldAt_eq_toNat]
    exact .value rfl hwithin rfl
  · rw [dif_neg (by omega), if_pos (by omega)]
    exact .short hr rfl

theorem fields (n count : Nat) :
    Follows (fun a b => b = a) (Checked.fields n count : Checked ε (List Nat))
      (BitParser.fields n count) := by
  induction count with
  | zero => exact pure rfl
  | succ count ih =>
    refine (bits n).bind fun field _ hfield => ih.bind fun rest _ hrest => pure ?_
    rw [hfield.1, hrest]

theorem await {n : Nat} (h : Follows R g p)
    (hs : ∀ r : BitReader, r.Within → r.available < n → ∃ rest, p r = .short rest) :
    Follows R (Checked.await n >>= fun _ => g) p := by
  intro r hr
  change Echoes R r.buffer (p r) (Checked.bind _ _ r)
  rw [Checked.bind, Checked.await, hr.available?]
  simp only [Option.bind_eq_bind, Option.bind_some]
  by_cases hn : r.available < n
  · obtain ⟨rest, hrest⟩ := hs r hr hn
    rw [if_pos hn, hrest]
    exact .short hr rfl
  · rw [if_neg hn]
    exact h r hr

theorem mapCause {p : BitParser δ α} {g : Checked δ β} (h : Follows R g p) (f : δ → ε) :
    Follows R (g.mapCause f) (p.mapCause f) := by
  intro r hr
  have hecho := h r hr
  rw [BitParser.mapCause, Checked.mapCause]
  generalize p r = x, g r = y at hecho ⊢
  cases hecho with
  | value related within same => exact .value related within same
  | short within same => exact .short within same
  | refused within same => exact .refused within same

theorem align :
    Follows (fun _ _ => True) (Checked.align : Checked ε Unit) BitParser.align := by
  intro r hr
  rw [BitParser.align, Checked.align, hr.align?]
  exact .value trivial hr.holds.align.within rfl

/-- What is followed moves the reader on by the bits that it reads, and does nothing else to it. -/
theorem reads (h : Follows R g p) {r : BitReader} {bits rest : List Bool} {a : α}
    (hr : r.Holds (bits ++ rest)) (hy : p.Yields (bits ++ rest) a rest) :
    p r = .value a { r with position := r.position + bits.length } := by
  obtain ⟨r', hp, hrest⟩ := hy r hr
  have hecho := h r hr.within
  rw [hp] at hecho ⊢
  generalize g r = y at hecho
  cases hecho with
  | value _ _ same => rw [hr.eq_skip hrest same]

end Follows

end Checked

end Machine

end Conduit
