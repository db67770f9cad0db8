import Conduit.Bits.Parser
import Conduit.Proofs.Bits.Queue

namespace Conduit

theorem BitReader.Holds.unique {r : BitReader} {a b : List Bool} (ha : r.Holds a) (hb : r.Holds b) :
    a = b :=
  ha.2.symm.trans hb.2

namespace BitParser

open Bits

variable {ε α β : Type}

/-- Reading from these bits, the parser gives `a` and leaves `rest`. -/
def Yields (p : BitParser ε α) (bits : List Bool) (a : α) (rest : List Bool) : Prop :=
  ∀ r : BitReader, r.Holds bits → ∃ r', p r = .value a r' ∧ r'.Holds rest

def Refuses (p : BitParser ε α) (bits : List Bool) (cause : ε) : Prop :=
  ∀ r : BitReader, r.Holds bits → ∃ r', p r = .refused cause r'

def Starves (p : BitParser ε α) (bits : List Bool) : Prop :=
  ∀ r : BitReader, r.Holds bits → ∃ r', p r = .short r'

structure Incremental (p : BitParser ε α) : Prop where
  yields : ∀ {r r' : BitReader} {bits : List Bool} {a : α}, r.Holds bits → p r = .value a r' →
    ∃ rest, r'.Holds rest ∧ rest <:+ bits ∧
      ∀ data, p.Yields (bits ++ ofBytes data) a (rest ++ ofBytes data)
  refuses : ∀ {r r' : BitReader} {bits : List Bool} {cause : ε}, r.Holds bits →
    p r = .refused cause r' → ∀ data, p.Refuses (bits ++ ofBytes data) cause
  starves : ∀ {r r' : BitReader} {bits rest : List Bool} {a : α}, r.Holds bits → p r = .short r' →
    ∀ data, p.Yields (bits ++ ofBytes data) a rest → rest.length < 8 * data.length

section Yields

variable {p : BitParser ε α} {f : α → BitParser ε β} {bits mid rest : List Bool} {a : α} {b : β}

theorem Yields.unique {r r' : BitReader} {a' : α} (h : p.Yields bits a rest) (hr : r.Holds bits)
    (hp : p r = .value a' r') : a' = a ∧ r'.Holds rest := by
  obtain ⟨s, hs, hrest⟩ := h r hr
  rw [hs] at hp
  cases hp
  exact ⟨rfl, hrest⟩

theorem Yields.det {a' : α} {rest' : List Bool} (h : p.Yields bits a rest)
    (h' : p.Yields bits a' rest') : a' = a ∧ rest' = rest := by
  obtain ⟨r, hr⟩ := BitReader.exists_holds bits
  obtain ⟨s, hs, hrest'⟩ := h' r hr
  obtain ⟨ha, hrest⟩ := h.unique hr hs
  exact ⟨ha, hrest'.unique hrest⟩

theorem bind_value {r mid : BitReader} (h : p r = .value a mid) : (p >>= f) r = f a mid := by
  change BitParser.bind p f r = _
  simp only [BitParser.bind, h]

theorem bind_short {r mid : BitReader} (h : p r = .short mid) : (p >>= f) r = .short mid := by
  change BitParser.bind p f r = _
  simp only [BitParser.bind, h]

theorem bind_refused {r mid : BitReader} {cause : ε} (h : p r = .refused cause mid) :
    (p >>= f) r = .refused cause mid := by
  change BitParser.bind p f r = _
  simp only [BitParser.bind, h]

theorem bind_eq_value {r r' : BitReader} :
    (p >>= f) r = .value b r' ↔ ∃ a mid, p r = .value a mid ∧ f a mid = .value b r' := by
  cases h : p r with
  | value a mid => simp [bind_value h]
  | short mid => simp [bind_short h]
  | refused cause mid => simp [bind_refused h]

theorem position_bits {n v : Nat} {r r' : BitReader}
    (h : (BitParser.bits n : BitParser ε Nat) r = .value v r') : r'.position = r.position + n := by
  unfold BitParser.bits BitReader.bits? at h
  split at h
  next hb =>
    split at hb <;> cases hb
    cases h
    rfl
  next => cases h

theorem yields_pure (a : α) (bits : List Bool) : Yields (pure a : BitParser ε α) bits a bits :=
  fun r hr => ⟨r, rfl, hr⟩

theorem Yields.bind (hp : p.Yields bits a mid) (hf : (f a).Yields mid b rest) :
    (p >>= f).Yields bits b rest := by
  intro r hr
  obtain ⟨s, hs, hmid⟩ := hp r hr
  rw [bind_value hs]
  exact hf s hmid

theorem Yields.bind_refuses {cause : ε} (hp : p.Yields bits a mid) (hf : (f a).Refuses mid cause) :
    (p >>= f).Refuses bits cause := by
  intro r hr
  obtain ⟨s, hs, hmid⟩ := hp r hr
  rw [bind_value hs]
  exact hf s hmid

theorem Refuses.bind {cause : ε} (hp : p.Refuses bits cause) : (p >>= f).Refuses bits cause := by
  intro r hr
  obtain ⟨s, hs⟩ := hp r hr
  exact ⟨s, bind_refused hs⟩

theorem yields_bits {n : Nat} (h : n ≤ bits.length) :
    Yields (BitParser.bits n : BitParser ε Nat) bits (Bits.toNat (bits.take n)) (bits.drop n) := by
  intro r hr
  obtain ⟨s, hs, hrest⟩ := hr.bits?_eq_some h
  exact ⟨s, by simp only [BitParser.bits, hs], hrest⟩

theorem yields_ofNat {n value : Nat} (h : value < 2 ^ n) :
    Yields (BitParser.bits n : BitParser ε Nat) (ofNat n value ++ rest) value rest := by
  have := @yields_bits ε (ofNat n value ++ rest) n (by simp)
  rwa [toNat_take_ofNat, Nat.mod_eq_of_lt h, List.drop_left' (length_ofNat n value)] at this

theorem eq_of_yields_bits {n v : Nat}
    (h : Yields (BitParser.bits n : BitParser ε Nat) bits v rest) :
    v < 2 ^ n ∧ bits = ofNat n v ++ rest := by
  by_cases hn : n ≤ bits.length
  · obtain ⟨rfl, rfl⟩ := (yields_bits hn).det h
    have hlength : (bits.take n).length = n := List.length_take_of_le hn
    have hlt := toNat_lt (bits.take n)
    have hfield := ofNat_toNat (bits.take n)
    rw [hlength] at hlt hfield
    exact ⟨hlt, by rw [hfield, List.take_append_drop]⟩
  · obtain ⟨r, hr⟩ := BitReader.exists_holds bits
    obtain ⟨s, hs, -⟩ := h r hr
    simp only [BitParser.bits, hr.bits?_eq_none (Nat.not_le.mp hn)] at hs
    cases hs

theorem yields_align {fill : List Bool} (hf : fill.length < 8) (hr : rest.length % 8 = 0) :
    Yields (align : BitParser ε Unit) (fill ++ rest) () rest := by
  intro r h
  refine ⟨r.align, rfl, ?_⟩
  have := h.align
  rwa [List.drop_left' (by rw [List.length_append]; omega)] at this

theorem eq_of_yields_align (h : Yields (align : BitParser ε Unit) bits () rest) :
    rest = bits.drop (bits.length % 8) := by
  obtain ⟨r, hr⟩ := BitReader.exists_holds bits
  obtain ⟨s, hs, hrest⟩ := h r hr
  cases hs
  exact hrest.unique hr.align

theorem yields_fields {n : Nat} {values : List Nat} (h : ∀ v ∈ values, v < 2 ^ n) :
    Yields (fields n values.length : BitParser ε (List Nat)) (values.flatMap (ofNat n) ++ rest)
      values rest := by
  induction values with
  | nil => exact yields_pure [] rest
  | cons v values ih =>
    rw [List.flatMap_cons, List.append_assoc]
    have hv := h v (by simp)
    have ih := ih fun w hw => h w (List.mem_cons_of_mem _ hw)
    exact (yields_ofNat hv).bind (ih.bind (yields_pure _ rest))

theorem yields_ofExcept {x : Except ε α} (h : x = .ok a) : (ofExcept x).Yields bits a bits := by
  subst h
  exact yields_pure a bits

theorem Yields.mapCause {δ : Type} (h : p.Yields bits a rest) (f : ε → δ) :
    (p.mapCause f).Yields bits a rest := by
  intro r hr
  obtain ⟨s, hs, hrest⟩ := h r hr
  exact ⟨s, by simp only [BitParser.mapCause, hs], hrest⟩

end Yields

namespace Incremental

theorem pure (a : α) : Incremental (Pure.pure a : BitParser ε α) where
  yields {r r' bits b} hr hp := by
    cases hp
    exact ⟨bits, hr, List.suffix_refl bits, fun data => yields_pure _ _⟩
  refuses _ hp := by cases hp
  starves _ hp := by cases hp

theorem refuse (cause : ε) : Incremental (BitParser.refuse cause : BitParser ε α) where
  yields _ hp := by cases hp
  refuses _ hp := by
    cases hp
    exact fun data r _ => ⟨r, rfl⟩
  starves _ hp := by cases hp

theorem ofExcept (x : Except ε α) : Incremental (BitParser.ofExcept x) := by
  cases x with
  | ok a => exact Incremental.pure a
  | error cause => exact Incremental.refuse cause

theorem bits (n : Nat) : Incremental (BitParser.bits n : BitParser ε Nat) where
  yields {r r' bits a} hr hp := by
    by_cases hn : n ≤ bits.length
    · obtain ⟨rfl, hrest⟩ := (yields_bits hn).unique hr hp
      refine ⟨bits.drop n, hrest, List.drop_suffix n bits, fun data => ?_⟩
      have := @yields_bits ε (bits ++ ofBytes data) n (by rw [List.length_append]; omega)
      rwa [List.take_append_of_le_length hn, List.drop_append_of_le_length hn] at this
    · have := hr.bits?_eq_none (Nat.not_le.mp hn)
      simp only [BitParser.bits, this] at hp
      cases hp
  refuses {r r' bits cause} _ hp := by
    unfold BitParser.bits at hp
    split at hp <;> cases hp
  starves {r r' bits rest a} hr hp data hy := by
    have hn : bits.length < n := by
      by_contra hn
      obtain ⟨s, hs, -⟩ := @yields_bits ε bits n (Nat.not_lt.mp hn) r hr
      rw [hs] at hp
      cases hp
    obtain ⟨s, hs⟩ := BitReader.exists_holds (bits ++ ofBytes data)
    obtain ⟨t, ht, hrest⟩ := hy s hs
    by_cases hl : n ≤ (bits ++ ofBytes data).length
    · obtain ⟨-, h⟩ := (yields_bits hl).unique hs ht
      have := congrArg List.length (h.unique hrest)
      simp only [List.length_drop, List.length_append, length_ofBytes] at this hl
      omega
    · have := hs.bits?_eq_none (Nat.not_le.mp hl)
      simp only [BitParser.bits, this] at ht
      cases ht

theorem align : Incremental (BitParser.align : BitParser ε Unit) where
  yields {r r' bits a} hr hp := by
    have hs := hr.align
    cases hp
    refine ⟨_, hs, List.drop_suffix _ _, fun data => ?_⟩
    have hm : bits.length % 8 ≤ bits.length := Nat.mod_le _ _
    conv in bits ++ _ => rw [← List.take_append_drop (bits.length % 8) bits, List.append_assoc]
    apply yields_align
    · rw [List.length_take]
      omega
    · rw [List.length_append, List.length_drop, length_ofBytes]
      omega
  refuses _ hp := by cases hp
  starves _ hp := by cases hp

theorem suffix {p : BitParser ε α} (hp : Incremental p) {bits rest : List Bool} {a : α}
    (hy : p.Yields bits a rest) : rest <:+ bits := by
  obtain ⟨r, hr⟩ := BitReader.exists_holds bits
  obtain ⟨s, hs, hrest⟩ := hy r hr
  obtain ⟨rest', hrest', hsuffix, -⟩ := hp.yields hr hs
  rwa [hrest.unique hrest']

theorem exists_mid {p : BitParser ε α} {f : α → BitParser ε β} (hp : Incremental p)
    (hf : ∀ a, Incremental (f a)) {bits rest : List Bool} {b : β}
    (hy : (p >>= f).Yields bits b rest) :
    ∃ a mid, p.Yields bits a mid ∧ (f a).Yields mid b rest := by
  obtain ⟨r, hr⟩ := BitReader.exists_holds bits
  obtain ⟨s, hs, hrest⟩ := hy r hr
  cases hpr : p r with
  | value a m =>
    rw [bind_value hpr] at hs
    obtain ⟨mid, hmid, -, hpy⟩ := hp.yields hr hpr
    obtain ⟨rest', hrest', -, hfy⟩ := (hf a).yields hmid hs
    refine ⟨a, mid, by simpa using hpy [], ?_⟩
    simpa [hrest'.unique hrest] using hfy []
  | short m =>
    rw [bind_short hpr] at hs
    cases hs
  | refused cause m =>
    rw [bind_refused hpr] at hs
    cases hs

theorem bind {p : BitParser ε α} {f : α → BitParser ε β} (hp : Incremental p)
    (hf : ∀ a, Incremental (f a)) : Incremental (p >>= f) where
  yields {r r' bits b} hr h := by
    cases hpr : p r with
    | value a mid =>
      rw [bind_value hpr] at h
      obtain ⟨m, hm, hsm, hpm⟩ := hp.yields hr hpr
      obtain ⟨rest, hrest, hsr, hfr⟩ := (hf a).yields hm h
      exact ⟨rest, hrest, hsr.trans hsm, fun data => (hpm data).bind (hfr data)⟩
    | short mid =>
      rw [bind_short hpr] at h
      cases h
    | refused cause mid =>
      rw [bind_refused hpr] at h
      cases h
  refuses {r r' bits cause} hr h data := by
    cases hpr : p r with
    | value a mid =>
      rw [bind_value hpr] at h
      obtain ⟨m, hm, -, hpm⟩ := hp.yields hr hpr
      exact (hpm data).bind_refuses ((hf a).refuses hm h data)
    | short mid =>
      rw [bind_short hpr] at h
      cases h
    | refused cause' mid =>
      rw [bind_refused hpr] at h
      cases h
      exact (hp.refuses hr hpr data).bind
  starves {r r' bits rest b} hr h data hy := by
    obtain ⟨a, mid, hpy, hfy⟩ := exists_mid hp hf hy
    cases hpr : p r with
    | value a' mid' =>
      rw [bind_value hpr] at h
      obtain ⟨m, hm, -, hpm⟩ := hp.yields hr hpr
      obtain ⟨rfl, rfl⟩ := (hpm data).det hpy
      exact (hf _).starves hm h data hfy
    | short mid' =>
      have hless := hp.starves hr hpr data hpy
      exact ((hf a).suffix hfy).length_le.trans_lt hless
    | refused cause mid' =>
      rw [bind_refused hpr] at h
      cases h

theorem fields (n count : Nat) :
    Incremental (BitParser.fields n count : BitParser ε (List Nat)) := by
  induction count with
  | zero => exact Incremental.pure _
  | succ count ih =>
    exact (Incremental.bits n).bind fun _ => ih.bind fun _ => Incremental.pure _

theorem eq_of_yields_fields {n count : Nat} {values : List Nat} {bits rest : List Bool}
    (h : Yields (BitParser.fields n count : BitParser ε (List Nat)) bits values rest) :
    values.length = count ∧ (∀ v ∈ values, v < 2 ^ n) ∧
      bits = values.flatMap (ofNat n) ++ rest := by
  induction count generalizing values bits rest with
  | zero =>
    obtain ⟨rfl, rfl⟩ := (yields_pure [] bits).det h
    exact ⟨rfl, by simp, rfl⟩
  | succ count ih =>
    obtain ⟨v, mid, hv, hrest⟩ := exists_mid (Incremental.bits n)
      (fun _ => (fields n count).bind fun _ => Incremental.pure _) h
    obtain ⟨vs, mid', hvs, hpure⟩ := exists_mid (fields n count) (fun _ => Incremental.pure _) hrest
    obtain ⟨rfl, rfl⟩ := (yields_pure _ _).det hpure
    obtain ⟨hlt, rfl⟩ := eq_of_yields_bits hv
    obtain ⟨hlength, hall, rfl⟩ := ih hvs
    refine ⟨by rw [List.length_cons, hlength], List.forall_mem_cons.mpr ⟨hlt, hall⟩, ?_⟩
    rw [List.flatMap_cons, List.append_assoc]

theorem mapCause {δ : Type} {p : BitParser ε α} (h : Incremental p) (f : ε → δ) :
    Incremental (p.mapCause f) where
  yields {r r' bits a} hr hp := by
    unfold BitParser.mapCause at hp
    split at hp <;> cases hp
    next hpr =>
      obtain ⟨rest, hrest, hs, hy⟩ := h.yields hr hpr
      exact ⟨rest, hrest, hs, fun data => (hy data).mapCause f⟩
  refuses {r r' bits cause} hr hp data := by
    unfold BitParser.mapCause at hp
    split at hp <;> cases hp
    next hpr =>
      intro s hs
      obtain ⟨t, ht⟩ := h.refuses hr hpr data s hs
      exact ⟨t, by simp only [BitParser.mapCause, ht]⟩
  starves {r r' bits rest a} hr hp data hy := by
    unfold BitParser.mapCause at hp
    split at hp <;> cases hp
    next hpr =>
      refine h.starves hr hpr data (a := a) fun s hs => ?_
      obtain ⟨t, ht, hrest⟩ := hy s hs
      unfold BitParser.mapCause at ht
      split at ht <;> cases ht
      next hps => exact ⟨_, hps, hrest⟩

section Parallel

variable {p : BitParser ε α} {r s : BitReader} {bits : List Bool}

/-- Running short is a matter of the bits alone. -/
theorem starving (hp : Incremental p) {r' : BitReader} (hr : r.Holds bits) (h : p r = .short r') :
    p.Starves bits := by
  intro s hs
  cases hps : p s with
  | value a m =>
    obtain ⟨rest, -, -, hy⟩ := hp.yields hs hps
    obtain ⟨t, ht, -⟩ := hy [] r (by simpa using hr)
    rw [ht] at h
    cases h
  | short m => exact ⟨m, rfl⟩
  | refused cause m =>
    obtain ⟨t, ht⟩ := hp.refuses hs hps [] r (by simpa using hr)
    rw [ht] at h
    cases h

theorem length_lt_of_starves (hp : Incremental p) {rest : List Bool} {a : α} {data : List UInt8}
    (hs : p.Starves bits) (hy : p.Yields (bits ++ ofBytes data) a rest) :
    rest.length < 8 * data.length := by
  obtain ⟨r, hr⟩ := BitReader.exists_holds bits
  obtain ⟨r', h⟩ := hs r hr
  exact hp.starves hr h data hy

/-- One parser beside itself: once with the bits at hand, once with all that follow. -/
theorem beside (hp : Incremental p) {rest : List UInt8} (hr : r.Holds bits)
    (hs : s.Holds (bits ++ ofBytes rest)) :
    (∃ a r' s' after, p r = .value a r' ∧ p s = .value a s' ∧ r'.Holds after ∧
      s'.Holds (after ++ ofBytes rest) ∧ after <:+ bits ∧ p.Yields bits a after) ∨
    (∃ r', p r = .short r' ∧ p.Starves bits ∧ (rest = [] → ∃ s', p s = .short s')) ∨
    ∃ cause r' s', p r = .refused cause r' ∧ p s = .refused cause s' := by
  cases h : p r with
  | value a r' =>
    obtain ⟨after, hafter, hsuffix, hy⟩ := hp.yields hr h
    obtain ⟨s', hps, hs'⟩ := hy rest s hs
    exact Or.inl ⟨a, r', s', after, rfl, hps, hafter, hs', hsuffix, by simpa using hy []⟩
  | short r' =>
    have hstarves := hp.starving hr h
    refine Or.inr (Or.inl ⟨r', rfl, hstarves, ?_⟩)
    rintro rfl
    exact hstarves s (by simpa using hs)
  | refused cause r' =>
    obtain ⟨s', hps⟩ := hp.refuses hr h rest s hs
    exact Or.inr (Or.inr ⟨cause, r', s', rfl, hps⟩)

end Parallel

end Incremental

/-- What the parser gives satisfies `post`, and it refuses only for causes that satisfy `fair`. -/
def Meets (p : BitParser ε α) (post : α → Prop) (fair : ε → Prop) : Prop :=
  ∀ r, (∀ a r', p r = .value a r' → post a) ∧ ∀ cause r', p r = .refused cause r' → fair cause

namespace Meets

variable {post : α → Prop} {fair : ε → Prop}

theorem anything (p : BitParser ε α) : Meets p (fun _ => True) fun _ => True :=
  fun _ => ⟨fun _ _ _ => trivial, fun _ _ _ => trivial⟩

theorem pure {a : α} (h : post a) : Meets (Pure.pure a : BitParser ε α) post fair := by
  intro r
  refine ⟨fun b r' hp => ?_, fun cause r' hp => ?_⟩ <;> cases hp
  exact h

theorem refuse {cause : ε} (h : fair cause) :
    Meets (BitParser.refuse cause : BitParser ε α) post fair := by
  intro r
  refine ⟨fun b r' hp => ?_, fun cause r' hp => ?_⟩ <;> cases hp
  exact h

theorem bind {p : BitParser ε α} {f : α → BitParser ε β} {goal : β → Prop} (hp : Meets p post fair)
    (hf : ∀ a, post a → Meets (f a) goal fair) : Meets (p >>= f) goal fair := by
  intro r
  obtain ⟨hv, hr⟩ := hp r
  cases hpr : p r with
  | value a mid =>
    rw [bind_value hpr]
    exact hf a (hv a mid hpr) mid
  | short mid =>
    rw [bind_short hpr]
    exact ⟨fun b r' h => (by cases h), fun cause r' h => (by cases h)⟩
  | refused cause mid =>
    rw [bind_refused hpr]
    refine ⟨fun b r' h => (by cases h), fun cause' r' h => ?_⟩
    cases h
    exact hr cause mid hpr

theorem bind_congr {p : BitParser ε α} {f g : α → BitParser ε β} (hp : Meets p post fair)
    (hf : ∀ a, post a → f a = g a) : p >>= f = p >>= g := by
  funext r
  cases hpr : p r with
  | value a mid => rw [bind_value hpr, bind_value hpr, hf a ((hp r).1 a mid hpr)]
  | short mid => rw [bind_short hpr, bind_short hpr]
  | refused cause mid => rw [bind_refused hpr, bind_refused hpr]

theorem bits (n : Nat) (fair : ε → Prop) :
    Meets (BitParser.bits n : BitParser ε Nat) (· < 2 ^ n) fair := by
  intro r
  unfold BitParser.bits
  split
  next v rest hv =>
    refine ⟨fun a r' h => ?_, fun cause r' h => (by cases h)⟩
    cases h
    unfold BitReader.bits? at hv
    split at hv <;> cases hv
    rw [BitReader.fieldAt_eq_toNat]
    apply (toNat_lt _).trans_le
    exact Nat.pow_le_pow_right (by omega) (List.length_take_le _ _)
  next => exact ⟨fun a r' h => (by cases h), fun cause r' h => (by cases h)⟩

theorem align (fair : ε → Prop) : Meets (BitParser.align : BitParser ε Unit) (fun _ => True) fair :=
  fun r => ⟨fun a r' _ => trivial, fun cause r' h => (by cases h)⟩

theorem fields (n count : Nat) (fair : ε → Prop) :
    Meets (BitParser.fields n count : BitParser ε (List Nat))
      (fun values => values.length = count ∧ ∀ v ∈ values, v < 2 ^ n) fair := by
  induction count with
  | zero => exact Meets.pure ⟨rfl, by simp⟩
  | succ count ih =>
    refine (Meets.bits n fair).bind fun v hv => ih.bind fun values hvs => Meets.pure ⟨?_, ?_⟩
    · rw [List.length_cons, hvs.1]
    · intro w hw
      obtain rfl | hw := List.mem_cons.mp hw
      · exact hv
      · exact hvs.2 w hw

theorem mapCause {δ : Type} {p : BitParser ε α} {g : ε → δ} {fair' : δ → Prop}
    (h : Meets p post fair) (hg : ∀ cause, fair cause → fair' (g cause)) :
    Meets (p.mapCause g) post fair' := by
  intro r
  obtain ⟨hv, hr⟩ := h r
  unfold BitParser.mapCause
  split
  next a rest hp =>
    refine ⟨fun b r' he => ?_, fun _ _ he => (by cases he)⟩
    cases he
    exact hv a rest hp
  next => exact ⟨fun a r' he => (by cases he), fun _ _ he => (by cases he)⟩
  next cause rest hp =>
    refine ⟨fun b r' he => (by cases he), fun _ _ he => ?_⟩
    cases he
    exact hg _ (hr cause rest hp)

end Meets

end BitParser

end Conduit
