import Mathlib.Logic.Basic

namespace Conduit

section Replies

variable {α β γ ρ σ τ : Type*}

/-- One use after the other, each with its answer. -/
def replies (act : τ → α → β × τ) (t : τ) : List α → List β × τ
  | [] => ([], t)
  | a :: acts =>
    let (answer, t) := act t a
    let (answers, t) := replies act t acts
    (answer :: answers, t)

/-- One use after the other, unless one of them stops for good. -/
def replies? (act? : σ → α → Option (β × σ)) (s : σ) : List α → Option (List β × σ)
  | [] => some ([], s)
  | a :: acts => do
    let (answer, s) ← act? s a
    let (answers, s) ← replies? act? s acts
    return (answer :: answers, s)

theorem replies_cons (act : τ → α → β × τ) (t : τ) (a : α) (acts : List α) :
    replies act t (a :: acts) =
      ((act t a).1 :: (replies act (act t a).2 acts).1, (replies act (act t a).2 acts).2) :=
  rfl

theorem length_replies (act : τ → α → β × τ) (t : τ) (acts : List α) :
    (replies act t acts).1.length = acts.length := by
  induction acts generalizing t with
  | nil => rfl
  | cons a acts ih => exact congrArg (· + 1) (ih _)

theorem take_replies (act : τ → α → β × τ) (t : τ) (acts : List α) (n : Nat) :
    (replies act t acts).1.take n = (replies act t (acts.take n)).1 := by
  induction acts generalizing t n with
  | nil => rw [List.take_nil, replies, List.take_nil]
  | cons a acts ih =>
    cases n with
    | zero => rfl
    | succ n => rw [replies_cons, List.take_succ_cons, List.take_succ_cons, ih, replies_cons]

theorem drop_replies (act : τ → α → β × τ) (t : τ) (acts : List α) (n : Nat) :
    (replies act t acts).1.drop n =
      (replies act (replies act t (acts.take n)).2 (acts.drop n)).1 := by
  induction acts generalizing t n with
  | nil => rw [List.drop_nil, replies, List.drop_nil, replies]
  | cons a acts ih =>
    cases n with
    | zero => rfl
    | succ n => rw [replies_cons, List.drop_succ_cons, List.drop_succ_cons, ih, List.take_succ_cons,
        replies_cons]

theorem replies_append (act : τ → α → β × τ) (t : τ) (acts more : List α) :
    replies act t (acts ++ more) =
      ((replies act t acts).1 ++ (replies act (replies act t acts).2 more).1,
        (replies act (replies act t acts).2 more).2) := by
  induction acts generalizing t with
  | nil => rfl
  | cons a acts ih => rw [List.cons_append, replies_cons, ih, replies_cons, List.cons_append]

theorem replies_kept {act : τ → α → β × τ} {P : τ → Prop} (hact : ∀ {t}, P t → ∀ a, P (act t a).2)
    {t : τ} (h : P t) (acts : List α) : P (replies act t acts).2 := by
  induction acts generalizing t with
  | nil => exact h
  | cons a acts ih => exact ih (hact h a)

theorem forall_replies {act : τ → α → β × τ} {P : τ → Prop} {Q : β → Prop}
    (hact : ∀ {t}, P t → ∀ a, Q (act t a).1 ∧ P (act t a).2) {t : τ} (h : P t) (acts : List α) :
    ∀ answer ∈ (replies act t acts).1, Q answer := by
  induction acts generalizing t with
  | nil => exact fun answer hm => absurd hm List.not_mem_nil
  | cons a acts ih =>
    obtain ⟨hanswer, hnext⟩ := hact h a
    exact List.forall_mem_cons.mpr ⟨hanswer, ih hnext⟩

/-- What is known of a system from its uses and their answers. -/
def follow (after : γ → α → β → γ) (known : γ) : List α → List β → γ
  | a :: acts, answer :: answers => follow after (after known a answer) acts answers
  | _, _ => known

theorem follow_replies {act : τ → α → β × τ} {after : γ → α → β → γ} {R : τ → γ → Prop}
    (hact : ∀ {t known}, R t known → ∀ a, R (act t a).2 (after known a (act t a).1)) {t : τ}
    {known : γ} (h : R t known) (acts : List α) :
    R (replies act t acts).2 (follow after known acts (replies act t acts).1) := by
  induction acts generalizing t known with
  | nil => exact h
  | cons a acts ih => exact ih (hact h a)

section Stopping

variable {act? : σ → α → Option (β × σ)} {s s' : σ} {a : α} {acts more : List α}
  {answers : List β}

theorem replies?_cons_eq_some :
    replies? act? s (a :: acts) = some (answers, s') ↔
      ∃ answer mid rest, act? s a = some (answer, mid) ∧
        replies? act? mid acts = some (rest, s') ∧ answers = answer :: rest := by
  simp only [replies?, Option.bind_eq_bind, Option.bind_eq_some_iff, Prod.exists, Option.pure_def,
    Option.some.injEq, Prod.mk.injEq]
  constructor
  · rintro ⟨answer, mid, ha, rest, _, hrest, rfl, rfl⟩
    exact ⟨answer, mid, rest, ha, hrest, rfl⟩
  · rintro ⟨answer, mid, rest, ha, hrest, rfl⟩
    exact ⟨answer, mid, ha, rest, s', hrest, rfl, rfl⟩

theorem length_of_replies? (h : replies? act? s acts = some (answers, s')) :
    answers.length = acts.length := by
  induction acts generalizing s answers with
  | nil =>
    cases h
    rfl
  | cons a acts ih =>
    obtain ⟨answer, mid, rest, -, hrest, rfl⟩ := replies?_cons_eq_some.mp h
    exact congrArg (· + 1) (ih hrest)

theorem replies?_append_eq_some :
    replies? act? s (acts ++ more) = some (answers, s') ↔
      ∃ first mid last, replies? act? s acts = some (first, mid) ∧
        replies? act? mid more = some (last, s') ∧ answers = first ++ last := by
  induction acts generalizing s answers with
  | nil =>
    constructor
    · intro h
      exact ⟨[], s, answers, rfl, h, rfl⟩
    · rintro ⟨_, _, last, ⟨⟩, h, rfl⟩
      exact h
  | cons a acts ih =>
    rw [List.cons_append, replies?_cons_eq_some]
    simp only [replies?_cons_eq_some, ih]
    constructor
    · rintro ⟨answer, mid, _, ha, ⟨first, mid', last, hfirst, hlast, rfl⟩, rfl⟩
      exact ⟨answer :: first, mid', last, ⟨answer, mid, first, ha, hfirst, rfl⟩, hlast, rfl⟩
    · rintro ⟨_, mid', last, ⟨answer, mid, first, ha, hfirst, rfl⟩, hlast, rfl⟩
      exact ⟨answer, mid, first ++ last, ha, ⟨first, mid', last, hfirst, hlast, rfl⟩, rfl⟩

/-- What follows each use that is allowed follows a list of them. -/
theorem replies?_of_related {rule? : τ → α → Option (β × τ)} {R : σ → τ → Prop}
    (hact : ∀ {s t t' a answer}, R s t → rule? t a = some (answer, t') →
      ∃ s', act? s a = some (answer, s') ∧ R s' t')
    {t t' : τ} (h : R s t) (hacts : replies? rule? t acts = some (answers, t')) :
    ∃ s', replies? act? s acts = some (answers, s') ∧ R s' t' := by
  induction acts generalizing s t answers with
  | nil =>
    cases hacts
    exact ⟨s, rfl, h⟩
  | cons a acts ih =>
    obtain ⟨answer, mid, rest, ha, hrest, rfl⟩ := replies?_cons_eq_some.mp hacts
    obtain ⟨s₁, hs₁, hmid⟩ := hact h ha
    obtain ⟨s₂, hs₂, hend⟩ := ih hmid hrest
    exact ⟨s₂, replies?_cons_eq_some.mpr ⟨answer, s₁, rest, hs₁, hs₂, rfl⟩, hend⟩

theorem replies?_some (act : τ → α → β × τ) (t : τ) (acts : List α) :
    replies? (fun t a => some (act t a)) t acts = some (replies act t acts) := by
  induction acts generalizing t with
  | nil => rfl
  | cons a acts ih =>
    exact replies?_cons_eq_some.mpr ⟨_, _, _, rfl, ih _, rfl⟩

/-- A machine that never stops for good on one use never does on a list of them. -/
theorem replies?_of_acts {act : τ → α → β × τ} {R : σ → τ → Prop}
    (hact : ∀ {s t}, R s t → ∀ a, ∃ s', act? s a = some ((act t a).1, s') ∧ R s' (act t a).2)
    {t : τ} (h : R s t) (acts : List α) :
    ∃ s', replies? act? s acts = some ((replies act t acts).1, s') ∧
      R s' (replies act t acts).2 := by
  refine replies?_of_related ?_ h (replies?_some act t acts)
  intro s t t' a answer hr ha
  obtain ⟨rfl, rfl⟩ := Prod.ext_iff.mp (Option.some.inj ha)
  exact hact hr a

end Stopping

structure Event (τ α β : Type*) where
  state : τ
  act : α
  answer : β

def trace (act : τ → α → β × τ) (t : τ) : List α → List (Event τ α β)
  | [] => []
  | a :: acts => ⟨t, a, (act t a).1⟩ :: trace act (act t a).2 acts

theorem replies_of_related {act : τ → α → β × τ} {act' : ρ → α → β × ρ} {R : τ → ρ → Prop}
    (hact : ∀ {t r}, R t r → ∀ a, (act t a).1 = (act' r a).1 ∧ R (act t a).2 (act' r a).2)
    {t : τ} {r : ρ} (h : R t r) (acts : List α) :
    (replies act t acts).1 = (replies act' r acts).1 ∧
      R (replies act t acts).2 (replies act' r acts).2 := by
  induction acts generalizing t r with
  | nil => exact ⟨rfl, h⟩
  | cons a acts ih =>
    obtain ⟨hanswer, hrel⟩ := hact h a
    obtain ⟨hanswers, hrel'⟩ := ih hrel
    exact ⟨congrArg₂ List.cons hanswer hanswers, hrel'⟩

end Replies

section Comes

variable {α β σ : Type} {τ : Type*}

/-- With calls enough it comes to this. -/
def Comes (f : Nat → Option α) (a : α) : Prop :=
  ∃ n, ∀ calls, n ≤ calls → f calls = some a

theorem comes_of_eq {f : Nat → Option α} {a : α} (h : ∀ calls, f calls = some a) : Comes f a :=
  ⟨0, fun calls _ => h calls⟩

theorem Comes.unique {f : Nat → Option α} {a b : α} (ha : Comes f a) (hb : Comes f b) : a = b := by
  obtain ⟨m, hm⟩ := ha
  obtain ⟨n, hn⟩ := hb
  have hmax := hm (max m n) (Nat.le_max_left m n)
  exact Option.some.inj (hmax.symm.trans (hn (max m n) (Nat.le_max_right m n)))

theorem Comes.bind {f : Nat → Option α} {a : α} (hf : Comes f a) {g : Nat → α → Option β} {b : β}
    (hg : Comes (fun calls => g calls a) b) : Comes (fun calls => f calls >>= g calls) b := by
  obtain ⟨m, hm⟩ := hf
  obtain ⟨n, hn⟩ := hg
  refine ⟨max m n, fun calls hcalls => ?_⟩
  dsimp only
  rw [hm calls (Nat.le_trans (Nat.le_max_left m n) hcalls)]
  exact hn calls (Nat.le_trans (Nat.le_max_right m n) hcalls)

theorem Comes.of_succ {f g : Nat → Option α} {a : α} (h : ∀ calls, f (calls + 1) = g calls)
    (hg : Comes g a) : Comes f a := by
  obtain ⟨n, hn⟩ := hg
  refine ⟨n + 1, fun calls hcalls => ?_⟩
  obtain ⟨calls, rfl⟩ := Nat.exists_eq_add_of_le' (Nat.le_of_add_left_le hcalls)
  rw [h]
  exact hn calls (by omega)

theorem comes_replies (act : τ → α → β × τ) (act? : Nat → σ → α → Option (β × σ))
    (R : σ → τ → Prop)
    (hact : ∀ {s t}, R s t → ∀ a, ∃ s', R s' (act t a).2 ∧
      Comes (fun calls => act? calls s a) ((act t a).1, s'))
    {s : σ} {t : τ} (h : R s t) (acts : List α) :
    ∃ s', R s' (replies act t acts).2 ∧
      Comes (fun calls => replies? (act? calls) s acts) ((replies act t acts).1, s') := by
  induction acts generalizing s t with
  | nil => exact ⟨s, h, comes_of_eq fun _ => rfl⟩
  | cons a acts ih =>
    obtain ⟨mid, hrel, ha⟩ := hact h a
    obtain ⟨s', hrel', hacts⟩ := ih hrel
    exact ⟨s', hrel', ha.bind (hacts.bind (comes_of_eq fun _ => rfl))⟩

end Comes

end Conduit
