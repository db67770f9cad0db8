import Conduit.Proofs.Deflate.Retaining

namespace Conduit.Deflate

section Latest

variable {mark mark' : Nat → Option Nat} {b n p : Nat}

/-- The latest position before `n` that belongs to chain `b`, plus one; zero if there is none. -/
def latest (mark : Nat → Option Nat) (b : Nat) : (n : Nat) → Nat
  | 0 => 0
  | n + 1 => if mark n = some b then n + 1 else latest mark b n

theorem latest_le (mark : Nat → Option Nat) (b n : Nat) : latest mark b n ≤ n := by
  induction n with
  | zero => exact Nat.le_refl 0
  | succ n ih =>
    rw [latest]
    split
    · exact Nat.le_refl _
    · exact Nat.le_succ_of_le ih

theorem mark_of_latest (h : latest mark b n = p + 1) : p < n ∧ mark p = some b := by
  induction n with
  | zero => cases h
  | succ n ih =>
    rw [latest] at h
    split at h
    next hmark =>
      cases h
      exact ⟨Nat.lt_succ_self p, hmark⟩
    next =>
      obtain ⟨hlt, hmark⟩ := ih h
      exact ⟨Nat.lt_succ_of_lt hlt, hmark⟩

theorem latest_congr (b : Nat) (h : ∀ p < n, mark p = mark' p) :
    latest mark b n = latest mark' b n := by
  induction n with
  | zero => rfl
  | succ n ih =>
    rw [latest, latest, h n (Nat.lt_succ_self n), ih fun p hp => h p (Nat.lt_succ_of_lt hp)]

end Latest

section Traced

variable {mark mark' : Nat → Option Nat} {n i base stop : Nat} {chains chains' : Chains}
  {bytes : Array UInt8}

/-- The chains after all positions before `n` that belong to one have been inserted. -/
structure Traced (mark : Nat → Option Nat) (n : Nat) (chains : Chains) : Prop where
  sized : chains.Sized
  head : ∀ b < bucketCount, chains.head[b]? = some (latest mark b n)
  link : ∀ p b, mark p = some b → p < n → n ≤ p + windowSize →
    chains.previous[p % windowSize]? = some (latest mark b p)
  inserted : ∀ (i p : Nat), chains.previous[i]? = some (p + 1) → p < n ∧ ∃ b, mark p = some b

theorem traced_empty (mark : Nat → Option Nat) : Traced mark 0 .empty where
  sized := sized_empty
  head b hb := by
    rw [Chains.empty, Array.getElem?_replicate, if_pos hb]
    rfl
  link p b _ hp := absurd hp (Nat.not_lt_zero p)
  inserted i p h := by
    rw [Chains.empty, Array.getElem?_replicate] at h
    split at h <;> cases h

theorem Traced.congr (h : Traced mark n chains) (hmark : ∀ p < n, mark p = mark' p) :
    Traced mark' n chains where
  sized := h.sized
  head b hb := by
    rw [h.head b hb, latest_congr b hmark]
  link p b hp hlt hle := by
    rw [← hmark p hlt] at hp
    rw [h.link p b hp hlt hle, latest_congr b fun q hq => hmark q (hq.trans hlt)]
  inserted i p hi := by
    obtain ⟨hlt, b, hb⟩ := h.inserted i p hi
    exact ⟨hlt, b, by rw [← hmark p hlt, hb]⟩

theorem Traced.skip (h : Traced mark n chains) (hmark : mark n = none) :
    Traced mark (n + 1) chains where
  sized := h.sized
  head b hb := by
    have hne : mark n ≠ some b := by simp [hmark]
    rw [h.head b hb, latest, if_neg hne]
  link p b hp hlt hle := by
    have hne : p ≠ n := by
      rintro rfl
      simp [hmark] at hp
    exact h.link p b hp (by omega) (by omega)
  inserted i p hi := by
    obtain ⟨hlt, hb⟩ := h.inserted i p hi
    exact ⟨Nat.lt_succ_of_lt hlt, hb⟩

theorem Traced.skips (h : Traced mark n chains) {m : Nat}
    (hmark : ∀ p, n ≤ p → p < n + m → mark p = none) : Traced mark (n + m) chains := by
  induction m with
  | zero => exact h
  | succ m ih =>
    have hmid := ih fun p hp hlt => hmark p hp (Nat.lt_succ_of_lt hlt)
    exact hmid.skip (hmark (n + m) (Nat.le_add_right n m) (Nat.lt_succ_self _))

/-- A position becomes the head of its chain, and its link leads to what was the head before. -/
theorem Traced.put (h : Traced mark n chains) {b : Nat} (hb : b < bucketCount)
    (hmark : mark n = some b) :
    Traced mark (n + 1) ⟨chains.head.setIfInBounds b (n + 1),
      chains.previous.setIfInBounds (n % windowSize) (latest mark b n)⟩ := by
  have hhead := h.sized.head
  have hprevious := h.sized.previous
  have hslot : n % windowSize < chains.previous.size := by
    rw [hprevious]
    exact Nat.mod_lt _ (by decide)
  refine ⟨⟨?_, ?_⟩, ?_, ?_, ?_⟩
  · rw [Array.size_setIfInBounds, hhead]
  · rw [Array.size_setIfInBounds, hprevious]
  · intro d hd
    rw [latest]
    by_cases he : b = d
    · subst he
      rw [if_pos hmark, Array.getElem?_setIfInBounds_self_of_lt (hhead ▸ hb)]
    · have hne : mark n ≠ some d := by simp [hmark, he]
      rw [if_neg hne, Array.getElem?_setIfInBounds_ne he, h.head d hd]
  · intro p d hp hlt hle
    obtain rfl | hbefore : p = n ∨ p < n := by omega
    · cases hmark.symm.trans hp
      rw [Array.getElem?_setIfInBounds_self_of_lt hslot]
    · have hother : n % windowSize ≠ p % windowSize := by
        rw [windowSize] at hle ⊢
        omega
      rw [Array.getElem?_setIfInBounds_ne hother, h.link p d hp hbefore (by omega)]
  · intro i p hi
    by_cases he : n % windowSize = i
    · subst he
      rw [Array.getElem?_setIfInBounds_self_of_lt hslot, Option.some.injEq] at hi
      obtain ⟨hlt, hp⟩ := mark_of_latest hi
      exact ⟨Nat.lt_succ_of_lt hlt, b, hp⟩
    · rw [Array.getElem?_setIfInBounds_ne he] at hi
      obtain ⟨hlt, hp⟩ := h.inserted i p hi
      exact ⟨Nat.lt_succ_of_lt hlt, hp⟩

theorem Traced.next (h : Traced mark n chains) {p b : Nat} (hp : mark p = some b) (hlt : p < n)
    (hle : n ≤ p + windowSize) :
    ∃ next, chains.previous[p % windowSize]? = some next ∧ next < p + 1 ∧
      ∀ q, next = q + 1 → q < p ∧ mark q = some b :=
  ⟨_, h.link p b hp hlt hle, Nat.lt_succ_of_le (latest_le mark b p), fun _ hq => mark_of_latest hq⟩

theorem bucketAt_eq_none (h : bytes.size < i + minMatch) : bucketAt bytes i = none := by
  rw [minMatch] at h
  have hthird : bytes[i + 2]? = none := Array.getElem?_eq_none (by omega)
  rw [bucketAt, hthird]
  cases bytes[i]? <;> cases bytes[i + 1]? <;> rfl

theorem Traced.insert (h : Traced mark (base + i) chains)
    (hmark : mark (base + i) = bucketAt bytes i) :
    ∃ chains', chains.insert bytes base i = some chains' ∧ Traced mark (base + i + 1) chains' := by
  rw [Chains.insert]
  split
  next hshort =>
    rw [bucketAt_eq_none hshort] at hmark
    exact ⟨chains, rfl, h.skip hmark⟩
  next hlong =>
    obtain ⟨b, hbucket, hb⟩ := bucketAt_eq_some (Nat.not_lt.mp hlong)
    rw [hbucket] at hmark
    obtain ⟨head, previous⟩ := chains
    have hfirst := h.head b hb
    rw [hbucket]
    dsimp only at hfirst ⊢
    rw [hfirst]
    exact ⟨_, rfl, h.put hb hmark⟩

/-- These are the bytes that the positions from `i` to `stop` have their chains from. -/
def MarksOf (mark : Nat → Option Nat) (bytes : Array UInt8) (base i stop : Nat) : Prop :=
  ∀ k, i ≤ k → k < stop → mark (base + k) = bucketAt bytes k

theorem MarksOf.mono {i' stop' : Nat} (h : MarksOf mark bytes base i stop) (hi : i ≤ i')
    (hs : stop' ≤ stop) : MarksOf mark bytes base i' stop' :=
  fun k hk hlt => h k (hi.trans hk) (hlt.trans_le hs)

theorem Traced.insertRun (h : Traced mark (base + i) chains)
    (hmarks : MarksOf mark bytes base i (i + n)) :
    ∃ chains', Chains.insertRun bytes base n i chains = some chains' ∧
      Traced mark (base + (i + n)) chains' := by
  induction n generalizing i chains with
  | zero => exact ⟨chains, rfl, h⟩
  | succ n ih =>
    obtain ⟨mid, hmid, htraced⟩ := h.insert (hmarks i (Nat.le_refl i) (by omega))
    rw [Nat.add_assoc] at htraced
    obtain ⟨chains', hrun, htraced'⟩ := ih htraced (hmarks.mono (by omega) (by omega))
    refine ⟨chains', ?_, ?_⟩
    · rw [Chains.insertRun, hmid]
      exact hrun
    · rwa [Nat.add_right_comm, Nat.add_assoc] at htraced'

theorem insertRun_add (bytes : Array UInt8) (base m n i : Nat) (chains : Chains) :
    Chains.insertRun bytes base (m + n) i chains =
      (Chains.insertRun bytes base m i chains).bind
        (Chains.insertRun bytes base n (i + m)) := by
  induction m generalizing i chains with
  | zero =>
    rw [Nat.zero_add]
    rfl
  | succ m ih =>
    rw [Nat.add_right_comm, Chains.insertRun, Chains.insertRun]
    cases chains.insert bytes base i with
    | none => rfl
    | some chains =>
      dsimp only
      rw [ih, Nat.add_right_comm, Nat.add_assoc]

theorem insertRun_of_insert {mid : Chains} (hlt : i < stop)
    (hinsert : chains.insert bytes base i = some mid)
    (hrest : Chains.insertRun bytes base (stop - (i + 1)) (i + 1) mid = some chains') :
    Chains.insertRun bytes base (stop - i) i chains = some chains' := by
  have hcount : stop - i = stop - (i + 1) + 1 := by omega
  rw [hcount, Chains.insertRun, hinsert]
  exact hrest

/-- A split inserts every position on its way, once and in order, whatever it finds. -/
theorem insertRun_of_tokenize {effort : Effort} {tokens tokens' : Array Token} (hc : chains.Sized)
    (hs : stop ≤ bytes.size) (hi : i ≤ stop)
    (h : tokenize effort bytes base stop i chains tokens = some (tokens', chains')) :
    Chains.insertRun bytes base (stop - i) i chains = some chains' := by
  fun_induction tokenize effort bytes base stop i chains tokens with
  | case2 =>
    rename_i hlt _ _ _ _ hinsert ih
    exact insertRun_of_insert hlt hinsert (ih (hc.of_insert hinsert) hlt h)
  | case5 =>
    rename_i hlt _ _ _ _ _ hinsert _ ih
    exact insertRun_of_insert hlt hinsert (ih (hc.of_insert hinsert) hlt h)
  | case7 =>
    rename_i i _ _ hlt found _ _ hfound _ hinsert _ _ hrun ih
    have hsized := hc.of_insert hinsert
    have hmin := found.minMatch_le
    rw [minMatch] at hmin
    -- a copy does not pass the end of its block
    have hle : i + found.length ≤ stop := by
      obtain ⟨_, hsome, hall⟩ := hc.longestMatch (i := i) effort base hs
      cases hfound.symm.trans hsome
      have hroom := (hall found rfl).1
      omega
    have hrest := ih (hsized.of_insertRun hrun) hle h
    refine insertRun_of_insert hlt hinsert ?_
    have hcount : stop - (i + 1) = found.length - 1 + (stop - (i + found.length)) := by omega
    have hnext : i + 1 + (found.length - 1) = i + found.length := by omega
    rw [hcount, insertRun_add, hrun, Option.bind_some, hnext]
    exact hrest
  | case9 =>
    rename_i i _ _ hge
    cases h
    have hnone : stop - i = 0 := by omega
    rw [hnone]
    rfl
  | _ => cases h

theorem Traced.tokenize {effort : Effort} {tokens tokens' : Array Token}
    (h : Traced mark (base + i) chains) (hs : stop ≤ bytes.size) (hi : i ≤ stop)
    (hmarks : MarksOf mark bytes base i stop)
    (ht : tokenize effort bytes base stop i chains tokens = some (tokens', chains')) :
    Traced mark (base + stop) chains' := by
  have hrun := insertRun_of_tokenize h.sized hs hi ht
  obtain ⟨n, rfl⟩ := Nat.exists_eq_add_of_le hi
  rw [Nat.add_sub_cancel_left] at hrun
  obtain ⟨_, hrun', htraced⟩ := h.insertRun hmarks
  cases hrun.symm.trans hrun'
  exact htraced

end Traced

end Conduit.Deflate
