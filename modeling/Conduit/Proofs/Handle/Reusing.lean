import Conduit.Proofs.Handle.Runs

namespace Conduit.HandleTable

open Handle

variable {α : Type*} {t : HandleTable α} {h : Handle} {i n : Nat} {generation : UInt32}

abbrev Happening (α : Type*) :=
  Event (HandleTable α) (Act α) (Answer α)

namespace Happening

def vacates (i : Nat) (e : Happening α) : Bool :=
  match e.act, e.answer with
  | .remove handle, .removed (some _) => handle.index? == some i
  | _, _ => false

def issued? (e : Happening α) : Option Handle :=
  match e.answer with
  | .issued handle => some handle
  | _ => none

/-- The handle is not issued, and whoever comes with it is told that it stands for nothing. -/
structure Refuses (h : Handle) (e : Happening α) : Prop where
  issue : e.issued? ≠ some h
  get : e.act = .get h → e.answer = .found (.error (.useAfterFree h.raw))
  update : ∀ f, e.act = .update h f → e.answer = .found (.error (.useAfterFree h.raw))
  remove : e.act = .remove h → e.answer = .removed none
  contains : e.act = .contains h → e.answer = .contained false

end Happening

/-- How often a value was removed from this slot. -/
def vacations (i : Nat) (events : List (Happening α)) : Nat :=
  events.countP (Happening.vacates i)

def issues (events : List (Happening α)) : List Handle :=
  events.filterMap Happening.issued?

/-- The slot has been vacated so often since it had this generation. -/
def Aged (t : HandleTable α) (i : Nat) (generation : UInt32) (n : Nat) : Prop :=
  ∃ slot, t.slots[i]? = some slot ∧ slot.generation = generation + .ofNat n ∧
    (n = 0 → slot.value ≠ none)

theorem add_ofNat_ne (hpos : 0 < n) (hn : n < 2 ^ 32) : generation + .ofNat n ≠ generation := by
  intro heq
  have hg := generation.toNat_lt
  have hsum := congrArg UInt32.toNat heq
  rw [UInt32.toNat_add, toNat_ofNat hn] at hsum
  omega

theorem Aged.lt_size (ha : t.Aged i generation n) : i < t.slots.size := by
  obtain ⟨slot, hslot, -, -⟩ := ha
  obtain ⟨hlt, -⟩ := Array.getElem?_eq_some_iff.mp hslot
  exact hlt

theorem Aged.get?_eq_none (ha : t.Aged i h.generation n) (hi : h.index? = some i) (hpos : 0 < n)
    (hn : n < 2 ^ 32) : t.get? h = none := by
  obtain ⟨slot, hslot, hg, -⟩ := ha
  rw [get?_of_getElem? hi hslot, if_neg]
  rw [hg]
  exact add_ofNat_ne hpos hn

theorem Aged.insert_ne (ha : t.Aged i generation n) (hs : t.Sound) (hn : n < 2 ^ 32) {value : α}
    (hsize : (t.insert value).2.slots.size ≤ 2 ^ 32) :
    (t.insert value).1 ≠ ofSlot (.ofNat i) generation := by
  have hi := ha.lt_size
  obtain ⟨slot, hslot, hg, hzero⟩ := ha
  obtain ⟨j, generation', hhandle, hlt, hle, hplace, -⟩ := hs.insert_spec value
  intro heq
  rw [hhandle] at heq
  obtain rfl := eq_of_ofSlot (by omega) (by omega) heq
  rw [hslot] at hplace
  obtain hvacant | hnone := hplace
  · obtain rfl := Option.some.inj hvacant
    have hpos : 0 < n := Nat.pos_of_ne_zero fun hn => hzero hn rfl
    have hfree := hs.free_lt j ((hs.mem_free_iff j).mpr ⟨generation', hslot⟩)
    have hgeneration := congrArg Handle.generation heq
    rw [generation_ofSlot hfree, generation_ofSlot hfree] at hgeneration
    exact add_ofNat_ne hpos hn (hg.symm.trans hgeneration)
  · cases hnone

theorem Aged.insert (ha : t.Aged i generation n) (hs : t.Sound) (value : α) :
    (t.insert value).2.Aged i generation n := by
  obtain ⟨slot, hslot, hg, hzero⟩ := ha
  obtain ⟨j, generation', -, -, -, hplace, hset⟩ := hs.insert_spec value
  by_cases hj : i = j
  · subst hj
    rw [hslot] at hplace
    obtain hvacant | hnone := hplace
    · obtain rfl := Option.some.inj hvacant
      exact ⟨_, (hset i).trans (if_pos rfl), hg, by simp⟩
    · cases hnone
  · exact ⟨slot, (hset i).trans ((if_neg hj).trans hslot), hg, hzero⟩

theorem Aged.update (ha : t.Aged i generation n) (h : Handle) (f : α → α) :
    (t.update h fun value => (value, f value)).2.Aged i generation n := by
  cases hv : t.get? h with
  | none =>
    rw [update_of_none hv]
    exact ha
  | some value =>
    obtain ⟨slot, hslot, hg, hzero⟩ := ha
    obtain ⟨j, -, hold, hupdate⟩ := update_of_some hv fun value => (value, f value)
    rw [hupdate]
    by_cases hj : i = j
    · subst hj
      obtain rfl := Option.some.inj (hslot.symm.trans hold)
      exact ⟨_, (getElem?_set hold _ i).trans (if_pos rfl), hg, by simp⟩
    · exact ⟨slot, (getElem?_set hold _ i).trans ((if_neg hj).trans hslot), hg, hzero⟩

/-- Each use takes the slot further if it vacates it, and leaves it where it is otherwise. -/
theorem Aged.act (ha : t.Aged i generation n) (hs : t.Sound) (a : Act α) :
    (t.act a).2.Aged i generation (n + vacations i [⟨t, a, (t.act a).1⟩]) := by
  cases a with
  | insert value => exact ha.insert hs value
  | get handle => exact ha
  | update handle f => exact ha.update handle f
  | remove handle =>
    rw [HandleTable.act]
    cases hv : t.get? handle with
    | none =>
      rw [remove_of_none hv]
      exact ha
    | some value =>
      obtain ⟨slot, hslot, hg, hzero⟩ := ha
      obtain ⟨j, hj, hold, hremove⟩ := remove_of_some hv
      rw [hremove]
      by_cases hij : i = j
      · subst hij
        obtain rfl := Option.some.inj (hslot.symm.trans hold)
        have hone : vacations i
            [⟨t, .remove handle, .removed (some value)⟩] = 1 := by
          simp [vacations, Happening.vacates, hj]
        refine ⟨_, (getElem?_set hold _ i).trans (if_pos rfl), ?_, fun hn => ?_⟩
        · dsimp only at hg ⊢
          rw [hone, hg, UInt32.ofNat_add, UInt32.add_assoc]
          rfl
        · rw [hone] at hn
          cases hn
      · have hnone : vacations i
            [⟨t, .remove handle, .removed (some value)⟩] = 0 := by
          simp [vacations, Happening.vacates, hj, Ne.symm hij]
        rw [hnone]
        exact ⟨slot, (getElem?_set hold _ i).trans ((if_neg hij).trans hslot), hg, hzero⟩
  | contains handle => exact ha

theorem Sound.size_le_act (hs : t.Sound) (a : Act α) : t.slots.size ≤ (t.act a).2.slots.size := by
  cases a with
  | insert value =>
    obtain ⟨-, -, -, -, hle, -, -⟩ := hs.insert_spec value
    exact hle
  | get handle => exact Nat.le_refl _
  | update handle f =>
    rw [HandleTable.act]
    cases hv : t.get? handle with
    | none => rw [update_of_none hv]
    | some value =>
      obtain ⟨i, -, -, hupdate⟩ := update_of_some hv fun value => (value, f value)
      rw [hupdate, Array.size_setIfInBounds]
  | remove handle =>
    rw [HandleTable.act]
    cases hv : t.get? handle with
    | none => rw [remove_of_none hv]
    | some value =>
      obtain ⟨i, -, -, hremove⟩ := remove_of_some hv
      rw [hremove, Array.size_setIfInBounds]
  | contains handle => exact Nat.le_refl _

theorem Sound.size_le_replies (hs : t.Sound) (acts : List (Act α)) :
    t.slots.size ≤ (Conduit.replies HandleTable.act t acts).2.slots.size := by
  induction acts generalizing t with
  | nil => exact Nat.le_refl _
  | cons a acts ih => exact Nat.le_trans (hs.size_le_act a) (ih (hs.act a))

theorem vacations_cons (i : Nat) (e : Happening α) (events : List (Happening α)) :
    vacations i (e :: events) = vacations i [e] + vacations i events := by
  rw [vacations, List.countP_cons, vacations, vacations, List.countP_singleton]
  exact Nat.add_comm _ _

/-- Every use of a run meets a table in which the slot has not yet gone through all generations. -/
theorem Aged.of_mem_trace (ha : t.Aged i generation n) (hs : t.Sound) {acts : List (Act α)}
    (hn : n + vacations i (trace HandleTable.act t acts) < 2 ^ 32) {e : Happening α}
    (he : e ∈ trace HandleTable.act t acts) :
    ∃ m, e.state.Aged i generation m ∧ n ≤ m ∧ m < 2 ^ 32 ∧ e.state.Sound ∧
      e.answer = (e.state.act e.act).1 ∧ (e.state.act e.act).2.slots.size ≤
        (replies HandleTable.act t acts).2.slots.size := by
  induction acts generalizing t n with
  | nil => cases he
  | cons a acts ih =>
    rw [trace, vacations_cons, ← Nat.add_assoc] at hn
    obtain rfl | hrest := List.mem_cons.mp he
    · exact ⟨n, ha, Nat.le_refl n, by omega, hs, rfl, (hs.act a).size_le_replies acts⟩
    · obtain ⟨m, hm, hle, hlt, hevent⟩ := ih (ha.act hs a) (hs.act a) hn hrest
      exact ⟨m, hm, Nat.le_trans (Nat.le_add_right _ _) hle, hlt, hevent⟩

theorem insert_of_issued? {e : Happening α} (hanswer : e.answer = (e.state.act e.act).1)
    (he : e.issued? = some h) :
    ∃ value, e.act = .insert value ∧ (e.state.insert value).1 = h := by
  obtain ⟨state, a, answer⟩ := e
  dsimp only at hanswer
  subst hanswer
  cases a with
  | insert value => exact ⟨value, rfl, Option.some.inj he⟩
  | get handle => cases he
  | update handle f => cases he
  | remove handle => cases he
  | contains handle => cases he

theorem Aged.issued?_ne (ha : t.Aged i generation n) (hs : t.Sound) {acts : List (Act α)}
    (hn : n + vacations i (trace HandleTable.act t acts) < 2 ^ 32)
    (hsize : (replies HandleTable.act t acts).2.slots.size ≤ 2 ^ 32) {e : Happening α}
    (he : e ∈ trace HandleTable.act t acts) : e.issued? ≠ some (ofSlot (.ofNat i) generation) := by
  obtain ⟨m, hm, -, hlt, hsound, hanswer, hle⟩ := ha.of_mem_trace hs hn he
  intro hissued
  obtain ⟨value, hact, hhandle⟩ := insert_of_issued? hanswer hissued
  rw [hact] at hle
  exact hm.insert_ne hsound hlt (Nat.le_trans hle hsize) hhandle

theorem Aged.refuses (ha : t.Aged i h.generation n) (hs : t.Sound) (hi : h.index? = some i)
    (hpos : 0 < n) {acts : List (Act α)}
    (hn : n + vacations i (trace HandleTable.act t acts) < 2 ^ 32)
    (hsize : (replies HandleTable.act t acts).2.slots.size ≤ 2 ^ 32) {e : Happening α}
    (he : e ∈ trace HandleTable.act t acts) : e.Refuses h := by
  have hissue := ha.issued?_ne hs hn hsize he
  rw [ofSlot_of_index? hi] at hissue
  obtain ⟨m, hm, hle, hlt, hsound, hanswer, -⟩ := ha.of_mem_trace hs hn he
  have hnone := hm.get?_eq_none hi (Nat.lt_of_lt_of_le hpos hle) hlt
  refine ⟨hissue, fun hact => ?_, fun f hact => ?_, fun hact => ?_, fun hact => ?_⟩
  · rw [hanswer, hact, HandleTable.act, get_of_none hnone]
  · rw [hanswer, hact, HandleTable.act, update_of_none hnone]
  · rw [hanswer, hact, HandleTable.act, remove_of_none hnone]
  · rw [hanswer, hact, HandleTable.act, contains_of_none hnone]

theorem Sound.aged_insert (hs : t.Sound) (value : α) :
    ∃ i generation, (t.insert value).1 = ofSlot (.ofNat i) generation ∧
      (t.insert value).2.Aged i generation 0 := by
  obtain ⟨i, generation, hhandle, -, -, -, hset⟩ := hs.insert_spec value
  refine ⟨i, generation, hhandle, _, (hset i).trans (if_pos rfl), ?_, by simp⟩
  exact (UInt32.add_zero generation).symm

theorem Sound.nodup_issues (hs : t.Sound) {acts : List (Act α)}
    (hn : ∀ i, vacations i (trace HandleTable.act t acts) < 2 ^ 32)
    (hsize : (Conduit.replies HandleTable.act t acts).2.slots.size ≤ 2 ^ 32) :
    (issues (trace HandleTable.act t acts)).Nodup := by
  induction acts generalizing t with
  | nil => exact List.nodup_nil
  | cons a acts ih =>
    have hrest : ∀ i, vacations i (trace HandleTable.act (t.act a).2 acts) < 2 ^ 32 := by
      intro i
      have hi := hn i
      rw [trace, vacations_cons] at hi
      omega
    have hnodup := ih (hs.act a) hrest hsize
    rw [issues, trace, List.filterMap_cons]
    split
    · exact hnodup
    next handle hissued =>
      refine List.nodup_cons.mpr ⟨fun hmem => ?_, hnodup⟩
      obtain ⟨e, he, hagain⟩ := List.mem_filterMap.mp hmem
      obtain ⟨value, rfl, rfl⟩ := insert_of_issued? rfl hissued
      obtain ⟨i, generation, hhandle, haged⟩ := hs.aged_insert value
      refine haged.issued?_ne (hs.act (.insert value)) ?_ hsize he (hagain.trans ?_)
      · rw [Nat.zero_add]
        exact hrest i
      · exact congrArg some hhandle

theorem run_append (acts more : List (Act α)) :
    run (acts ++ more) = (replies act (run acts) more).2 := by
  rw [run, replies_append]
  rfl

/-- As long as slot numbers fit in a handle, no handle is handed out twice if no slot goes through
all generations, and one whose value was removed is refused until its slot has gone through them. -/
theorem removed_handle_refused (acts : List (Act α)) (hsize : (run acts).slots.size ≤ 2 ^ 32) :
    ((∀ i, vacations i (trace act empty acts) < 2 ^ 32) →
      (issues (trace act empty acts)).Nodup) ∧
      ∀ before h after, acts = before ++ .remove h :: after →
        ∀ value, ((run before).act (.remove h)).1 = .removed (some value) →
          (∀ i, h.index? = some i →
            vacations i (trace act (run before) (.remove h :: after)) < 2 ^ 32) →
              ∀ e ∈ trace act ((run before).act (.remove h)).2 after, Happening.Refuses h e := by
  refine ⟨fun hvacations => sound_empty.nodup_issues hvacations hsize, ?_⟩
  rintro before h after rfl value hremoved hvacations e he
  have hs := sound_run before
  cases hv : (run before).get? h with
  | none =>
    rw [act, remove_of_none hv] at hremoved
    cases hremoved
  | some old =>
    obtain ⟨i, hi, hslot, -⟩ := remove_of_some hv
    have haged : (run before).Aged i h.generation 0 :=
      ⟨_, hslot, (UInt32.add_zero _).symm, by simp⟩
    have hone : vacations i [⟨run before, .remove h, ((run before).act (.remove h)).1⟩] = 1 := by
      rw [hremoved]
      simp [vacations, Happening.vacates, hi]
    have hlt := hvacations i hi
    have hnext := haged.act hs (.remove h)
    rw [trace, vacations_cons, hone] at hlt
    rw [hone] at hnext
    rw [run_append, replies_cons] at hsize
    exact hnext.refuses (hs.act _) hi Nat.one_pos hlt hsize he

/-- The slot of the removed handle is used again, and the old handle is tried in between. -/
theorem removed_handle_refused_after_reuse :
    (issues (trace act empty [.insert 'a', .remove ⟨1⟩, .insert 'b'])).Nodup ∧
      (trace act ((run [.insert 'a']).act (.remove ⟨1⟩)).2
        [.get ⟨1⟩, .insert 'b', .update ⟨1⟩ fun _ => 'x', .remove ⟨1⟩, .contains ⟨1⟩]).Forall
          (Happening.Refuses ⟨1⟩) := by
  constructor
  · apply (removed_handle_refused [.insert 'a', .remove ⟨1⟩, .insert 'b'] (by decide)).1
    exact fun i => Nat.lt_of_le_of_lt List.countP_le_length (by decide)
  · rw [List.forall_iff_forall_mem]
    refine (removed_handle_refused ([.insert 'a'] ++ .remove ⟨1⟩ :: [.get ⟨1⟩, .insert 'b',
      .update ⟨1⟩ fun _ => 'x', .remove ⟨1⟩, .contains ⟨1⟩]) (by decide)).2
      [.insert 'a'] ⟨1⟩ _ rfl 'a' rfl ?_
    exact fun i hi => Nat.lt_of_le_of_lt List.countP_le_length (by decide)

def reuses (n : Nat) : List (Act Unit) :=
  (List.range' 1 n).flatMap fun k => [.insert (), .remove (.ofSlot (.ofNat 0) (.ofNat k))]

theorem run_reuses (n : Nat) :
    run ([.insert (), .remove ⟨1⟩] ++ reuses n) = ⟨#[⟨.ofNat (1 + n), none⟩], [0], 0⟩ := by
  induction n with
  | zero => rfl
  | succ n ih =>
    have hlive : HandleTable.get? ⟨#[⟨.ofNat (1 + n), some ()⟩], [], 1⟩
        (.ofSlot (.ofNat 0) (.ofNat (1 + n))) = some () := by
      refine get?_eq_some_iff.mpr ⟨0, index?_ofSlot (by decide) _, ?_⟩
      rw [generation_ofSlot (by decide)]
      rfl
    obtain ⟨i, hi, -, hremove⟩ := remove_of_some hlive
    rw [index?_ofSlot (by decide)] at hi
    obtain rfl := Option.some.inj hi
    rw [generation_ofSlot (by decide)] at hremove
    rw [reuses, List.range'_concat, List.flatMap_append, ← reuses, ← List.append_assoc, run_append,
      ih, Nat.one_mul]
    have hnext : UInt32.ofNat (1 + (n + 1)) = .ofNat (1 + n) + 1 := UInt32.ofNat_add (1 + n) 1
    rw [hnext]
    exact congrArg Prod.snd hremove

theorem run_replicate (n : Nat) :
    run (List.replicate n (.insert ())) = ⟨Array.replicate n ⟨0, some ()⟩, [], n⟩ := by
  induction n with
  | zero => rfl
  | succ n ih =>
    rw [List.replicate_succ', run_append, ih, Array.replicate_succ]
    rfl

/-- After `2 ^ 32` removals from its slot a handle is handed out again, and the old copy of it finds
the new value. So it is with the first handle after `2 ^ 32` insertions, for a slot whose number
does not fit in a handle. -/
theorem removed_handle_issued_again :
    ((run [.insert ()]).act (.remove ⟨1⟩)).1 = .removed (some ()) ∧
      ((run ([.insert (), .remove ⟨1⟩] ++ reuses (2 ^ 32 - 1))).act (.insert ())).1 = .issued ⟨1⟩ ∧
      (run ([.insert (), .remove ⟨1⟩] ++ reuses (2 ^ 32 - 1) ++ [.insert ()])).get ⟨1⟩ = .ok () ∧
      (empty.act (.insert ())).1 = .issued ⟨1⟩ ∧
      ((run (List.replicate (2 ^ 32) (.insert ()))).act (.insert ())).1 = .issued ⟨1⟩ := by
  have hround : run ([.insert (), .remove ⟨1⟩] ++ reuses (2 ^ 32 - 1)) = ⟨#[⟨0, none⟩], [0], 0⟩ :=
    run_reuses (2 ^ 32 - 1)
  have hfull := run_replicate (2 ^ 32)
  rw [run_append _ [.insert ()], hround]
  refine ⟨rfl, rfl, rfl, rfl, ?_⟩
  rw [hfull, HandleTable.act, insert_of_free_nil rfl, Array.size_replicate]
  rfl

end Conduit.HandleTable
