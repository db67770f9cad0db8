import Conduit.Proofs.Handle.Reusing
import Conduit.Proofs.Hub.Demands
import Mathlib.Data.List.Induction

namespace Conduit.Hub

variable {backends : Backends} {h : Hub} {k : Kind} {handle : Handle} {s : SessionOf k} {d : Demand}
  {i n : Nat} {generation : UInt32} {calls : List Call}

def run (backends : Backends) (calls : List Call) : Hub :=
  (replies call (start backends) calls).2

abbrev Happening : Type 1 :=
  Event Hub Call (Except Error Reply)

/-- What was asked of this session. -/
def requestsOn (backends : Backends) (k : Kind) (handle : Handle) (calls : List Call) :
    List (Request k) :=
  calls.filterMap fun c => (c.demand backends).requestOn? k handle

def answersOn (k : Kind) (handle : Handle) (events : List Happening) : List (Except Error Reply) :=
  (events.filter fun e => ((e.act.demand e.state.backends).requestOn? k handle).isSome).map
    Event.answer

def freesOf (backends : Backends) (k : Kind) (calls : List Call) : Nat :=
  calls.countP fun c => (c.demand backends).frees k

theorem backends_meet (h : Hub) (d : Demand) : (h.meet d).2.backends = h.backends := by
  cases h.outcome d with
  | unchanged heq => rw [heq]
  | started k session => exact backends_put _
  | served r hs =>
    rw [meet_ask_of_some hs]
    exact backends_put _
  | freed hs =>
    rw [meet_free_of_some hs]
    exact backends_put _

/-- A demand is an act on one table at most, and removes something only to free it. -/
theorem table_meet (h : Hub) (d : Demand) (k : Kind) :
    (h.meet d).2.table k = h.table k ∨
      ∃ a, (h.meet d).2.table k = ((h.table k).act a).2 ∧
        ∀ i, HandleTable.vacations i [⟨h.table k, a, ((h.table k).act a).1⟩] ≤
          (d.frees k).toNat := by
  cases h.outcome d with
  | unchanged heq => exact Or.inl (by rw [heq])
  | started k' session =>
    by_cases hk : k = k'
    · subst hk
      exact Or.inr ⟨.insert session, table_put_self _, fun i => Nat.le_refl 0⟩
    · exact Or.inl (table_put_of_ne hk _)
  | @served k' handle s r hs =>
    rw [meet_ask_of_some hs]
    by_cases hk : k = k'
    · subst hk
      refine Or.inr ⟨.update handle fun s => (serve s r).2, ?_, fun i => Nat.le_refl 0⟩
      rw [table_put_self, HandleTable.update_eq_of_some hs
        (g := fun s => (s, (serve s r).2)) rfl]
      rfl
    · exact Or.inl (table_put_of_ne hk _)
  | @freed k' handle s hs =>
    rw [meet_free_of_some hs]
    by_cases hk : k = k'
    · subst hk
      refine Or.inr ⟨.remove handle, table_put_self _, fun i => ?_⟩
      rw [Demand.frees, decide_eq_true rfl]
      exact List.countP_le_length
    · exact Or.inl (table_put_of_ne hk _)

theorem sound_meet (hsound : (h.table k).Sound) (d : Demand) : ((h.meet d).2.table k).Sound := by
  obtain heq | ⟨a, heq, -⟩ := table_meet h d k
  · rw [heq]
    exact hsound
  · rw [heq]
    exact hsound.act a

theorem size_le_meet (hsound : (h.table k).Sound) (d : Demand) :
    (h.table k).slots.size ≤ ((h.meet d).2.table k).slots.size := by
  obtain heq | ⟨a, heq, -⟩ := table_meet h d k
  · rw [heq]
  · rw [heq]
    exact hsound.size_le_act a

theorem aged_meet (ha : (h.table k).Aged i generation n) (hsound : (h.table k).Sound) (d : Demand) :
    ∃ m, n ≤ m ∧ m ≤ n + (d.frees k).toNat ∧
      ((h.meet d).2.table k).Aged i generation m := by
  obtain heq | ⟨a, heq, hle⟩ := table_meet h d k
  · exact ⟨n, Nat.le_refl n, Nat.le_add_right _ _, heq ▸ ha⟩
  · exact ⟨_, Nat.le_add_right _ _, Nat.add_le_add_left (hle i) n, heq ▸ ha.act hsound a⟩

theorem meet_ask (hs : (h.table k).get? handle = some s) (r : Request k) :
    (h.meet (.ask k handle r)).1 = (serve s r).1 ∧
      ((h.meet (.ask k handle r)).2.table k).get? handle = some (serve s r).2 := by
  rw [meet_ask_of_some hs, table_put_self, HandleTable.get?_update, if_pos rfl, hs]
  exact ⟨rfl, rfl⟩

theorem get?_meet_of_some (hsound : (h.table k).Sound) (hs : (h.table k).get? handle = some s)
    (hask : d.requestOn? k handle = none) (hfree : d ≠ .free k handle) :
    ((h.meet d).2.table k).get? handle = some s := by
  cases h.outcome d with
  | unchanged heq => rw [heq, hs]
  | started k' session =>
    rw [meet]
    by_cases hk : k = k'
    · subst hk
      rw [table_put_self]
      exact hsound.get?_insert_of_some hs session
    · rw [table_put_of_ne hk, hs]
  | @served k' handle' s' r hs' =>
    rw [meet_ask_of_some hs']
    by_cases hk : k = k'
    · subst hk
      rw [table_put_self, HandleTable.get?_update, if_neg, hs]
      rintro rfl
      rw [Demand.requestOn?_eq_some.mpr rfl] at hask
      cases hask
    · rw [table_put_of_ne hk, hs]
  | @freed k' handle' s' hs' =>
    rw [meet_free_of_some hs']
    by_cases hk : k = k'
    · subst hk
      rw [table_put_self, HandleTable.get?_remove, if_neg, hs]
      rintro rfl
      exact hfree rfl
    · rw [table_put_of_ne hk, hs]

theorem exists_of_get?_meet (hsound : (h.table k).Sound)
    (hs : ((h.meet d).2.table k).get? handle = some s) :
    (d ≠ .free k handle ∧ ∃ s', (h.table k).get? handle = some s') ∨
      ∃ session, d = .start k (.ok session) ∧ (h.meet d).1 = .ok (.handle handle) := by
  cases h.outcome d with
  | unchanged heq hfree =>
    rw [heq] at hs
    refine Or.inl ⟨fun hd => ?_, s, hs⟩
    rw [hfree k handle hd] at hs
    cases hs
  | started k' session =>
    rw [meet] at hs ⊢
    by_cases hk : k = k'
    · subst hk
      rw [table_put_self] at hs
      obtain hold | hnew := hsound.of_get?_insert hs
      · exact Or.inl ⟨by rintro ⟨⟩, s, hold⟩
      · exact Or.inr ⟨session, rfl, by rw [hnew]⟩
    · rw [table_put_of_ne hk] at hs
      exact Or.inl ⟨by rintro ⟨⟩, s, hs⟩
  | @served k' handle' s' r hs' =>
    refine Or.inl ⟨by rintro ⟨⟩, ?_⟩
    rw [meet_ask_of_some hs'] at hs
    by_cases hk : k = k'
    · subst hk
      rw [table_put_self, HandleTable.get?_update] at hs
      by_cases heq : handle = handle'
      · exact ⟨s', heq ▸ hs'⟩
      · rw [if_neg heq] at hs
        exact ⟨s, hs⟩
    · rw [table_put_of_ne hk] at hs
      exact ⟨s, hs⟩
  | @freed k' handle' s' hs' =>
    rw [meet_free_of_some hs'] at hs
    by_cases hk : k = k'
    · subst hk
      rw [table_put_self, HandleTable.get?_remove] at hs
      by_cases heq : handle = handle'
      · rw [if_pos heq] at hs
        cases hs
      · rw [if_neg heq] at hs
        refine Or.inl ⟨?_, s, hs⟩
        rintro ⟨⟩
        exact heq rfl
    · rw [table_put_of_ne hk] at hs
      refine Or.inl ⟨?_, s, hs⟩
      rintro ⟨⟩
      exact hk rfl

theorem backends_call (h : Hub) (c : Call) : (h.call c).2.backends = h.backends := by
  rw [call_eq_meet, backends_meet]

theorem sound_call (hsound : (h.table k).Sound) (c : Call) : ((h.call c).2.table k).Sound := by
  rw [call_eq_meet]
  exact sound_meet hsound _

theorem backends_replies (h : Hub) (calls : List Call) :
    (replies call h calls).2.backends = h.backends := by
  induction calls generalizing h with
  | nil => rfl
  | cons c calls ih => exact (ih _).trans (backends_call h c)

theorem backends_run (backends : Backends) (calls : List Call) :
    (run backends calls).backends = backends :=
  backends_replies _ calls

theorem sound_replies (hsound : (h.table k).Sound) (calls : List Call) :
    ((replies call h calls).2.table k).Sound := by
  induction calls generalizing h with
  | nil => exact hsound
  | cons c calls ih => exact ih (sound_call hsound c)

theorem sound_start (backends : Backends) (k : Kind) : ((start backends).table k).Sound := by
  cases k <;> exact HandleTable.sound_empty

theorem sound_run (backends : Backends) (calls : List Call) (k : Kind) :
    ((run backends calls).table k).Sound :=
  sound_replies (sound_start backends k) calls

theorem size_le_replies (hsound : (h.table k).Sound) (calls : List Call) :
    (h.table k).slots.size ≤ ((replies call h calls).2.table k).slots.size := by
  induction calls generalizing h with
  | nil => exact Nat.le_refl _
  | cons c calls ih =>
    have hle := size_le_meet hsound (c.demand h.backends)
    rw [← call_eq_meet] at hle
    exact Nat.le_trans hle (ih (sound_call hsound c))

/-- The requests of a session are answered as if it stood alone, and it is left as it would be. -/
theorem alone_of_get? (hsound : (h.table k).Sound) (hs : (h.table k).get? handle = some s)
    (hfree : ∀ c ∈ calls, c.demand h.backends ≠ .free k handle) :
    answersOn k handle (trace call h calls) =
        (replies serve s (requestsOn h.backends k handle calls)).1 ∧
      ((replies call h calls).2.table k).get? handle =
        some (replies serve s (requestsOn h.backends k handle calls)).2 := by
  induction calls generalizing h s with
  | nil => exact ⟨rfl, hs⟩
  | cons c calls ih =>
    obtain ⟨hc, hrest⟩ := List.forall_mem_cons.mp hfree
    have hnext := sound_call hsound c
    rw [← backends_call h c] at hrest
    rw [requestsOn, List.filterMap_cons, answersOn, trace, List.filter_cons, replies_cons]
    cases hask : (c.demand h.backends).requestOn? k handle with
    | none =>
      have hs' := get?_meet_of_some hsound hs hask hc
      rw [← call_eq_meet] at hs'
      have hih := ih hnext hs' hrest
      rw [backends_call] at hih
      exact hih
    | some r =>
      obtain ⟨hanswer, hs'⟩ := meet_ask hs r
      rw [← Demand.requestOn?_eq_some.mp hask, ← call_eq_meet] at hanswer hs'
      obtain ⟨hanswers, hlast⟩ := ih hnext hs' hrest
      rw [backends_call] at hanswers hlast
      exact ⟨congrArg₂ List.cons hanswer hanswers, hlast⟩

theorem aged_replies (ha : (h.table k).Aged i generation n) (hsound : (h.table k).Sound)
    (calls : List Call) :
    ∃ m, n ≤ m ∧ m ≤ n + freesOf h.backends k calls ∧
      ((replies call h calls).2.table k).Aged i generation m := by
  induction calls generalizing h n with
  | nil => exact ⟨n, Nat.le_refl n, Nat.le_refl n, ha⟩
  | cons c calls ih =>
    obtain ⟨m, hle, hlt, hm⟩ := aged_meet ha hsound (c.demand h.backends)
    rw [← call_eq_meet] at hm
    obtain ⟨m', hle', hlt', hm'⟩ := ih hm (sound_call hsound c)
    refine ⟨m', Nat.le_trans hle hle', ?_, hm'⟩
    rw [backends_call] at hlt'
    rw [freesOf, List.countP_cons, ← freesOf]
    cases hfrees : (c.demand h.backends).frees k with
    | false =>
      rw [hfrees] at hlt
      exact Nat.le_trans hlt' (Nat.add_le_add_right hlt _)
    | true =>
      rw [hfrees, Bool.toNat_true] at hlt
      rw [if_pos rfl]
      omega

theorem run_append (backends : Backends) (calls more : List Call) :
    run backends (calls ++ more) = (replies call (run backends calls) more).2 := by
  rw [run, replies_append]
  rfl

theorem run_concat (backends : Backends) (calls : List Call) (c : Call) :
    run backends (calls ++ [c]) = ((run backends calls).meet (c.demand backends)).2 := by
  rw [run_append, replies_cons, call_eq_meet, backends_run]
  rfl

theorem size_run_le (backends : Backends) (k : Kind) (calls more : List Call) :
    ((run backends calls).table k).slots.size ≤
      ((run backends (calls ++ more)).table k).slots.size := by
  rw [run_append]
  exact size_le_replies (sound_run backends calls k) more

theorem get?_meet_start (hsound : (h.table k).Sound) (session : SessionOf k)
    (hsize : ((h.meet (.start k (.ok session))).2.table k).slots.size < 2 ^ 32) :
    ∃ handle, (h.meet (.start k (.ok session))).1 = .ok (.handle handle) ∧
      handle.isNull = false ∧ (h.table k).get? handle = none ∧
        ((h.meet (.start k (.ok session))).2.table k).get? handle = some session := by
  rw [meet, table_put_self] at hsize
  obtain ⟨hnull, hnone, hget⟩ := hsound.get?_insert hsize
  refine ⟨_, rfl, hnull, hnone, ?_⟩
  rw [meet, table_put_self, hget, if_pos rfl]

theorem exists_start_of_get? (hs : ((run backends calls).table k).get? handle = some s) :
    ∃ before init during session, calls = before ++ init :: during ∧
      init.demand backends = .start k (.ok session) ∧
        ((run backends before).call init).1 = .ok (.handle handle) ∧
          ∀ c ∈ during, c.demand backends ≠ .free k handle := by
  -- from the last call back: either it left the session where it was, or it started it
  induction calls using List.reverseRecOn generalizing s with
  | nil =>
    cases k <;> simp [run, replies, start, table, HandleTable.get?_eq_some_iff, HandleTable.empty]
      at hs
  | append_singleton calls c ih =>
    rw [run_concat] at hs
    obtain ⟨hne, s', hs'⟩ | ⟨session, hstart, hanswer⟩ :=
      exists_of_get?_meet (sound_run backends calls k) hs
    · obtain ⟨before, init, during, session, rfl, hstart, hanswer, hfree⟩ := ih hs'
      refine ⟨before, init, during ++ [c], session, ?_, hstart, hanswer, fun c' hc' => ?_⟩
      · rw [List.append_assoc, List.cons_append]
      · obtain hold | hnew := List.mem_append.mp hc'
        · exact hfree c' hold
        · rw [List.mem_singleton.mp hnew]
          exact hne
    · refine ⟨calls, c, [], session, rfl, hstart, ?_, List.forall_mem_nil _⟩
      rw [call_eq_meet, backends_run]
      exact hanswer

/-- What is seen of the sessions of a hub that these calls were made to.

A session that can be started is started behind a new handle. From then on until it is freed, the
requests made of it are answered as those of a session that stands alone, whatever comes between.
The handles of sessions that were started and not freed are the live ones, and one whose session was
freed does not come to life again. With another handle a request fails and a free does nothing, and
where a session cannot be started there is none. -/
structure SessionsIsolated (backends : Backends) (calls : List Call) : Prop where
  started : ∀ before init during, calls = before ++ init :: during →
    ∀ k session, init.demand backends = .start k (.ok session) →
      ∃ handle, ((run backends before).call init).1 = .ok (.handle handle) ∧
        handle.isNull = false ∧ ((run backends before).table k).get? handle = none
  alone : ∀ before init during, calls = before ++ init :: during →
    ∀ k session handle, init.demand backends = .start k (.ok session) →
      ((run backends before).call init).1 = .ok (.handle handle) →
        (∀ c ∈ during, c.demand backends ≠ .free k handle) →
          answersOn k handle (trace call ((run backends before).call init).2 during) =
              (replies serve session (requestsOn backends k handle during)).1 ∧
            ((run backends calls).table k).get? handle =
              some (replies serve session (requestsOn backends k handle during)).2
  live_iff : ∀ k handle, ((run backends calls).table k).get? handle ≠ none ↔
    ∃ before init during session, calls = before ++ init :: during ∧
      init.demand backends = .start k (.ok session) ∧
        ((run backends before).call init).1 = .ok (.handle handle) ∧
          ∀ c ∈ during, c.demand backends ≠ .free k handle
  freed : ∀ before c after, calls = before ++ c :: after →
    ∀ k handle, c.demand backends = .free k handle →
      ((run backends before).table k).get? handle ≠ none →
        ((run backends calls).table k).get? handle = none
  refused : ∀ k handle, ((run backends calls).table k).get? handle = none →
    ∀ c r, c.demand backends = .ask k handle r →
      (run backends calls).call c = (.error (.useAfterFree handle.raw), run backends calls)
  ignored : ∀ k handle, ((run backends calls).table k).get? handle = none →
    ∀ c, c.demand backends = .free k handle →
      (run backends calls).call c = (.ok .done, run backends calls)
  failed : ∀ k error c, c.demand backends = .start k (.error error) →
    (run backends calls).call c = (.error error, run backends calls)

theorem get?_call_start {before during : List Call} {init : Call}
    (hsize : ((run backends (before ++ init :: during)).table k).slots.size < 2 ^ 32)
    (hstart : init.demand backends = .start k (.ok s)) :
    ∃ handle, ((run backends before).call init).1 = .ok (.handle handle) ∧
      handle.isNull = false ∧ ((run backends before).table k).get? handle = none ∧
        (((run backends before).call init).2.table k).get? handle = some s := by
  have hle := size_run_le backends k (before ++ [init]) during
  rw [run_concat, hstart, List.append_assoc, List.singleton_append] at hle
  rw [call_eq_meet, backends_run, hstart]
  exact get?_meet_start (sound_run backends before k) s (Nat.lt_of_le_of_lt hle hsize)

theorem alone_of_start {before during : List Call} {init : Call}
    (hsize : ((run backends (before ++ init :: during)).table k).slots.size < 2 ^ 32)
    (hstart : init.demand backends = .start k (.ok s))
    (hanswer : ((run backends before).call init).1 = .ok (.handle handle))
    (hfree : ∀ c ∈ during, c.demand backends ≠ .free k handle) :
    answersOn k handle (trace call ((run backends before).call init).2 during) =
        (replies serve s (requestsOn backends k handle during)).1 ∧
      ((run backends (before ++ init :: during)).table k).get? handle =
        some (replies serve s (requestsOn backends k handle during)).2 := by
  obtain ⟨handle', hanswer', -, -, hs⟩ := get?_call_start hsize hstart
  rw [hanswer'] at hanswer
  cases hanswer
  have hbackends := backends_call (run backends before) init
  rw [backends_run] at hbackends
  rw [← hbackends] at hfree
  have halone := alone_of_get? (sound_call (sound_run backends before k) init) hs hfree
  rw [hbackends] at halone
  rw [run_append]
  exact halone

/-- After it was freed, a handle stands for nothing until its slot has gone through all
generations. -/
theorem get?_replies_of_freed (hsound : (h.table k).Sound)
    (hs : (h.table k).get? handle = some s) {c : Call}
    (hc : c.demand h.backends = .free k handle)
    (hfrees : freesOf h.backends k (c :: calls) < 2 ^ 32) :
    ((replies call h (c :: calls)).2.table k).get? handle = none := by
  obtain ⟨i, hi, hslot, hremove⟩ := HandleTable.remove_of_some hs
  have haged : ((h.call c).2.table k).Aged i handle.generation 1 := by
    rw [call_eq_meet, hc, meet_free_of_some hs, table_put_self, hremove]
    exact ⟨_, (HandleTable.getElem?_set hslot _ i).trans (if_pos rfl), rfl, by rintro ⟨⟩⟩
  obtain ⟨m, hpos, hle, hm⟩ := aged_replies haged (sound_call hsound c) calls
  refine hm.get?_eq_none hi hpos (Nat.lt_of_le_of_lt hle ?_)
  rw [backends_call, Nat.add_comm]
  rw [freesOf, List.countP_cons, hc, Demand.frees, decide_eq_true rfl, if_pos rfl] at hfrees
  exact hfrees

/-- As long as slots have handles of their own and have not gone through all generations, sessions
do not get in each other's way. -/
theorem sessions_isolated (backends : Backends) (calls : List Call)
    (hsize : ∀ k, ((run backends calls).table k).slots.size < 2 ^ 32)
    (hfrees : ∀ k, freesOf backends k calls < 2 ^ 32) : SessionsIsolated backends calls where
  started := by
    rintro before init during rfl k session hstart
    obtain ⟨handle, hanswer, hnull, hnone, -⟩ := get?_call_start (hsize k) hstart
    exact ⟨handle, hanswer, hnull, hnone⟩
  alone := by
    rintro before init during rfl k session handle hstart hanswer hfree
    exact alone_of_start (hsize k) hstart hanswer hfree
  live_iff k handle := by
    constructor
    · intro hlive
      obtain ⟨s, hs⟩ := Option.ne_none_iff_exists'.mp hlive
      exact exists_start_of_get? hs
    · rintro ⟨before, init, during, session, rfl, hstart, hanswer, hfree⟩
      rw [(alone_of_start (hsize k) hstart hanswer hfree).2]
      exact Option.some_ne_none _
  freed := by
    rintro before c after rfl k handle hc hlive
    obtain ⟨s, hs⟩ := Option.ne_none_iff_exists'.mp hlive
    have hlt := hfrees k
    rw [freesOf, List.countP_append] at hlt
    rw [run_append]
    refine get?_replies_of_freed (sound_run backends before k) hs ?_ ?_
    · rw [backends_run]
      exact hc
    · rw [backends_run]
      exact Nat.lt_of_le_of_lt (Nat.le_add_left _ _) hlt
  refused k handle hnone c r hc := by
    rw [call_eq_meet, backends_run, hc]
    exact meet_ask_of_none hnone
  ignored k handle hnone c hc := by
    rw [call_eq_meet, backends_run, hc]
    exact meet_free_of_none hnone
  failed k error c hc := by
    rw [call_eq_meet, backends_run, hc]
    rfl

/-- Two sessions of two kinds, of which one is freed twice, and its slot is used again. -/
theorem sessions_isolated_after_reuse :
    SessionsIsolated (.all .portable) [.hasherInit, .compressorInit .compress 6 true,
      .hasherUpdate ⟨1⟩ [97], .hasherFree ⟨1⟩, .hasherInit, .hasherUpdate ⟨1⟩ [98], .hasherFree ⟨1⟩,
      .hasherDigest ⟨0x100000001⟩, .compressorReset ⟨1⟩] := by
  apply sessions_isolated
  · intro k
    cases k <;> decide
  · intro k
    cases k <;> decide

end Conduit.Hub
