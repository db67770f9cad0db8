import Conduit.Proofs.Hub.Accounts

namespace Conduit

namespace Counters

variable {k k' : Kind}

def shareOf (c : Counters) : Kind → List Nat
  | .cipher => [c.ciphersOpened, c.ciphersFreed, c.bytesCiphered]
  | .digest => [c.digestsOpened, c.digestsFreed, c.bytesHashed, c.digestsEmitted]
  | .compressor =>
    [c.compressorsOpened, c.compressorsFreed, c.compressIn, c.compressOut, c.decompressIn,
      c.decompressOut, c.faults]

theorem shareOf_opened (c : Counters) (hk : k' ≠ k) : (c.opened k).shareOf k' = c.shareOf k' := by
  cases k <;> cases k' <;> first | rfl | exact absurd rfl hk

theorem shareOf_freed (c : Counters) (hk : k' ≠ k) : (c.freed k).shareOf k' = c.shareOf k' := by
  cases k <;> cases k' <;> first | rfl | exact absurd rfl hk

end Counters

def Demand.kind : Demand → Kind
  | .start k _ => k
  | .ask k _ _ => k
  | .free k _ => k

namespace Hub

variable {backends : Backends} {calls : List Call} {h : Hub} {k k' : Kind} {handle : Handle}

/-- Whether a session of this kind was started behind this handle and not freed since. -/
def Holds (backends : Backends) (calls : List Call) (k : Kind) (handle : Handle) : Prop :=
  ∃ before init during session, calls = before ++ init :: during ∧
    init.demand backends = .start k (.ok session) ∧
      ((run backends before).call init).1 = .ok (.handle handle) ∧
        ∀ c ∈ during, c.demand backends ≠ .free k handle

theorem get?_eq_none_of_not_holds (hn : ¬ Holds backends calls k handle) :
    ((run backends calls).table k).get? handle = none := by
  by_contra hlive
  obtain ⟨s, hs⟩ := Option.ne_none_iff_exists'.mp hlive
  exact hn (exists_start_of_get? hs)

theorem shareOf_charge (c : Counters) (s : SessionOf k) (r : Request k) (hk : k' ≠ k) :
    (charge c s r).shareOf k' = c.shareOf k' := by
  cases r with
  | transform data size =>
    by_cases hd : data.length = size
    · cases k' <;> simp [charge, hd, Counters.ciphered, Counters.shareOf] at hk ⊢
    · simp [charge, hd]
  | process input room =>
    rw [charge]
    cases (Session.process s input room).1 with
    | ok step => cases (Session.profile s).mode <;> cases k' <;> first | rfl | exact absurd rfl hk
    | error error => cases error <;> cases k' <;> first | rfl | exact absurd rfl hk
  | _ => cases k' <;> first | rfl | exact absurd rfl hk

theorem meet_apart (h : Hub) (d : Demand) (hk : k ≠ d.kind) :
    (h.meet d).2.table k = h.table k ∧
      (h.meet d).2.counters.shareOf k = h.counters.shareOf k := by
  cases h.outcome d with
  | unchanged heq =>
    rw [heq]
    exact ⟨rfl, rfl⟩
  | started k' session =>
    refine ⟨table_put_of_ne hk _, ?_⟩
    rw [meet, counters_put]
    exact Counters.shareOf_opened h.counters hk
  | served r hs =>
    rw [meet_ask_of_some hs, counters_put]
    exact ⟨table_put_of_ne hk _, shareOf_charge h.counters _ r hk⟩
  | freed hs =>
    rw [meet_free_of_some hs, counters_put]
    exact ⟨table_put_of_ne hk _, Counters.shareOf_freed h.counters hk⟩

/-- How far the kinds of sessions are kept apart in a hub that these calls were made to.

A handle resolves for a kind only if a session of that kind was started behind it and not freed
since, whatever other kinds have given it out. Everything else that is asked of it for that kind
fails, and to free it does nothing. Even where it does resolve, the other kinds keep their sessions
and counts. And it does resolve for every kind that holds it, as long as the slots have handles of
their own. -/
structure KindsApart (backends : Backends) (calls : List Call) : Prop where
  held : ∀ k handle, ((run backends calls).table k).get? handle ≠ none →
    Holds backends calls k handle
  refused : ∀ k handle, ¬ Holds backends calls k handle →
    ∀ c r, c.demand backends = .ask k handle r →
      (run backends calls).call c = (.error (.useAfterFree handle.raw), run backends calls)
  ignored : ∀ k handle, ¬ Holds backends calls k handle →
    ∀ c, c.demand backends = .free k handle →
      (run backends calls).call c = (.ok .done, run backends calls)
  apart : ∀ c k, k ≠ (c.demand backends).kind →
    ((run backends calls).call c).2.table k = (run backends calls).table k ∧
      ((run backends calls).call c).2.counters.shareOf k =
        (run backends calls).counters.shareOf k
  crossed : ∀ k handle, ((run backends calls).table k).slots.size < 2 ^ 32 →
    Holds backends calls k handle → ((run backends calls).table k).get? handle ≠ none

theorem kinds_apart (backends : Backends) (calls : List Call) : KindsApart backends calls where
  held k handle hlive := by
    by_contra hn
    exact hlive (get?_eq_none_of_not_holds hn)
  refused k handle hn c r hc := by
    rw [call_eq_meet, backends_run, hc]
    exact meet_ask_of_none (get?_eq_none_of_not_holds hn)
  ignored k handle hn c hc := by
    rw [call_eq_meet, backends_run, hc]
    exact meet_free_of_none (get?_eq_none_of_not_holds hn)
  apart c k hk := by
    rw [call_eq_meet, backends_run]
    exact meet_apart _ _ hk
  crossed := by
    rintro k handle hsize ⟨before, init, during, session, rfl, hstart, hanswer, hfree⟩
    rw [(alone_of_start hsize hstart hanswer hfree).2]
    exact Option.some_ne_none _

/-- A compressor and a hasher are started behind one handle, and bytes for the one go to the
other. -/
theorem handle_crosses_kinds :
    ((run (.all .portable) []).call (.compressorInit .compress 6 true)).1 = .ok (.handle ⟨1⟩) ∧
      ((run (.all .portable) [.compressorInit .compress 6 true, .hasherInit]).call
        (.hasherUpdate ⟨1⟩ [97])).1 = .ok .done ∧
      ((run (.all .portable) [.compressorInit .compress 6 true, .hasherInit]).call
        (.hasherUpdate ⟨1⟩ [97])).2.counters.bytesHashed = 1 :=
  ⟨rfl, rfl, rfl⟩

end Hub

end Conduit
