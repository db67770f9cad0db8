import Conduit.Proofs.Compression.Poisoning
import Conduit.Proofs.Handle.Counts
import Conduit.Proofs.Hub.Isolation

namespace Conduit

namespace Counters

theorem empty_merge (c : Counters) : merge {} c = c := by
  simp [merge]

theorem merge_assoc (c d e : Counters) : (c.merge d).merge e = c.merge (d.merge e) := by
  simp only [merge, Nat.add_assoc]

theorem merge_empty (c : Counters) : c.merge {} = c :=
  rfl

theorem merge_opened (c : Counters) (k : Kind) : c.merge (opened {} k) = c.opened k := by
  cases k <;> rfl

theorem merge_freed (c : Counters) (k : Kind) : c.merge (freed {} k) = c.freed k := by
  cases k <;> rfl

theorem openedOf_opened (c : Counters) (k k' : Kind) :
    (c.opened k).openedOf k' = c.openedOf k' + (if k' = k then 1 else 0) := by
  cases k <;> cases k' <;> rfl

theorem freedOf_opened (c : Counters) (k k' : Kind) :
    (c.opened k).freedOf k' = c.freedOf k' := by
  cases k <;> cases k' <;> rfl

theorem faults_opened (c : Counters) (k : Kind) : (c.opened k).faults = c.faults := by
  cases k <;> rfl

theorem openedOf_freed (c : Counters) (k k' : Kind) :
    (c.freed k).openedOf k' = c.openedOf k' := by
  cases k <;> cases k' <;> rfl

theorem freedOf_freed (c : Counters) (k k' : Kind) :
    (c.freed k).freedOf k' = c.freedOf k' + (if k' = k then 1 else 0) := by
  cases k <;> cases k' <;> rfl

theorem faults_freed (c : Counters) (k : Kind) : (c.freed k).faults = c.faults := by
  cases k <;> rfl

end Counters

namespace Hub

variable {backends : Backends} {h : Hub} {k : Kind} {handle : Handle} {calls : List Call}

def modeOf? (h : Hub) (handle : Handle) : Option Mode :=
  (h.compressors.get? handle).map fun s => s.profile.mode

/-- What a call contributes to the counters, by what was asked and what was answered. -/
def Happening.account (e : Happening) : Counters :=
  match e.act, e.answer with
  | .cipherInit .., .ok _ => { ciphersOpened := 1 }
  | .cipherProcess _ data _, .ok _ => { bytesCiphered := data.length }
  | .cipherProcessInPlace _ data, .ok _ => { bytesCiphered := data.length }
  | .cipherFree handle, .ok _ =>
    if (e.state.table .cipher).contains handle then { ciphersFreed := 1 } else {}
  | .hasherInit, .ok _ => { digestsOpened := 1 }
  | .hasherUpdate _ data, .ok _ => { bytesHashed := data.length }
  | .hasherDigest _, .ok _ => { digestsEmitted := 1 }
  | .hasherFree handle, .ok _ =>
    if (e.state.table .digest).contains handle then { digestsFreed := 1 } else {}
  | .compressorInit .., .ok _ => { compressorsOpened := 1 }
  | .compressorProcess handle _ _, .ok (.step step) =>
    match e.state.modeOf? handle with
    | some .compress => { compressIn := step.consumed, compressOut := step.produced }
    | some .decompress => { decompressIn := step.consumed, decompressOut := step.produced }
    | none => {}
  | .compressorProcess .., .error (.fault _) => { faults := 1 }
  | .compressorFree handle, .ok _ =>
    if (e.state.table .compressor).contains handle then { compressorsFreed := 1 } else {}
  | _, _ => {}

def accounts (events : List Happening) : Counters :=
  events.foldr (fun e c => e.account.merge c) {}

theorem modeOf?_of_get? {s : Session} (hs : (h.table .compressor).get? handle = some s) :
    h.modeOf? handle = some s.profile.mode :=
  congrArg (Option.map _) hs

theorem account_error (h : Hub) (c : Call) (error : Error) :
    Happening.account ⟨h, c, .error error⟩ = {} ∨
      (∃ handle input room, c = .compressorProcess handle input room) ∧
        Happening.account ⟨h, c, .error error⟩ = { faults := 1 } := by
  cases c with
  | compressorProcess handle input room =>
    cases error with
    | fault f => exact Or.inr ⟨⟨handle, input, room, rfl⟩, rfl⟩
    | _ => exact Or.inl rfl
  | _ => exact Or.inl rfl

theorem account_useAfterFree (h : Hub) (c : Call) (raw : UInt64) :
    Happening.account ⟨h, c, .error (.useAfterFree raw)⟩ = {} := by
  cases c <;> rfl

theorem counters_start {c : Call} {session : Except Error (SessionOf k)}
    (hd : c.demand h.backends = .start k session)
    (hok : ∀ handle, Happening.account ⟨h, c, .ok (.handle handle)⟩ = Counters.opened {} k) :
    (h.call c).2.counters = h.counters.merge (Happening.account ⟨h, c, (h.call c).1⟩) := by
  rw [call_eq_meet, hd]
  cases session with
  | error error =>
    obtain hnone | ⟨⟨handle, input, room, rfl⟩, -⟩ := account_error h c error
    · exact congrArg h.counters.merge hnone.symm
    · cases hd
  | ok session =>
    rw [meet, counters_put, hok, Counters.merge_opened]

theorem counters_ask {c : Call} {r : Request k} (hd : c.demand h.backends = .ask k handle r)
    (hsome : ∀ s, (h.table k).get? handle = some s →
      charge h.counters s r = h.counters.merge (Happening.account ⟨h, c, (serve s r).1⟩)) :
    (h.call c).2.counters = h.counters.merge (Happening.account ⟨h, c, (h.call c).1⟩) := by
  rw [call_eq_meet, hd]
  cases hs : (h.table k).get? handle with
  | none => rw [meet_ask_of_none hs, account_useAfterFree, Counters.merge_empty]
  | some s => rw [meet_ask_of_some hs, counters_put, hsome s hs]

theorem counters_free {c : Call} (hd : c.demand h.backends = .free k handle)
    (hok : Happening.account ⟨h, c, .ok .done⟩ =
      if (h.table k).contains handle then Counters.freed {} k else {}) :
    (h.call c).2.counters = h.counters.merge (Happening.account ⟨h, c, (h.call c).1⟩) := by
  rw [call_eq_meet, hd]
  cases hs : (h.table k).get? handle with
  | none =>
    rw [meet_free_of_none hs, hok, HandleTable.contains_of_none hs]
    rfl
  | some s =>
    rw [meet_free_of_some hs, hok, HandleTable.contains, hs, counters_put]
    exact (Counters.merge_freed h.counters k).symm

theorem charge_transform (c : Counters) (s : CipherSession) (data : List UInt8) (size : Nat)
    (handle : Handle) :
    charge c (k := .cipher) s (.transform data size) = c.merge
      (Happening.account ⟨h, .cipherProcess handle data size,
        (serve (k := .cipher) s (.transform data size)).1⟩) := by
  by_cases hd : data.length = size
  · simp [Happening.account, charge, serve, CipherSession.process?, hd, Counters.merge,
      Counters.ciphered]
  · simp [Happening.account, charge, serve, CipherSession.process?, hd, Counters.merge]

theorem charge_process {s : Session} (hs : (h.table .compressor).get? handle = some s)
    (c : Counters) (input : List UInt8) (room : Nat) :
    charge c (k := .compressor) s (.process input room) = c.merge
      (Happening.account ⟨h, .compressorProcess handle input room,
        (serve (k := .compressor) s (.process input room)).1⟩) := by
  have hmode := modeOf?_of_get? hs
  rw [charge, serve]
  dsimp only
  cases (s.process input room).1 with
  | error error => cases error <;> rfl
  | ok step =>
    rw [countStep, Except.map, Happening.account]
    dsimp only
    rw [hmode]
    cases s.profile.mode <;> rfl

theorem counters_call (h : Hub) (c : Call) :
    (h.call c).2.counters = h.counters.merge (Happening.account ⟨h, c, (h.call c).1⟩) := by
  cases c with
  | cipherInit direction key iv => exact counters_start rfl fun handle => rfl
  | cipherProcess handle data size =>
    exact counters_ask rfl fun s hs => charge_transform h.counters s data size handle
  | cipherProcessInPlace handle data => exact counters_ask rfl fun s hs => rfl
  | cipherFree handle => exact counters_free rfl rfl
  | hasherInit => exact counters_start rfl fun handle => rfl
  | hasherUpdate handle data => exact counters_ask rfl fun s hs => rfl
  | hasherDigest handle => exact counters_ask rfl fun s hs => rfl
  | hasherFree handle => exact counters_free rfl rfl
  | compressorInit mode level raw => exact counters_start rfl fun handle => rfl
  | compressorProcess handle input room =>
    exact counters_ask rfl fun s hs => charge_process hs h.counters input room
  | compressorReset handle => exact counters_ask rfl fun s hs => rfl
  | compressorUse handle use => exact counters_ask rfl fun s hs => rfl
  | compressorFree handle => exact counters_free rfl rfl

theorem counters_replies (h : Hub) (calls : List Call) :
    (replies call h calls).2.counters = h.counters.merge (accounts (trace call h calls)) := by
  induction calls generalizing h with
  | nil => rfl
  | cons c calls ih =>
    rw [replies_cons]
    dsimp only
    rw [ih, counters_call, Counters.merge_assoc]
    rfl

theorem openedOf_charge (c : Counters) (s : SessionOf k) (r : Request k) (k' : Kind) :
    (charge c s r).openedOf k' = c.openedOf k' ∧ (charge c s r).freedOf k' = c.freedOf k' := by
  cases r with
  | transform data size =>
    rw [charge]
    split <;> cases k' <;> exact ⟨rfl, rfl⟩
  | process input room =>
    rw [charge]
    cases (Session.process s input room).1 with
    | ok step => cases (Session.profile s).mode <;> cases k' <;> exact ⟨rfl, rfl⟩
    | error error => cases error <;> cases k' <;> exact ⟨rfl, rfl⟩
  | _ => cases k' <;> exact ⟨rfl, rfl⟩

theorem serve_of_poisoned {s : Session} (hp : s.poisoned = true) (r : Request .compressor) :
    (serve (k := .compressor) s r).2 = s := by
  cases r with
  | process input room => rw [serve, Session.process_of_poisoned hp]
  | reset => rw [serve, Session.reset_of_poisoned hp]
  | use use => exact Session.use_of_poisoned hp use

theorem charge_of_poisoned {s : Session} (hp : s.poisoned = true) (c : Counters)
    (r : Request .compressor) : charge c (k := .compressor) s r = c := by
  cases r with
  | process input room =>
    rw [charge, Session.process_of_poisoned hp, countStep]
    rintro f ⟨⟩
  | reset => rfl
  | use use => rfl

/-- A fault that is counted poisons the session, which was not poisoned before. -/
theorem faults_charge (c : Counters) (s : Session) (r : Request .compressor) :
    (charge c (k := .compressor) s r).faults + (if s.poisoned then 1 else 0) ≤
      c.faults + (if Session.poisoned (serve (k := .compressor) s r).2 then 1 else 0) := by
  cases hp : s.poisoned with
  | true => rw [charge_of_poisoned hp, serve_of_poisoned hp, hp]
  | false =>
    cases r with
    | process input room =>
      rw [charge, serve]
      obtain ⟨result, s', hanswer⟩ : ∃ result s', s.process input room = (result, s') := ⟨_, _, rfl⟩
      rw [hanswer]
      -- a step counts no fault; an error poisons, whether it is counted or not
      cases result with
      | ok step =>
        refine Nat.le_trans (Nat.le_of_eq ?_) (Nat.le_add_right _ _)
        cases s.profile.mode <;> rfl
      | error error =>
        dsimp only
        rw [Session.poisoned_of_process hanswer, if_pos rfl]
        cases error with
        | fault f => exact Nat.le_refl _
        | _ => exact Nat.le_add_right _ _
    | reset => exact Nat.le_add_right _ _
    | use use => exact Nat.le_add_right _ _

theorem faults_charge_of_ne (hk : k ≠ .compressor) (c : Counters) (s : SessionOf k)
    (r : Request k) : (charge c s r).faults = c.faults := by
  cases r with
  | transform data size =>
    rw [charge]
    split <;> rfl
  | transformInPlace data => rfl
  | update data => rfl
  | digest => rfl
  | _ => exact absurd rfl hk

/-- The counters agree with the tables. What was opened and not freed is there, and each fault was
that of a compressor that is freed by now or poisoned. -/
structure Balanced (h : Hub) : Prop where
  sound : ∀ k, (h.table k).Sound
  opened : ∀ k, h.counters.openedOf k = h.counters.freedOf k + (h.table k).occupied
  faults : h.counters.faults ≤
    h.counters.freedOf .compressor + (h.table .compressor).count Session.poisoned

theorem balanced_start (backends : Backends) : (start backends).Balanced where
  sound := sound_start backends
  opened k := by cases k <;> rfl
  faults := Nat.zero_le _

theorem Balanced.opened_meet (hb : h.Balanced) (d : Demand) (k : Kind) :
    (h.meet d).2.counters.openedOf k =
      (h.meet d).2.counters.freedOf k + ((h.meet d).2.table k).occupied := by
  have hold := hb.opened k
  cases h.outcome d with
  | unchanged heq =>
    rw [heq]
    exact hold
  | started k' session =>
    rw [meet, counters_put, Counters.openedOf_opened, Counters.freedOf_opened, hold]
    by_cases hk : k = k'
    · subst hk
      rw [if_pos rfl, table_put_self, (hb.sound k).occupied_insert, Nat.add_assoc]
    · rw [if_neg hk, table_put_of_ne hk, Nat.add_zero]
  | @served k' handle s r hs =>
    obtain ⟨hopened, hfreed⟩ := openedOf_charge h.counters s r k
    rw [meet_ask_of_some hs, counters_put, hopened, hfreed, hold]
    by_cases hk : k = k'
    · subst hk
      rw [table_put_self, HandleTable.occupied_update hs]
    · rw [table_put_of_ne hk]
  | @freed k' handle s hs =>
    rw [meet_free_of_some hs, counters_put, Counters.openedOf_freed, Counters.freedOf_freed, hold]
    by_cases hk : k = k'
    · subst hk
      rw [if_pos rfl, table_put_self, ← HandleTable.occupied_remove hs]
      omega
    · rw [if_neg hk, table_put_of_ne hk, Nat.add_zero]

theorem Balanced.faults_meet (hb : h.Balanced) (d : Demand) :
    (h.meet d).2.counters.faults ≤ (h.meet d).2.counters.freedOf .compressor +
      ((h.meet d).2.table .compressor).count Session.poisoned := by
  have hold := hb.faults
  cases h.outcome d with
  | unchanged heq =>
    rw [heq]
    exact hold
  | started k session =>
    rw [meet, counters_put, Counters.faults_opened, Counters.freedOf_opened]
    by_cases hk : .compressor = k
    · subst hk
      rw [table_put_self, (hb.sound .compressor).count_insert]
      exact Nat.le_trans hold (Nat.add_le_add_left (Nat.le_add_right _ _) _)
    · rw [table_put_of_ne hk]
      exact hold
  | @served k handle s r hs =>
    rw [meet_ask_of_some hs, counters_put, (openedOf_charge h.counters s r .compressor).2]
    by_cases hk : .compressor = k
    · subst hk
      -- the session is counted as poisoned afterwards if it faults now, and if it was so before
      have hcount := HandleTable.count_update hs Session.poisoned fun s => serve s r
      have hfaults := faults_charge h.counters s r
      rw [table_put_self]
      omega
    · rw [faults_charge_of_ne (Ne.symm hk), table_put_of_ne hk]
      exact hold
  | @freed k handle s hs =>
    rw [meet_free_of_some hs, counters_put, Counters.faults_freed, Counters.freedOf_freed]
    by_cases hk : .compressor = k
    · subst hk
      have hcount := HandleTable.count_remove hs Session.poisoned
      rw [if_pos rfl, table_put_self]
      split at hcount <;> omega
    · rw [if_neg hk, table_put_of_ne hk]
      exact hold

theorem Balanced.meet (hb : h.Balanced) (d : Demand) : (h.meet d).2.Balanced where
  sound k := sound_meet (hb.sound k) d
  opened := hb.opened_meet d
  faults := hb.faults_meet d

theorem Balanced.replies (hb : h.Balanced) (calls : List Call) :
    (Conduit.replies call h calls).2.Balanced := by
  induction calls generalizing h with
  | nil => exact hb
  | cons c calls ih =>
    have hnext := hb.meet (c.demand h.backends)
    rw [← call_eq_meet] at hnext
    exact ih hnext

theorem balanced_run (backends : Backends) (calls : List Call) : (run backends calls).Balanced :=
  (balanced_start backends).replies calls

theorem replies_serve_of_poisoned {s : Session} (hp : s.poisoned = true)
    (rs : List (Request .compressor)) : (replies (serve (k := .compressor)) s rs).2 = s := by
  induction rs with
  | nil => rfl
  | cons r rs ih =>
    rw [replies_cons, serve_of_poisoned hp]
    exact ih

theorem exists_poisoned_of_fault {input : List UInt8} {room : Nat} {fault : Fault}
    (hanswer : (h.call (.compressorProcess handle input room)).1 = .error (.fault fault)) :
    ∃ s, ((h.call (.compressorProcess handle input room)).2.table .compressor).get? handle = some s ∧
      s.poisoned = true := by
  rw [call_eq_meet, Call.demand] at hanswer ⊢
  cases hs : (h.table .compressor).get? handle with
  | none =>
    rw [meet_ask_of_none hs] at hanswer
    cases hanswer
  | some s =>
    obtain ⟨hserved, hnext⟩ := meet_ask hs (.process input room)
    rw [hserved, serve] at hanswer
    obtain ⟨result, s', hprocess⟩ : ∃ result s', s.process input room = (result, s') := ⟨_, _, rfl⟩
    rw [hprocess] at hanswer
    cases result with
    | ok step => cases hanswer
    | error error =>
      refine ⟨s', ?_, Session.poisoned_of_process hprocess⟩
      rw [hnext, serve, hprocess]

/-- After a fault a compressor answers no call, until it is freed. -/
theorem poisoned_of_fault (hsound : (h.table .compressor).Sound) {input : List UInt8} {room : Nat}
    {fault : Fault}
    (hanswer : (h.call (.compressorProcess handle input room)).1 = .error (.fault fault))
    (hfree : .compressorFree handle ∉ calls) (input' : List UInt8) (room' : Nat) :
    ((replies call h (.compressorProcess handle input room :: calls)).2.call
      (.compressorProcess handle input' room')).1 = .error .poisoned := by
  obtain ⟨s, hs, hp⟩ := exists_poisoned_of_fault hanswer
  have hnone : ∀ c ∈ calls, c.demand (h.call (.compressorProcess handle input room)).2.backends ≠
      .free .compressor handle := by
    intro c hc hd
    apply hfree
    cases c <;> cases hd
    exact hc
  have hlast := (alone_of_get? (sound_call hsound _) hs hnone).2
  rw [replies_serve_of_poisoned hp] at hlast
  rw [call_eq_meet, Call.demand, replies_cons]
  dsimp only
  rw [(meet_ask hlast (.process input' room')).1, serve, Session.process_of_poisoned hp]
  rfl

/-- The counters of a hub account for all calls that were made to it.

They are what the calls contributed. The sessions of a kind that were opened and not freed are those
in the table of that kind. Compressors fault once at most, since one that did is poisoned until it
is freed; and a call that fails is counted as a fault or not at all. -/
structure Accounted (backends : Backends) (calls : List Call) : Prop where
  counters : (run backends calls).counters = accounts (trace call (start backends) calls)
  live : ∀ k, (run backends calls).counters.freedOf k ≤ (run backends calls).counters.openedOf k ∧
    (run backends calls).counters.openedOf k - (run backends calls).counters.freedOf k =
      (run backends calls).counters.live k ∧
    (run backends calls).counters.live k = ((run backends calls).table k).occupied
  liveSessions : (run backends calls).snapshot.liveSessions = (run backends calls).liveHandles
  faults : (run backends calls).counters.faults ≤ (run backends calls).counters.compressorsOpened
  poisoned : ∀ before during handle input room fault,
    calls = before ++ .compressorProcess handle input room :: during →
      ((run backends before).call (.compressorProcess handle input room)).1 =
          .error (.fault fault) →
        .compressorFree handle ∉ during → ∀ input' room',
          ((run backends calls).call (.compressorProcess handle input' room')).1 = .error .poisoned
  failed : ∀ c error, ((run backends calls).call c).1 = .error error →
    ∃ faults, ((run backends calls).call c).2.counters = { (run backends calls).counters with faults }

theorem counters_account_for_run (backends : Backends) (calls : List Call) :
    Accounted backends calls := by
  have hb := balanced_run backends calls
  have hlive : ∀ k,
      (run backends calls).counters.live k = ((run backends calls).table k).occupied := by
    intro k
    rw [Counters.live, hb.opened k, Nat.add_sub_cancel_left]
  refine ⟨?_, fun k => ⟨?_, rfl, hlive k⟩, ?_, ?_, ?_, fun c error herror => ?_⟩
  · rw [run, counters_replies]
    exact Counters.empty_merge _
  · rw [hb.opened k]
    exact Nat.le_add_right _ _
  · have hsize : ∀ k, (run backends calls).counters.live k = ((run backends calls).table k).size := by
      intro k
      rw [hlive k, (hb.sound k).size_eq]
    exact congrArg₂ (· + ·) (congrArg₂ (· + ·) (hsize .cipher) (hsize .digest)) (hsize .compressor)
  · have hopened := hb.opened .compressor
    have hcount := HandleTable.count_le_occupied Session.poisoned
      ((run backends calls).table .compressor)
    rw [Counters.openedOf] at hopened
    rw [hopened]
    exact Nat.le_trans hb.faults (Nat.add_le_add_left hcount _)
  · rintro before during handle input room fault rfl hanswer hfree input' room'
    rw [run_append]
    exact poisoned_of_fault (sound_run backends before _) hanswer hfree input' room'
  · rw [counters_call, herror]
    obtain hnone | ⟨-, hone⟩ := account_error (run backends calls) c error
    · rw [hnone]
      exact ⟨_, rfl⟩
    · rw [hone]
      exact ⟨_, rfl⟩

example : (run (.all .portable) [.hasherInit, .hasherUpdate ⟨1⟩ [97, 98], .hasherUpdate ⟨2⟩ [99],
    .hasherFree ⟨1⟩, .hasherFree ⟨1⟩]).counters =
      { digestsOpened := 1, bytesHashed := 2, digestsFreed := 1 } := by
  decide

end Hub

end Conduit
