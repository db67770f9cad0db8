import Conduit.Hub
import Conduit.Proofs.Handle.Runs

namespace Conduit

abbrev SessionOf : Kind → Type 1
  | .cipher => CipherSession
  | .digest => DigestSession
  | .compressor => Session

inductive Request : Kind → Type
  | transform (data : List UInt8) (size : Nat) : Request .cipher
  | transformInPlace (data : List UInt8) : Request .cipher
  | update (data : List UInt8) : Request .digest
  | digest : Request .digest
  | process (input : List UInt8) (room : Nat) : Request .compressor
  | reset : Request .compressor
  | use (use : Session.Use) : Request .compressor

/-- What a session answers that stands alone. A buffer of another size than the data is refused. -/
def serve : {k : Kind} → SessionOf k → Request k → Except Error Reply × SessionOf k
  | .cipher, s, .transform data size =>
    match CipherSession.process? s data size with
    | some (out, s) => (.ok (.bytes out), s)
    | none => (.error (.lengthMismatch data.length size), s)
  | .cipher, s, .transformInPlace data =>
    let (out, s) := CipherSession.transform s data
    (.ok (.bytes out), s)
  | .digest, s, .update data => (.ok .done, DigestSession.update s data)
  | .digest, s, .digest =>
    let (out, s) := DigestSession.digest s
    (.ok (.bytes out), s)
  | .compressor, s, .process input room =>
    let (result, s) := Session.process s input room
    (result.map .step, s)
  | .compressor, s, .reset =>
    let (result, s) := Session.reset s
    (result.map fun _ => .done, s)
  | .compressor, s, .use use => Session.use s use

/-- What a call comes to: a session of a kind to be started, if it can be, a request to the session
behind a handle, or a session to be freed. -/
inductive Demand where
  | start (k : Kind) (session : Except Error (SessionOf k))
  | ask (k : Kind) (handle : Handle) (request : Request k)
  | free (k : Kind) (handle : Handle)

def Call.demand (backends : Backends) : Call → Demand
  | .cipherInit direction key iv =>
    .start .cipher (CipherSession.start backends.cipher direction key iv)
  | .cipherProcess handle data size => .ask .cipher handle (.transform data size)
  | .cipherProcessInPlace handle data => .ask .cipher handle (.transformInPlace data)
  | .cipherFree handle => .free .cipher handle
  | .hasherInit => .start .digest (.ok (DigestSession.start backends.digest))
  | .hasherUpdate handle data => .ask .digest handle (.update data)
  | .hasherDigest handle => .ask .digest handle .digest
  | .hasherFree handle => .free .digest handle
  | .compressorInit mode level raw =>
    .start .compressor (Session.start ⟨backends.compression, mode, level, raw⟩)
  | .compressorProcess handle input room => .ask .compressor handle (.process input room)
  | .compressorReset handle => .ask .compressor handle .reset
  | .compressorUse handle use => .ask .compressor handle (.use use)
  | .compressorFree handle => .free .compressor handle

def Demand.requestOn? (k : Kind) (handle : Handle) : Demand → Option (Request k)
  | .ask k' handle' request =>
    if h : k' = k ∧ handle' = handle then some (h.1 ▸ request) else none
  | _ => none

def Demand.frees (k : Kind) : Demand → Bool
  | .free k' _ => k' = k
  | _ => false

theorem Demand.requestOn?_eq_some {k : Kind} {handle : Handle} {d : Demand} {r : Request k} :
    d.requestOn? k handle = some r ↔ d = .ask k handle r := by
  cases d with
  | start k' session => simp [requestOn?]
  | ask k' handle' request =>
    rw [requestOn?]
    constructor
    · intro h
      split at h
      next heq =>
        obtain ⟨rfl, rfl⟩ := heq
        obtain rfl := Option.some.inj h
        rfl
      next => cases h
    · intro h
      cases h
      rw [dif_pos ⟨rfl, rfl⟩]
  | free k' handle' => simp [requestOn?]

namespace Hub

def table (h : Hub) : (k : Kind) → HandleTable (SessionOf k)
  | .cipher => h.ciphers
  | .digest => h.hashers
  | .compressor => h.compressors

def put (h : Hub) : (k : Kind) → HandleTable (SessionOf k) → Counters → Hub
  | .cipher, ciphers, counters => { h with ciphers, counters }
  | .digest, hashers, counters => { h with hashers, counters }
  | .compressor, compressors, counters => { h with compressors, counters }

def charge (counters : Counters) : {k : Kind} → SessionOf k → Request k → Counters
  | .cipher, _, .transform data size =>
    if data.length = size then counters.ciphered data.length else counters
  | .cipher, _, .transformInPlace data => counters.ciphered data.length
  | .digest, _, .update data => counters.hashed data.length
  | .digest, _, .digest => counters.emitted
  | .compressor, s, .process input room =>
    countStep counters (Session.profile s).mode (Session.process s input room).1
  | .compressor, _, .reset => counters
  | .compressor, _, .use _ => counters

def meet (h : Hub) : Demand → Except Error Reply × Hub
  | .start k (.ok s) =>
    (.ok (.handle ((h.table k).insert s).1),
      h.put k ((h.table k).insert s).2 (h.counters.opened k))
  | .start _ (.error error) => (.error error, h)
  | .ask k handle r =>
    match (h.table k).get? handle with
    | none => (.error (.useAfterFree handle.raw), h)
    | some s =>
      ((serve s r).1, h.put k ((h.table k).update handle fun s => serve s r).2
        (charge h.counters s r))
  | .free k handle =>
    match (h.table k).get? handle with
    | none => (.ok .done, h)
    | some _ => (.ok .done, h.put k ((h.table k).remove handle).2 (h.counters.freed k))

variable {h : Hub} {k k' : Kind} {counters : Counters}

theorem table_put_self (t : HandleTable (SessionOf k)) : (h.put k t counters).table k = t := by
  cases k <;> rfl

theorem table_put_of_ne (hk : k' ≠ k) (t : HandleTable (SessionOf k)) :
    (h.put k t counters).table k' = h.table k' := by
  cases k <;> cases k' <;> first | rfl | exact absurd rfl hk

theorem counters_put (t : HandleTable (SessionOf k)) :
    (h.put k t counters).counters = counters := by
  cases k <;> rfl

theorem backends_put (t : HandleTable (SessionOf k)) :
    (h.put k t counters).backends = h.backends := by
  cases k <;> rfl

theorem meet_ask_of_none {handle : Handle} {r : Request k} (hn : (h.table k).get? handle = none) :
    h.meet (.ask k handle r) = (.error (.useAfterFree handle.raw), h) := by
  rw [meet, hn]

theorem meet_ask_of_some {handle : Handle} {r : Request k} {s : SessionOf k}
    (hs : (h.table k).get? handle = some s) :
    h.meet (.ask k handle r) = ((serve s r).1,
      h.put k ((h.table k).update handle fun s => serve s r).2 (charge h.counters s r)) := by
  rw [meet, hs]

theorem meet_free_of_none {handle : Handle} (hn : (h.table k).get? handle = none) :
    h.meet (.free k handle) = (.ok .done, h) := by
  rw [meet, hn]

theorem meet_free_of_some {handle : Handle} {s : SessionOf k}
    (hs : (h.table k).get? handle = some s) :
    h.meet (.free k handle) =
      (.ok .done, h.put k ((h.table k).remove handle).2 (h.counters.freed k)) := by
  rw [meet, hs]

/-- How a demand can turn out. Either nothing changes, or a session is started, serves a request or
is freed. -/
inductive Outcome (h : Hub) : Demand → Prop
  | unchanged {d : Demand} (heq : (h.meet d).2 = h)
      (hfree : ∀ k handle, d = .free k handle → (h.table k).get? handle = none) : Outcome h d
  | started (k : Kind) (s : SessionOf k) : Outcome h (.start k (.ok s))
  | served {k : Kind} {handle : Handle} {s : SessionOf k} (r : Request k)
      (hs : (h.table k).get? handle = some s) : Outcome h (.ask k handle r)
  | freed {k : Kind} {handle : Handle} {s : SessionOf k}
      (hs : (h.table k).get? handle = some s) : Outcome h (.free k handle)

theorem outcome (h : Hub) (d : Demand) : h.Outcome d := by
  cases d with
  | start k session =>
    cases session with
    | error error => exact .unchanged rfl (by rintro k handle ⟨⟩)
    | ok session => exact .started k session
  | ask k handle r =>
    cases hs : (h.table k).get? handle with
    | none => exact .unchanged (by rw [meet_ask_of_none hs]) (by rintro k handle ⟨⟩)
    | some s => exact .served r hs
  | free k handle =>
    cases hs : (h.table k).get? handle with
    | none =>
      refine .unchanged (by rw [meet_free_of_none hs]) ?_
      rintro k handle ⟨⟩
      exact hs
    | some s => exact .freed hs

open HandleTable in
theorem call_eq_meet (h : Hub) (c : Call) : h.call c = h.meet (c.demand h.backends) := by
  cases c with
  | cipherInit direction key iv =>
    rw [call, cipherInit, Call.demand]
    cases CipherSession.start h.backends.cipher direction key iv <;> rfl
  | cipherProcess handle data size =>
    rw [call, cipherProcess, Call.demand]
    cases hs : h.ciphers.get? handle with
    | none =>
      rw [update_of_none hs, meet_ask_of_none (k := .cipher) hs]
      rfl
    | some s =>
      rw [meet_ask_of_some (k := .cipher) hs, update_eq_of_some hs
        (g := fun s => serve (k := .cipher) s (.transform data size)) ?_]
      · by_cases hd : data.length = size
        · simp [flatten, serve, charge, CipherSession.process?, hd, put, table, Except.map]
        · simp [flatten, serve, charge, CipherSession.process?, hd, put, table, Except.map]
      · by_cases hd : data.length = size
        · simp [serve, CipherSession.process?, hd]
        · simp [serve, CipherSession.process?, hd]
  | cipherProcessInPlace handle data =>
    rw [call, cipherProcessInPlace, Call.demand]
    cases hs : h.ciphers.get? handle with
    | none =>
      rw [update_of_none hs, meet_ask_of_none (k := .cipher) hs]
      rfl
    | some s =>
      rw [meet_ask_of_some (k := .cipher) hs, update_eq_of_some hs
        (g := fun s => serve (k := .cipher) s (.transformInPlace data)) rfl]
      rfl
  | cipherFree handle =>
    rw [call, cipherFree, Call.demand]
    cases hs : h.ciphers.get? handle with
    | none =>
      rw [remove_of_none hs, meet_free_of_none (k := .cipher) hs]
    | some s =>
      obtain ⟨i, -, -, hremove⟩ := remove_of_some hs
      rw [meet_free_of_some (k := .cipher) hs, table, hremove]
      rfl
  | hasherInit => rfl
  | hasherUpdate handle data =>
    rw [call, hasherUpdate, Call.demand]
    cases hs : h.hashers.get? handle with
    | none =>
      rw [update_of_none hs, meet_ask_of_none (k := .digest) hs]
      rfl
    | some s =>
      rw [meet_ask_of_some (k := .digest) hs, update_eq_of_some hs
        (g := fun s => serve (k := .digest) s (.update data)) rfl]
      rfl
  | hasherDigest handle =>
    rw [call, hasherDigest, Call.demand]
    cases hs : h.hashers.get? handle with
    | none =>
      rw [update_of_none hs, meet_ask_of_none (k := .digest) hs]
      rfl
    | some s =>
      rw [meet_ask_of_some (k := .digest) hs, update_eq_of_some hs
        (g := fun s => serve (k := .digest) s .digest) rfl]
      rfl
  | hasherFree handle =>
    rw [call, hasherFree, Call.demand]
    cases hs : h.hashers.get? handle with
    | none =>
      rw [remove_of_none hs, meet_free_of_none (k := .digest) hs]
    | some s =>
      obtain ⟨i, -, -, hremove⟩ := remove_of_some hs
      rw [meet_free_of_some (k := .digest) hs, table, hremove]
      rfl
  | compressorInit mode level raw =>
    rw [call, compressorInit, Call.demand]
    cases Session.start ⟨h.backends.compression, mode, level, raw⟩ <;> rfl
  | compressorProcess handle input room =>
    rw [call, compressorProcess, Call.demand]
    cases hs : h.compressors.get? handle with
    | none =>
      rw [update_of_none hs, meet_ask_of_none (k := .compressor) hs]
      rfl
    | some s =>
      rw [meet_ask_of_some (k := .compressor) hs, update_eq_of_some hs
        (g := fun s => serve (k := .compressor) s (.process input room)) rfl]
      rfl
  | compressorReset handle =>
    rw [call, onCompressor, Call.demand]
    cases hs : h.compressors.get? handle with
    | none =>
      rw [update_of_none hs, meet_ask_of_none (k := .compressor) hs]
      rfl
    | some s =>
      rw [meet_ask_of_some (k := .compressor) hs, update_eq_of_some hs
        (g := fun s => serve (k := .compressor) s .reset) rfl]
      rfl
  | compressorUse handle use =>
    rw [call, onCompressor, Call.demand]
    cases hs : h.compressors.get? handle with
    | none =>
      rw [update_of_none hs, meet_ask_of_none (k := .compressor) hs]
      rfl
    | some s =>
      rw [meet_ask_of_some (k := .compressor) hs, update_eq_of_some hs
        (g := fun s => serve (k := .compressor) s (.use use)) rfl]
      rfl
  | compressorFree handle =>
    rw [call, compressorFree, Call.demand]
    cases hs : h.compressors.get? handle with
    | none =>
      rw [remove_of_none hs, meet_free_of_none (k := .compressor) hs]
    | some s =>
      obtain ⟨i, -, -, hremove⟩ := remove_of_some hs
      rw [meet_free_of_some (k := .compressor) hs, table, hremove]
      rfl

end Hub

end Conduit
