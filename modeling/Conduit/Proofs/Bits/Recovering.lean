import Conduit.Proofs.Bits.Rewinding
import Conduit.Proofs.Bits.Strings

namespace Conduit

open Bits

inductive BitWriter.Use where
  | put (value : UInt32) (n : Nat)
  | align
  | bytes (data : List UInt8)
  | discard (n : Nat)

namespace BitWriter.Use

def lay (bits : List Bool) : Use → List Bool
  | .put value n => bits ++ ofNat n value.toNat
  | .align => pad bits
  | .bytes data => bits ++ ofBytes data
  | .discard _ => bits

def packed (uses : List Use) : List Bool :=
  uses.foldl lay []

/-- What comes of a use that is allowed when `bits` are written and not yet handed out: the bytes
that it hands out and the bits that are left. -/
def outcome? (bits : List Bool) : Use → Option (List UInt8 × List Bool)
  | .put value n => if n ≤ 32 then some ([], bits ++ ofNat n value.toNat) else none
  | .align => some ([], pad bits)
  | .bytes data => if bits.length % 8 = 0 then some ([], bits ++ ofBytes data) else none
  | .discard n =>
    if 8 * n ≤ bits.length then some (pack (bits.take (8 * n)), bits.drop (8 * n)) else none

def asked : Use → Option BitReader.Use
  | .put _ n => some (.bits n)
  | .align => some .align
  | .bytes data => some (.copy data.length)
  | .discard _ => none

def expected : Use → Option BitReader.Answer
  | .put value n => some (.number (some (value.toNat % 2 ^ n)))
  | .align => some .done
  | .bytes data => some (.bytes data)
  | .discard _ => none

variable {bits rest : List Bool} {handed : List UInt8}

/-- Handing out takes nothing away from what has been written. -/
theorem ofBytes_append_outcome {u : Use} (h : outcome? bits u = some (handed, rest))
    (gone : List UInt8) :
    ofBytes (gone ++ handed) ++ rest = lay (ofBytes gone ++ bits) u := by
  cases u with
  | put value n =>
    rw [outcome?] at h
    split at h <;> cases h
    rw [lay, List.append_nil, List.append_assoc]
  | align =>
    cases h
    rw [lay, List.append_nil, pad_ofBytes_append]
  | bytes data =>
    rw [outcome?] at h
    split at h <;> cases h
    rw [lay, List.append_nil, List.append_assoc]
  | discard n =>
    rw [outcome?] at h
    split at h <;> cases h
    next hle =>
      have hwhole : (bits.take (8 * n)).length % 8 = 0 := by
        rw [List.length_take_of_le hle, Nat.mul_mod_right]
      rw [lay, ofBytes_append, ofBytes_pack, pad_eq_self hwhole, List.append_assoc,
        List.take_append_drop]

theorem ofBytes_append_outcomes {uses : List Use} {handed : List (List UInt8)}
    (h : replies? outcome? bits uses = some (handed, rest)) (gone : List UInt8) :
    ofBytes (gone ++ handed.flatten) ++ rest = uses.foldl lay (ofBytes gone ++ bits) := by
  induction uses generalizing bits handed gone with
  | nil =>
    cases h
    rw [List.flatten_nil, List.append_nil, List.foldl_nil]
  | cons u uses ih =>
    obtain ⟨first, mid, more, hfirst, hmore, rfl⟩ := replies?_cons_eq_some.mp h
    rw [List.foldl_cons, ← ofBytes_append_outcome hfirst gone, ← ih hmore, List.flatten_cons,
      List.append_assoc]

theorem exists_lay (bits : List Bool) (u : Use) : ∃ more, lay bits u = bits ++ more := by
  cases u with
  | put value n => exact ⟨_, rfl⟩
  | align => exact ⟨_, rfl⟩
  | bytes data => exact ⟨_, rfl⟩
  | discard n => exact ⟨[], (List.append_nil _).symm⟩

theorem exists_foldl_lay (bits : List Bool) (uses : List Use) :
    ∃ more, uses.foldl lay bits = bits ++ more := by
  induction uses generalizing bits with
  | nil => exact ⟨[], (List.append_nil _).symm⟩
  | cons u uses ih =>
    obtain ⟨more, hmore⟩ := exists_lay bits u
    obtain ⟨others, hothers⟩ := ih (lay bits u)
    refine ⟨more ++ others, ?_⟩
    rw [List.foldl_cons, hothers, hmore, List.append_assoc]

theorem asked_read {u : Use} (hu : outcome? bits u = some (handed, rest)) {front : List Bool}
    (hfront : front.length % 8 = bits.length % 8) {q : BitQueue} {behind : List Bool}
    (hq : front ++ q.ahead = lay front u ++ behind) (hwhole : (front ++ q.ahead).length % 8 = 0) :
    ∃ q', replies? BitQueue.use? q u.asked.toList = some (u.expected.toList, q') ∧
      q'.ahead = behind := by
  rw [List.length_append] at hwhole
  cases u with
  | put value n =>
    rw [outcome?] at hu
    split at hu <;> cases hu
    next hn =>
      rw [lay, List.append_assoc] at hq
      have hahead := List.append_cancel_left hq
      have hlong : ¬ q.ahead.length < n := by
        rw [hahead, List.length_append, length_ofNat]
        omega
      refine ⟨q.pass n, replies?_cons_eq_some.mpr ⟨_, _, [], ?_, rfl, rfl⟩, ?_⟩
      · rw [BitQueue.use?, if_neg (Nat.not_lt.mpr hn), if_neg hlong, hahead, toNat_take_ofNat]
      · rw [BitQueue.pass, hahead]
        exact List.drop_left' (length_ofNat _ _)
  | align =>
    rw [lay, pad, List.append_assoc] at hq
    have hahead := List.append_cancel_left hq
    have hmod : q.ahead.length % 8 = (8 - front.length % 8) % 8 := by omega
    refine ⟨_, rfl, ?_⟩
    rw [BitQueue.pass, hmod, hahead]
    exact List.drop_left' List.length_replicate
  | bytes data =>
    rw [outcome?] at hu
    split at hu <;> cases hu
    next haligned =>
      rw [lay, List.append_assoc] at hq
      have hahead := List.append_cancel_left hq
      have hmod : q.ahead.length % 8 = 0 := by omega
      refine ⟨q.pass (8 * data.length), replies?_cons_eq_some.mpr ⟨_, _, [], ?_, rfl, rfl⟩, ?_⟩
      · rw [BitQueue.use?, if_pos hmod, hahead, List.take_left' (length_ofBytes data), pack_ofBytes]
      · rw [BitQueue.pass, hahead]
        exact List.drop_left' (length_ofBytes data)
  | discard n => exact ⟨q, rfl, List.append_cancel_left hq⟩

theorem filterMap_cons_toList {α β : Type} (f : α → Option β) (a : α) (items : List α) :
    (a :: items).filterMap f = (f a).toList ++ items.filterMap f := by
  rw [List.filterMap_cons]
  cases f a <;> rfl

/-- What has been laid end to end is read again, and only what is behind it is left. -/
theorem asked_read_all {uses : List Use} {handed : List (List UInt8)}
    (h : replies? outcome? bits uses = some (handed, rest)) (gone : List UInt8) {q : BitQueue}
    {behind : List Bool}
    (hq : ofBytes gone ++ bits ++ q.ahead = uses.foldl lay (ofBytes gone ++ bits) ++ behind)
    (hwhole : (ofBytes gone ++ bits ++ q.ahead).length % 8 = 0) :
    ∃ q', replies? BitQueue.use? q (uses.filterMap asked) = some (uses.filterMap expected, q') ∧
      q'.ahead = behind := by
  induction uses generalizing bits handed gone q with
  | nil =>
    refine ⟨q, rfl, ?_⟩
    rw [List.foldl_nil] at hq
    exact List.append_cancel_left hq
  | cons u uses ih =>
    obtain ⟨first, mid, more, hfirst, hmore, rfl⟩ := replies?_cons_eq_some.mp h
    have hlaid := ofBytes_append_outcome hfirst gone
    obtain ⟨others, hothers⟩ := exists_foldl_lay (lay (ofBytes gone ++ bits) u) uses
    have hmod : (ofBytes gone ++ bits).length % 8 = bits.length % 8 := by
      rw [List.length_append, length_ofBytes]
      omega
    rw [List.foldl_cons] at hq
    have hfront : ofBytes gone ++ bits ++ q.ahead =
        lay (ofBytes gone ++ bits) u ++ (others ++ behind) := by
      rw [hq, hothers, List.append_assoc]
    obtain ⟨q₁, hq₁, hahead⟩ := asked_read hfirst hmod hfront hwhole
    have hnext : ofBytes (gone ++ first) ++ mid ++ q₁.ahead =
        uses.foldl lay (ofBytes (gone ++ first) ++ mid) ++ behind := by
      rw [hlaid, hothers, hahead, List.append_assoc]
    obtain ⟨q₂, hq₂, hend⟩ := ih hmore (gone ++ first) hnext (by
      rw [hnext, hlaid, ← hq]
      exact hwhole)
    refine ⟨q₂, ?_, hend⟩
    rw [filterMap_cons_toList, filterMap_cons_toList]
    exact replies?_append_eq_some.mpr ⟨_, q₁, _, hq₁, hq₂, rfl⟩

end BitWriter.Use

end Conduit
