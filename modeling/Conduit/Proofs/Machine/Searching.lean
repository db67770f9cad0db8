import Conduit.Proofs.Deflate.Chaining
import Conduit.Proofs.Machine.Checked

namespace Conduit.Machine

open Deflate

def index? (n : Nat) : Option Nat :=
  if n < 2 ^ 64 then some n else none

theorem index?_of_lt {n : Nat} (h : n < 2 ^ 64) : index? n = some n := if_pos h

namespace Search

def insert? (bytes : Array UInt8) (base : Nat) (chains : Chains) (i : Nat) : Option Chains :=
  if bytes.size < i + minMatch then some chains
  else do
    let h ← bucketAt bytes i
    let place ← index? (base + i)
    let first ← chains.head[h]?
    let previous ← put? chains.previous (place % windowSize) first
    let head ← put? chains.head h (← index? (place + 1))
    return ⟨head, previous⟩

def insertRun? (bytes : Array UInt8) (base : Nat) : (n i : Nat) → Chains → Option Chains
  | 0, _, chains => some chains
  | n + 1, i, chains => do insertRun? bytes base n (i + 1) (← insert? bytes base chains i)

def follow? (bytes : Array UInt8) (base : Nat) (previous : Array Nat)
    (place i longest enough : Nat) : (tries candidate best distance : Nat) → Option (Nat × Nat)
  | 0, _, best, distance => some (best, distance)
  | tries + 1, candidate, best, distance =>
    if candidate = 0 then some (best, distance)
    else do
      let there ← sub? candidate 1
      if place ≤ there then none
      else
        let back ← sub? place there
        if windowSize ≤ back ∨ there < base then some (best, distance)
        else
          let j ← sub? there base
          let a ← bytes[j + best]?
          let b ← bytes[i + best]?
          let length ← (if a = b then agreement bytes longest j i 0 else some 0)
          if best < length ∧ (enough ≤ length ∨ length = longest) then some (length, back)
          else
            let next ← previous[there % windowSize]?
            if candidate ≤ next then none
            else
              let (best, distance) := if best < length then (length, back) else (best, distance)
              follow? bytes base previous place i longest enough tries next best distance

def longest? (effort : Effort) (bytes : Array UInt8) (base : Nat) (chains : Chains)
    (i stop : Nat) : Option (Option Match) := do
  let longest := min (← sub? stop i) maxMatch
  if longest < minMatch then some none
  else
    let place ← index? (base + i)
    let first ← chains.head[← bucketAt bytes i]?
    let (length, distance) ← follow? bytes base chains.previous place i longest effort.enough
      effort.chain first (minMatch - 1) 0
    if h : minMatch ≤ length then some (some ⟨length, distance, h⟩) else some none

def longer? (effort : Effort) (bytes : Array UInt8) (base : Nat) (chains : Chains) (i stop : Nat)
    (found : Match) : Option Bool :=
  if effort.lazy ∧ found.length < effort.enough ∧ i + 1 < stop then do
    match ← longest? effort bytes base chains (i + 1) stop with
    | none => some false
    | some next => some (found.length < next.length)
  else some false

def tokenize? (effort : Effort) (bytes : Array UInt8) (base stop i : Nat) (chains : Chains)
    (tokens : Array Token) : Option (Array Token × Chains) :=
  if i < stop then
    match longest? effort bytes base chains i stop, bytes[i]?, insert? bytes base chains i with
    | some none, some byte, some chains =>
      tokenize? effort bytes base stop (i + 1) chains (tokens.push (.literal byte))
    | some (some found), some byte, some chains =>
      match longer? effort bytes base chains i stop found with
      | none => none
      | some true => tokenize? effort bytes base stop (i + 1) chains (tokens.push (.literal byte))
      | some false =>
        match insertRun? bytes base (found.length - 1) (i + 1) chains with
        | none => none
        | some chains =>
          tokenize? effort bytes base stop (i + found.length) chains
            (tokens.push (.copy found.length found.distance))
    | _, _, _ => none
  else some (tokens, chains)
termination_by stop - i
decreasing_by
  all_goals try omega
  have := found.minMatch_le
  simp only [minMatch] at this
  omega

variable {bytes : Array UInt8} {base i stop n : Nat} {chains : Chains} {mark : Nat → Option Nat}

section Insert

theorem insert?_eq (h : chains.Sized) (hfits : base + bytes.size < 2 ^ 64) (i : Nat) :
    insert? bytes base chains i = chains.insert bytes base i := by
  rw [insert?, Chains.insert]
  split
  · rfl
  next hin =>
    obtain ⟨b, hbucket, hlt⟩ := bucketAt_eq_some (Nat.not_lt.mp hin)
    have hhead := h.head
    have hprevious := h.previous
    obtain ⟨head, previous⟩ := chains
    dsimp only at hhead hprevious
    have hslot : (base + i) % windowSize < previous.size := by
      rw [hprevious]
      exact Nat.mod_lt _ (by decide)
    rw [minMatch] at hin
    rw [hbucket]
    simp only [Option.bind_eq_bind, Option.bind_some,
      index?_of_lt (show base + i < 2 ^ 64 by omega),
      index?_of_lt (show base + i + 1 < 2 ^ 64 by omega)]
    rw [Array.getElem?_eq_getElem (show b < head.size by omega)]
    simp only [Option.bind_some, put?_of_lt _ hslot, put?_of_lt _ (show b < head.size by omega)]
    rfl

theorem insertRun?_eq (h : chains.Sized) (hfits : base + bytes.size < 2 ^ 64) (n i : Nat) :
    insertRun? bytes base n i chains = Chains.insertRun bytes base n i chains := by
  induction n generalizing i chains with
  | zero => rfl
  | succ n ih =>
    obtain ⟨mid, hmid, hsized⟩ := h.insert bytes base i
    rw [insertRun?, Chains.insertRun, insert?_eq h hfits, hmid]
    exact ih hsized (i + 1)

end Insert

section Follow

theorem follow?_eq (h : Traced mark (base + i) chains) {b : Nat}
    (longest enough tries : Nat) {candidate : Nat} (best distance : Nat)
    (hcandidate : ∀ p, candidate = p + 1 → p < base + i ∧ mark p = some b) :
    follow? bytes base chains.previous (base + i) i longest enough tries candidate best distance =
      followChain bytes base chains.previous i longest enough tries candidate best distance := by
  induction tries generalizing candidate best distance with
  | zero => rfl
  | succ tries ih =>
    rw [follow?, followChain]
    cases candidate with
    | zero => rfl
    | succ p =>
      obtain ⟨hlt, hmark⟩ := hcandidate p rfl
      have hthere : sub? (p + 1) 1 = some p := sub?_of_le (Nat.succ_le_succ (Nat.zero_le p))
      have hback : sub? (base + i) p = some (base + i - p) := sub?_of_le hlt.le
      rw [if_neg (Nat.succ_ne_zero p), hthere]
      simp only [Option.bind_eq_bind, Option.bind_some, Nat.add_sub_cancel,
        if_neg (Nat.not_le.mpr hlt), hback]
      by_cases hfar : windowSize ≤ base + i - p ∨ p < base
      · rw [if_pos hfar, if_pos (.inr (.inr hfar))]
      · obtain ⟨next, hnext, hless, hchain⟩ := h.next hmark hlt (by omega)
        have hnear : ¬ (p + 1 = 0 ∨ base + i ≤ p ∨ windowSize ≤ base + i - p ∨ p < base) := by
          omega
        rw [if_neg hfar, if_neg hnear, sub?_of_le (by omega : base ≤ p), hnext]
        simp only [Option.bind_some]
        cases bytes[p - base + best]? with
        | none => rfl
        | some a =>
          cases bytes[i + best]? with
          | none => rfl
          | some a' =>
            dsimp only [Option.bind_some]
            cases (if a = a' then agreement bytes longest (p - base) i 0 else some 0) with
            | none => rfl
            | some length =>
              dsimp only [Option.bind_some]
              split
              · rfl
              · rw [if_neg (Nat.not_le.mpr hless), if_neg (Nat.not_le.mpr hless)]
                apply ih
                intro q hq
                obtain ⟨hq, hmark⟩ := hchain q hq
                exact ⟨hq.trans hlt, hmark⟩

end Follow

section Tokenize

theorem longest?_eq (h : Traced mark (base + i) chains) (effort : Effort) (hi : i ≤ stop)
    (hs : stop ≤ bytes.size) (hfits : base + bytes.size < 2 ^ 64) :
    longest? effort bytes base chains i stop = longestMatch effort bytes base chains i stop := by
  rw [longest?, longestMatch, sub?_of_le hi]
  simp only [Option.bind_eq_bind, Option.bind_some]
  split
  · rfl
  next hlong =>
    rw [minMatch] at hlong
    have hin : i + minMatch ≤ bytes.size := by
      rw [minMatch]
      omega
    obtain ⟨b, hbucket, hlt⟩ := bucketAt_eq_some hin
    rw [index?_of_lt (by omega : base + i < 2 ^ 64), hbucket]
    simp only [Option.bind_some, h.head b hlt]
    rw [follow?_eq h _ _ _ _ _ fun p hp => mark_of_latest hp]
    cases followChain bytes base chains.previous i (min (stop - i) maxMatch) effort.enough
      effort.chain (latest mark b (base + i)) (minMatch - 1) 0 <;> rfl

theorem longer?_eq (h : Traced mark (base + (i + 1)) chains) (effort : Effort)
    (hs : stop ≤ bytes.size) (hfits : base + bytes.size < 2 ^ 64) (found : Match) :
    longer? effort bytes base chains i stop found =
      longerNext effort bytes base chains i stop found := by
  rw [longer?, longerNext]
  split
  next hlook =>
    rw [longest?_eq h effort hlook.2.2.le hs hfits]
    cases longestMatch effort bytes base chains (i + 1) stop with
    | none => rfl
    | some next => cases next <;> rfl
  next => rfl

theorem tokenize?_eq (effort : Effort) (h : Traced mark (base + i) chains) (hi : i ≤ stop)
    (hs : stop ≤ bytes.size) (hfits : base + bytes.size < 2 ^ 64)
    (hmarks : MarksOf mark bytes base i stop) (tokens : Array Token) :
    tokenize? effort bytes base stop i chains tokens =
      tokenize effort bytes base stop i chains tokens := by
  induction hn : stop - i using Nat.strong_induction_on generalizing i chains tokens with
  | _ n ih =>
    rw [tokenize?, tokenize]
    split
    next hlt =>
      obtain ⟨found, hfound, hall⟩ := h.sized.longestMatch (i := i) effort base hs
      obtain ⟨mid, hinsert, hmid⟩ := h.insert (hmarks i (Nat.le_refl i) hlt)
      rw [Nat.add_assoc] at hmid
      have hbyte := Array.getElem?_eq_getElem (hlt.trans_le hs)
      rw [longest?_eq h effort hi hs hfits, insert?_eq h.sized hfits, hfound, hinsert, hbyte]
      have hliteral := ih _ (by omega) hmid hlt (hmarks.mono (Nat.le_succ i) (Nat.le_refl stop))
        (tokens.push (.literal bytes[i])) rfl
      cases found with
      | none => exact hliteral
      | some found =>
        have hmin := found.minMatch_le
        rw [minMatch] at hmin
        have hroom := (hall found rfl).1
        dsimp only
        rw [longer?_eq hmid effort hs hfits found]
        cases longerNext effort bytes base mid i stop found with
        | none => rfl
        | some longer =>
          cases longer with
          | true => exact hliteral
          | false =>
            have hend : i + 1 + (found.length - 1) = i + found.length := by omega
            obtain ⟨chains', hrun, htraced⟩ := hmid.insertRun
              (hmarks.mono (Nat.le_succ i) (by omega : i + 1 + (found.length - 1) ≤ stop))
            rw [hend] at htraced
            dsimp only
            rw [insertRun?_eq hmid.sized hfits, hrun]
            exact ih _ (by omega) htraced (by omega)
              (hmarks.mono (Nat.le_add_right i _) (Nat.le_refl stop)) _ rfl
    next => rfl

end Tokenize

end Search

end Conduit.Machine
