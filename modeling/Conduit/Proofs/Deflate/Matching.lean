import Conduit.Deflate.Matcher
import Conduit.Proofs.Deflate.Grammar

namespace Conduit.Deflate

section Copy

/-- From `i` on, `length` bytes are those that lie `distance` back. -/
def Repeats (bytes : Array UInt8) (i length distance : Nat) : Prop :=
  ∀ k < length, bytes[i + k]? = bytes[i + k - distance]?

variable {bytes : Array UInt8} {i length distance : Nat}

theorem take_append_getElem (before : List UInt8) (hi : i < bytes.size) :
    before ++ bytes.toList.take i ++ [bytes[i]] = before ++ bytes.toList.take (i + 1) := by
  rw [List.append_assoc, List.take_add_one, Array.getElem?_toList, Array.getElem?_eq_getElem hi]
  rfl

theorem copyBack_of_repeats (before : List UInt8) (h : Repeats bytes i length distance)
    (h0 : 1 ≤ distance) (hd : distance ≤ i) (hl : i + length ≤ bytes.size) :
    copyBack distance length (before ++ bytes.toList.take i) =
      some (before ++ bytes.toList.take (i + length)) := by
  induction length generalizing i with
  | zero => rfl
  | succ n ih =>
    have hi : i < bytes.size := by omega
    have hlen : (before ++ bytes.toList.take i).length = before.length + i := by
      simp only [List.length_append, List.length_take, Array.length_toList]
      omega
    have hget : (before ++ bytes.toList.take i)[before.length + i - distance]? =
        some bytes[i] := by
      have hsub : before.length + i - distance - before.length = i + 0 - distance := by omega
      rw [List.getElem?_append_right (by omega), hsub, List.getElem?_take_of_lt (by omega),
        Array.getElem?_toList, ← h 0 (Nat.succ_pos n), Nat.add_zero, Array.getElem?_eq_getElem hi]
    have hrest : Repeats bytes (i + 1) n distance := by
      intro k hk
      have := h (k + 1) (Nat.succ_lt_succ hk)
      rwa [← Nat.add_assoc, Nat.add_right_comm] at this
    rw [copyBack, if_pos ⟨h0, by omega⟩, hlen, hget]
    dsimp only
    rw [take_append_getElem before hi, ih hrest (by omega) (by omega), Nat.add_right_comm,
      Nat.add_assoc]

end Copy

section Chain

variable {bytes : Array UInt8} {i longest : Nat} {previous : Array Nat}

theorem agreement_spec {n i j : Nat} (found : Nat) (hi : i + n ≤ bytes.size)
    (hj : j + n ≤ bytes.size) :
    ∃ m, agreement bytes n i j found = some (found + m) ∧ m ≤ n ∧
      ∀ k < m, bytes[i + k]? = bytes[j + k]? := by
  induction n generalizing i j found with
  | zero => exact ⟨0, rfl, Nat.le_refl 0, by simp⟩
  | succ n ih =>
    have ha : i < bytes.size := by omega
    have hb : j < bytes.size := by omega
    rw [agreement, Array.getElem?_eq_getElem ha, Array.getElem?_eq_getElem hb]
    dsimp only
    split
    next he =>
      obtain ⟨m, hm, hle, hall⟩ := ih (i := i + 1) (j := j + 1) (found + 1) (by omega) (by omega)
      refine ⟨m + 1, by rw [hm, Nat.add_assoc, Nat.add_comm 1], by omega, ?_⟩
      intro k hk
      cases k with
      | zero => rw [Nat.add_zero, Nat.add_zero, Array.getElem?_eq_getElem ha,
          Array.getElem?_eq_getElem hb, he]
      | succ k =>
        have := hall k (by omega)
        rwa [Nat.add_right_comm, Nat.add_assoc, Nat.add_right_comm j, Nat.add_assoc] at this
    next => exact ⟨0, rfl, Nat.zero_le _, by simp⟩

/-- A copy that may be made: either it is too short to count, or its bytes are there. -/
def Sure (bytes : Array UInt8) (i length distance : Nat) : Prop :=
  minMatch ≤ length →
    1 ≤ distance ∧ distance < windowSize ∧ distance ≤ i ∧ Repeats bytes i length distance

theorem exists_sure {first distance : Nat} (same : Prop) [Decidable same]
    (hfirst : first + distance = i) (h0 : 1 ≤ distance) (hw : distance < windowSize)
    (hi : i + longest ≤ bytes.size) :
    ∃ length, (if same then agreement bytes longest first i 0 else some 0) = some length ∧
      length ≤ longest ∧ Sure bytes i length distance := by
  split
  next =>
    obtain ⟨m, hm, hle, hall⟩ := agreement_spec 0 (by omega : first + longest ≤ bytes.size) hi
    refine ⟨m, by rw [hm, Nat.zero_add], hle, fun _ => ⟨h0, hw, by omega, ?_⟩⟩
    intro k hk
    rw [← hall k hk]
    congr 1
    omega
  next => exact ⟨0, rfl, Nat.zero_le _, fun h => absurd h (by decide)⟩

theorem followChain_spec (base enough tries candidate : Nat) {best distance : Nat}
    (hp : previous.size = windowSize) (hi : i + longest ≤ bytes.size) (hbest : best < longest)
    (hsure : Sure bytes i best distance) :
    ∃ length d, followChain bytes base previous i longest enough tries candidate best distance =
      some (length, d) ∧ length ≤ longest ∧ Sure bytes i length d := by
  induction tries generalizing candidate best distance with
  | zero => exact ⟨best, distance, rfl, Nat.le_of_lt hbest, hsure⟩
  | succ tries ih =>
    rw [followChain]
    dsimp only
    split
    next => exact ⟨best, distance, rfl, Nat.le_of_lt hbest, hsure⟩
    next hin =>
      have ha : candidate - 1 - base + best < bytes.size := by omega
      have hb : i + best < bytes.size := by omega
      have hc : (candidate - 1) % windowSize < previous.size := by
        rw [hp]
        exact Nat.mod_lt _ (by decide)
      rw [Array.getElem?_eq_getElem ha, Array.getElem?_eq_getElem hb, Array.getElem?_eq_getElem hc]
      dsimp only
      have hback : candidate - 1 - base + (base + i - (candidate - 1)) = i := by omega
      obtain ⟨length, hlength, hle, hgood⟩ := exists_sure
        (bytes[candidate - 1 - base + best] = bytes[i + best]) hback (by omega) (by omega) hi
      rw [hlength]
      dsimp only
      split
      next => exact ⟨length, _, rfl, hle, hgood⟩
      next hgo =>
        -- the better of both is kept
        have hkept : ∃ best' distance',
            (if best < length then (length, base + i - (candidate - 1)) else (best, distance)) =
              (best', distance') ∧ best' < longest ∧ Sure bytes i best' distance' := by
          split
          next hlt => exact ⟨length, _, rfl, by omega, hgood⟩
          next => exact ⟨best, distance, rfl, hbest, hsure⟩
        obtain ⟨best', distance', hkept, hlt, hsure'⟩ := hkept
        rw [hkept]
        dsimp only
        split
        next => exact ⟨best', distance', rfl, Nat.le_of_lt hlt, hsure'⟩
        next => exact ih _ hlt hsure'

end Chain

section Tokens

variable {bytes : Array UInt8} {stop i : Nat} {chains : Chains}

structure Chains.Sized (chains : Chains) : Prop where
  head : chains.head.size = bucketCount
  previous : chains.previous.size = windowSize

theorem sized_empty : Chains.empty.Sized :=
  ⟨Array.size_replicate, Array.size_replicate⟩

theorem bucketAt_eq_some (h : i + minMatch ≤ bytes.size) :
    ∃ b, bucketAt bytes i = some b ∧ b < bucketCount := by
  rw [minMatch] at h
  rw [bucketAt, Array.getElem?_eq_getElem (by omega : i < bytes.size),
    Array.getElem?_eq_getElem (by omega : i + 1 < bytes.size),
    Array.getElem?_eq_getElem (by omega : i + 2 < bytes.size)]
  exact ⟨_, rfl, Nat.mod_lt _ (by decide)⟩

theorem Chains.Sized.insert (h : chains.Sized) (bytes : Array UInt8) (base i : Nat) :
    ∃ chains', chains.insert bytes base i = some chains' ∧ chains'.Sized := by
  rw [Chains.insert]
  split
  next => exact ⟨chains, rfl, h⟩
  next hin =>
    obtain ⟨b, hb, hlt⟩ := bucketAt_eq_some (Nat.not_lt.mp hin)
    obtain ⟨head, previous⟩ := chains
    have hhead := h.head
    rw [hb]
    dsimp only at hhead ⊢
    rw [Array.getElem?_eq_getElem (by omega)]
    exact ⟨_, rfl, by rw [Array.size_setIfInBounds, hhead],
      by rw [Array.size_setIfInBounds]; exact h.previous⟩

theorem Chains.Sized.insertRun (h : chains.Sized) (bytes : Array UInt8) (base n i : Nat) :
    ∃ chains', Chains.insertRun bytes base n i chains = some chains' ∧ chains'.Sized := by
  induction n generalizing i chains with
  | zero => exact ⟨chains, rfl, h⟩
  | succ n ih =>
    obtain ⟨mid, hm, hmid⟩ := h.insert bytes base i
    rw [Chains.insertRun, hm]
    exact ih hmid (i + 1)

theorem Chains.Sized.longestMatch (h : chains.Sized) (effort : Effort) (base : Nat)
    (hs : stop ≤ bytes.size) :
    ∃ found, longestMatch effort bytes base chains i stop = some found ∧
      ∀ m ∈ found, m.length ≤ min (stop - i) maxMatch ∧ Sure bytes i m.length m.distance := by
  rw [Deflate.longestMatch]
  split
  next => exact ⟨none, rfl, by simp⟩
  next hlong =>
    rw [minMatch] at hlong
    have hlong : i + minMatch ≤ bytes.size := by
      rw [minMatch]
      omega
    obtain ⟨b, hb, hlt⟩ := bucketAt_eq_some hlong
    have hhead := h.head
    rw [hb]
    dsimp only
    rw [Array.getElem?_eq_getElem (by omega)]
    dsimp only
    have hbest : minMatch - 1 < min (stop - i) maxMatch := by
      rw [minMatch]
      omega
    have hnone : Sure bytes i (minMatch - 1) 0 := fun habs => absurd habs (by decide)
    obtain ⟨length, distance, hf, hle, hsure⟩ := followChain_spec base effort.enough effort.chain
      chains.head[b] h.previous (by omega : i + min (stop - i) maxMatch ≤ bytes.size) hbest hnone
    rw [hf]
    dsimp only
    split
    next hmin =>
      refine ⟨_, rfl, ?_⟩
      intro m hm
      cases hm
      exact ⟨hle, hsure⟩
    next => exact ⟨none, rfl, by simp⟩

theorem Chains.Sized.longerNext (h : chains.Sized) (effort : Effort) (base : Nat)
    (hs : stop ≤ bytes.size) (found : Match) :
    ∃ b, longerNext effort bytes base chains i stop found = some b := by
  rw [Deflate.longerNext]
  split
  next =>
    obtain ⟨next?, hn, -⟩ := h.longestMatch (i := i + 1) effort base hs
    rw [hn]
    cases next? <;> exact ⟨_, rfl⟩
  next => exact ⟨false, rfl⟩

theorem expandAll_cons {out mid : List UInt8} {token : Token} (h : token.expand out = some mid)
    (tokens : List Token) : expandAll out (token :: tokens) = expandAll mid tokens := by
  rw [expandAll, List.foldlM_cons, h]
  rfl

/-- These tokens can be written, and stand for the bytes from `i` to `stop`. None reaches back by a
whole window, although the format would let it. -/
structure Covers (bytes : Array UInt8) (i stop : Nat) (tokens : List Token) : Prop where
  near : ∀ token ∈ tokens, token.Within (windowSize - 1)
  expands : ∀ before, expandAll (before ++ bytes.toList.take i) tokens =
    some (before ++ bytes.toList.take stop)

theorem Covers.within {tokens : List Token} (h : Covers bytes i stop tokens) :
    ∀ token ∈ tokens, token.Within windowSize := by
  intro token hm
  have hnear := h.near token hm
  cases token with
  | literal => trivial
  | copy length distance =>
    obtain ⟨hmin, hmax, hpos, hle, -⟩ := hnear
    exact ⟨hmin, hmax, hpos, hle, hle⟩

theorem covers_nil (bytes : Array UInt8) (i : Nat) : Covers bytes i i [] :=
  ⟨by simp, fun _ => rfl⟩

theorem Covers.literal {tokens : List Token} (h : Covers bytes (i + 1) stop tokens)
    (hi : i < bytes.size) : Covers bytes i stop (.literal bytes[i] :: tokens) where
  near token hm := by
    obtain rfl | hm := List.mem_cons.mp hm
    · trivial
    · exact h.near token hm
  expands before := by
    have hstep : (Token.literal bytes[i]).expand (before ++ bytes.toList.take i) =
        some (before ++ bytes.toList.take (i + 1)) :=
      congrArg some (take_append_getElem before hi)
    rw [expandAll_cons hstep]
    exact h.expands before

theorem Covers.copy {tokens : List Token} {length distance : Nat}
    (h : Covers bytes (i + length) stop tokens) (hmin : minMatch ≤ length)
    (hmax : length ≤ maxMatch) (hsure : Sure bytes i length distance)
    (hl : i + length ≤ bytes.size) : Covers bytes i stop (.copy length distance :: tokens) := by
  obtain ⟨hd0, hdw, hdi, hrepeats⟩ := hsure hmin
  refine ⟨fun token hm => ?_, fun before => ?_⟩
  · obtain rfl | hm := List.mem_cons.mp hm
    · exact ⟨hmin, hmax, hd0, Nat.le_of_lt hdw, Nat.le_sub_one_of_lt hdw⟩
    · exact h.near token hm
  · have hstep : (Token.copy length distance).expand (before ++ bytes.toList.take i) =
        some (before ++ bytes.toList.take (i + length)) :=
      copyBack_of_repeats before hrepeats hd0 hdi hl
    rw [expandAll_cons hstep]
    exact h.expands before

/-- Every stretch of the window can be split into tokens. -/
theorem tokenize_spec (effort : Effort) (base : Nat) (hc : chains.Sized) (hs : stop ≤ bytes.size)
    (hi : i ≤ stop) (tokens : Array Token) :
    ∃ (new : List Token) (chains' : Chains),
      tokenize effort bytes base stop i chains tokens = some (tokens ++ new, chains') ∧
        chains'.Sized ∧ Covers bytes i stop new := by
  induction hn : stop - i using Nat.strong_induction_on generalizing i chains tokens with
  | _ n ih =>
    rw [tokenize]
    split
    next hlt =>
      have hsize : i < bytes.size := by omega
      obtain ⟨found, hf, hfound⟩ := hc.longestMatch (i := i) effort base hs
      obtain ⟨chains₁, hins, hc₁⟩ := hc.insert bytes base i
      have hliteral : ∃ (new : List Token) (chains' : Chains),
          tokenize effort bytes base stop (i + 1) chains₁ (tokens.push (.literal bytes[i])) =
            some (tokens ++ new, chains') ∧ chains'.Sized ∧ Covers bytes i stop new := by
        obtain ⟨new, chains', ht, hc', hcovers⟩ :=
          ih (stop - (i + 1)) (by omega) hc₁ hlt (tokens.push (.literal bytes[i])) rfl
        exact ⟨.literal bytes[i] :: new, chains', by rw [ht, Array.appendList_cons], hc',
          hcovers.literal hsize⟩
      rw [hf, Array.getElem?_eq_getElem hsize]
      cases found with
      | none =>
        dsimp only
        rw [hins]
        exact hliteral
      | some found =>
        obtain ⟨hle, hsure⟩ := hfound found rfl
        have hmin := found.minMatch_le
        obtain ⟨longer, hlonger⟩ := hc₁.longerNext (i := i) effort base hs found
        dsimp only
        rw [hins]
        dsimp only
        rw [hlonger]
        cases longer with
        | true => exact hliteral
        | false =>
          obtain ⟨chains₂, hrun, hc₂⟩ := hc₁.insertRun bytes base (found.length - 1) (i + 1)
          have hpos : 0 < found.length := Nat.lt_of_lt_of_le (by decide) hmin
          obtain ⟨new, chains', ht, hc', hcovers⟩ :=
            ih (stop - (i + found.length)) (by omega) hc₂ (by omega)
              (tokens.push (.copy found.length found.distance)) rfl
          dsimp only
          rw [hrun]
          dsimp only
          refine ⟨.copy found.length found.distance :: new, chains', ?_, hc', ?_⟩
          · rw [ht, Array.appendList_cons]
          · exact hcovers.copy hmin (Nat.le_trans hle (Nat.min_le_right _ _)) hsure (by omega)
    next hge =>
      have he : i = stop := by omega
      subst he
      exact ⟨[], chains, by rw [Array.appendList_nil], hc, covers_nil bytes i⟩

end Tokens

end Conduit.Deflate
