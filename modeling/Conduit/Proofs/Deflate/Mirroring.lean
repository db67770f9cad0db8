import Conduit.Proofs.Checksum.Splitting
import Conduit.Proofs.Deflate.Reading

namespace Conduit.Deflate

open BitParser Bits Relation

/-- What a stage relies on, with this much history and these bits at hand. -/
def Stage.Sound (reach : Nat) (bits : List Bool) : Stage → Prop
  | .stored _ _ => bits.length % 8 = 0
  | .tokens _ tables => tables.Sound
  | .copying _ tables length distance =>
    tables.Sound ∧ 0 < length ∧ length ≤ maxMatch ∧ 1 ≤ distance ∧ distance ≤ windowSize ∧
      distance ≤ reach
  | _ => True

def Stage.Hungry (reach : Nat) (bits : List Bool) : Stage → Prop
  | .frameHeader => readFrameHeader.Starves bits
  | .blockHead => readBlockHead.Starves bits
  | .stored _ left => 0 < left ∧ bits = []
  | .tokens _ tables => (readToken tables reach).Starves bits
  | .trailer => readTrailer.Starves bits
  | _ => False

def Stage.Emits : Stage → Prop
  | .stored _ _ | .tokens _ _ | .copying _ _ _ _ => True
  | _ => False

/-- The cursor `w` of a call holds `bits`, with `rest` to come, and is where `c` is with all of that
in its reader. The history of `w` up to `base` is from earlier calls, whose output is `before`. -/
structure Mirrors (before : List UInt8) (base : Nat) (rest : List UInt8) (bits : List Bool)
    (c w : Cursor) : Prop where
  holds : w.reader.Holds bits
  whole : c.reader.Holds (bits ++ ofBytes rest)
  stage : c.stage = w.stage
  sound : w.stage.Sound w.history.size bits
  base_le : base ≤ w.history.size
  output : c.history.toList = before ++ w.history.toList.drop base
  history : ∃ dropped : Array UInt8, c.history = dropped ++ w.history ∧
    (dropped = #[] ∨ windowSize ≤ w.history.size)

def Cursor.promise (c : Cursor) : Nat :=
  maxMatch * c.reader.available +
    match c.stage with
    | .copying _ _ length _ => length
    | _ => 0

/-- What does not change during a call: where the whole reading stood at its start, the bits at hand
then, of which the last bytes are offered, the input that comes later, and the output of earlier
calls. -/
structure Call where
  framed : Bool
  origin : Cursor
  supply : List Bool
  offered : Nat
  rest : List UInt8
  before : List UInt8
  base : Nat
  limit : Nat
  bound : Nat

namespace Call

structure At (k : Call) (c w : Cursor) (bits : List Bool) : Prop where
  leads : ReflTransGen (Leads k.framed) k.origin c
  mirrors : Mirrors k.before k.base k.rest bits c w
  suffix : bits <:+ k.supply
  size_le : w.history.size ≤ k.limit
  promise_le : w.promise + w.history.size ≤ k.bound

def Spare (k : Call) (bits : List Bool) : Prop :=
  bits.length < 8 * (k.offered + 1)

/-- The bits at hand are those offered in this call and some from before that did not suffice. -/
def Topped (k : Call) (w : Cursor) (bits : List Bool) : Prop :=
  ∃ kept data, bits = kept ++ ofBytes data ∧ data.length = k.offered ∧
    w.stage.Hungry w.history.size kept

def Stops (k : Call) (w : Cursor) : Pause → Prop
  | .needInput => ∃ c bits, k.At c w bits ∧ w.stage.Hungry w.history.size bits ∧
      (k.rest = [] → tick k.framed c = .stop .needInput c)
  | .full => ∃ c bits, k.At c w bits ∧ k.Spare bits ∧ k.limit ≤ w.history.size ∧
      w.stage.isEnded = false
  | .refused flaw => flaw.Reported ∧ ∃ c d, ReflTransGen (Leads k.framed) k.origin c ∧
      tick k.framed c = .stop (.refused flaw) d ∧ k.before <+: d.history.toList
  | .ended => ∃ c d bits, ReflTransGen (Leads k.framed) k.origin c ∧
      tick k.framed c = .stop .ended d ∧ Mirrors k.before k.base k.rest bits d w ∧
      bits <:+ k.supply ∧ k.Spare bits ∧ w.stage = .ended

def Follows (k : Call) : Flow → Prop
  | .next w => ∃ c bits, k.At c w bits ∧ k.Spare bits
  | .stop pause w => k.Stops w pause

end Call

theorem size_append_list (history : Array UInt8) (bytes : List UInt8) :
    (history ++ bytes).size = history.size + bytes.length := by
  rw [← Array.length_toList, Array.toList_appendList, List.length_append, Array.length_toList]

theorem toList_extract_size (history : Array UInt8) (base : Nat) :
    (history.extract base history.size).toList = history.toList.drop base := by
  rw [Array.toList_extract, List.extract_eq_take_drop]
  exact List.take_of_length_le (by simp)

variable {k : Call} {c w : Cursor} {bits : List Bool} {reader : BitReader} {stage : Stage}
  {history : Array UInt8} {before rest : List UInt8} {base : Nat}

theorem Mirrors.extended (h : Mirrors before base rest bits c w) {bits' : List Bool}
    {r r' : BitReader} {stage : Stage} (hr : r.Holds bits') (hr' : r'.Holds (bits' ++ ofBytes rest))
    (added : List UInt8) (hs : stage.Sound (w.history.size + added.length) bits') :
    Mirrors before base rest bits' ⟨r', stage, c.history ++ added⟩
      ⟨r, stage, w.history ++ added⟩ where
  holds := hr
  whole := hr'
  stage := rfl
  sound := by rwa [size_append_list]
  base_le := h.base_le.trans (by rw [size_append_list]; exact Nat.le_add_right _ _)
  output := by
    have hb := h.base_le
    rw [Array.toList_appendList, Array.toList_appendList, h.output,
      List.drop_append_of_le_length (by simpa using hb), List.append_assoc]
  history := by
    obtain ⟨dropped, he, hd⟩ := h.history
    refine ⟨dropped, ?_, hd.imp_right fun hw => ?_⟩
    swap
    · rw [size_append_list]
      exact hw.trans (Nat.le_add_right _ _)
    rw [he]
    apply Array.toList_inj.mp
    simp

theorem Mirrors.moved (h : Mirrors before base rest bits c w) {bits' : List Bool}
    {r r' : BitReader} {stage : Stage} (hr : r.Holds bits') (hr' : r'.Holds (bits' ++ ofBytes rest))
    (hs : stage.Sound w.history.size bits') :
    Mirrors before base rest bits' ⟨r', stage, c.history⟩ ⟨r, stage, w.history⟩ := by
  simpa using h.extended hr hr' [] hs

theorem Mirrors.eq_mk (h : Mirrors before base rest bits c w) :
    c = ⟨c.reader, w.stage, c.history⟩ := by
  cases c
  exact congrArg (Cursor.mk _ · _) h.stage

theorem Mirrors.tick_eq (h : Mirrors before base rest bits c w) (framed : Bool) :
    tick framed c = step framed .start 0 (c.history.size + 1) ⟨c.reader, w.stage, c.history⟩ := by
  conv_lhs => rw [h.eq_mk]
  rfl

theorem Mirrors.min_size (h : Mirrors before base rest bits c w) :
    min c.history.size windowSize = min w.history.size windowSize := by
  obtain ⟨dropped, he, rfl | hd⟩ := h.history
  · simp [he]
  · rw [he, Array.size_append]
    omega

theorem sound_afterBlock (framed last : Bool) (reach : Nat) (bits : List Bool) :
    (Stage.afterBlock framed last).Sound reach bits := by
  cases framed <;> cases last <;> exact trivial

theorem promise_afterBlock (reader : BitReader) (framed last : Bool) (history : Array UInt8) :
    (⟨reader, .afterBlock framed last, history⟩ : Cursor).promise =
      maxMatch * reader.available := by
  cases framed <;> cases last <;> rfl

section Reading

variable {α : Type} {p : Parser α} {post : α → Prop} {next next' : α → BitReader → Flow}

theorem length_lt_of_topped (hp : Incremental p) (hk : k.Spare bits ∨
    ∃ kept data, bits = kept ++ ofBytes data ∧ data.length = k.offered ∧ p.Starves kept) {a : α}
    {after : List Bool} (hl : after.length ≤ bits.length) (hy : p.Yields bits a after) :
    k.Spare after := by
  obtain hk | ⟨kept, data, rfl, hd, hs⟩ := hk
  · exact hl.trans_lt hk
  · have := hp.length_lt_of_starves hs hy
    rw [Call.Spare]
    omega

theorem Call.At.reading (h : k.At c w bits) (hp : Incremental p)
    (hm : Meets p post Flaw.Grammatical)
    (hk : k.Spare bits ∨
      ∃ kept data, bits = kept ++ ofBytes data ∧ data.length = k.offered ∧ p.Starves kept)
    (hungry : p.Starves bits → w.stage.Hungry w.history.size bits)
    (htick : tick k.framed c = Cursor.reading ⟨c.reader, w.stage, c.history⟩ p next')
    (hnext : ∀ a r r' after, p w.reader = .value a r → post a → r.Holds after →
      r'.Holds (after ++ ofBytes k.rest) → after <:+ k.supply → k.Spare after →
      tick k.framed c = next' a r' → k.Follows (next a r)) :
    k.Follows (w.reading p next) := by
  rw [Cursor.reading] at htick ⊢
  obtain ⟨a, r, r', after, hw, hc, hr, hr', hl, hy⟩ | ⟨r, hw, hs, hc⟩ | ⟨flaw, r, r', hw, hc⟩ :=
    hp.beside h.mirrors.holds h.mirrors.whole
  · rw [hw]
    rw [hc] at htick
    exact hnext a r r' after hw ((hm w.reader).1 a r hw) hr hr' (hl.trans h.suffix)
      (length_lt_of_topped hp hk hl.length_le hy) htick
  · rw [hw]
    refine ⟨c, bits, h, hungry hs, fun hrest => ?_⟩
    obtain ⟨r', hr'⟩ := hc hrest
    rw [htick, hr']
    exact congrArg (Flow.stop .needInput) h.mirrors.eq_mk.symm
  · rw [hw]
    rw [hc] at htick
    refine ⟨((hm w.reader).2 flaw r hw).1, c, _, h.leads, htick, ?_⟩
    exact ⟨_, h.mirrors.output.symm⟩

end Reading

/-- A copy within reach finds its bytes, and whatever lies further back does not matter. -/
theorem extend_of_le {distance : Nat} (n : Nat) {history : Array UInt8} (h0 : 1 ≤ distance)
    (hd : distance ≤ history.size) :
    ∃ bytes : List UInt8, bytes.length = n ∧ ∀ dropped : Array UInt8,
      extend distance n (dropped ++ history) = some (dropped ++ (history ++ bytes)) := by
  induction n generalizing history with
  | zero => exact ⟨[], rfl, fun dropped => by simp [extend]⟩
  | succ n ih =>
    have hi : history.size - distance < history.size := by omega
    have hd' : distance ≤ (history.push history[history.size - distance]).size := by
      rw [Array.size_push]
      omega
    obtain ⟨bytes, hl, he⟩ := ih hd'
    refine ⟨history[history.size - distance] :: bytes, by rw [List.length_cons, hl], ?_⟩
    intro dropped
    have hget : (dropped ++ history)[(dropped ++ history).size - distance]? =
        some history[history.size - distance] := by
      have hback : dropped.size + history.size - distance - dropped.size =
          history.size - distance := by omega
      rw [Array.size_append, Array.getElem?_append_right (by omega), hback,
        Array.getElem?_eq_getElem hi]
    rw [extend, hget]
    dsimp only
    rw [Array.push_append, he dropped, Array.appendList_cons]

section Step

variable {last : Bool} {tables : Tables} {left length distance : Nat}

theorem Call.At.follows_of_copying
    (h : k.At c ⟨reader, .copying last tables length distance, history⟩ bits) (hk : k.Spare bits)
    (sum : Adler) :
    k.Follows (step k.framed sum k.base k.limit
      ⟨reader, .copying last tables length distance, history⟩) := by
  obtain ⟨ht, h0, hm, hd1, hdw, hd⟩ := h.mirrors.sound
  obtain ⟨dropped, hdrop, hwin⟩ := h.mirrors.history
  have hsize := h.size_le
  have hpromise := h.promise_le
  simp only [Cursor.promise] at hd hsize hpromise hdrop
  obtain ⟨bytes, hl, he⟩ := extend_of_le (min length (k.limit - history.size)) hd1 hd
  have hw : extend distance (min length (k.limit - history.size)) history =
      some (history ++ bytes) := by
    simpa using he #[]
  have hc : extend distance (min length (k.limit - history.size)) c.history =
      some (c.history ++ bytes) := by
    rw [hdrop, he dropped]
    congr 1
    apply Array.toList_inj.mp
    simp
  rw [step, hw]
  have hleads := leads_copying k.framed last tables c.reader h0 (Nat.min_le_left _ _) hc
  rw [← h.mirrors.eq_mk] at hleads
  dsimp only
  split
  next hlt =>
    rw [if_pos hlt] at hleads
    refine ⟨_, bits, ⟨h.leads.trans hleads, h.mirrors.extended h.mirrors.holds h.mirrors.whole bytes
      ⟨ht, Nat.sub_pos_of_lt hlt, (Nat.sub_le _ _).trans hm, hd1, hdw, ?_⟩, h.suffix, ?_, ?_⟩, hk,
      ?_, rfl⟩
    · exact Nat.le_add_right_of_le hd
    · simp only [size_append_list]
      omega
    · simp only [Cursor.promise, size_append_list]
      omega
    · simp only [size_append_list]
      omega
  next hlt =>
    rw [if_neg hlt] at hleads
    refine ⟨_, bits, ⟨h.leads.trans hleads, h.mirrors.extended h.mirrors.holds h.mirrors.whole bytes
      ht, h.suffix, ?_, ?_⟩, hk⟩
    · simp only [size_append_list]
      omega
    · simp only [Cursor.promise, size_append_list]
      omega

theorem Call.At.copied {data : List UInt8} {n : Nat} {byte : UInt8} {bytes : List UInt8}
    {rest : BitReader}
    (h : k.At c ⟨reader, .stored last left, history⟩ (ofBytes data)) (hk : k.Spare (ofBytes data))
    (hn : n ≤ left) (hlimit : history.size + n ≤ k.limit) (htake : data.take n = byte :: bytes)
    (hrest : rest.Holds (ofBytes (data.drop n))) :
    k.Follows (.next
      ⟨rest, .stored last (left - (bytes.length + 1)), history ++ (byte :: bytes)⟩) := by
  have hpromise := h.promise_le
  have hav := h.mirrors.holds.available
  have hav' := hrest.available
  have hlen := congrArg List.length htake
  simp only [List.length_take, List.length_cons] at hlen
  simp only [length_ofBytes, List.length_drop] at hav hav'
  have hwhole := h.mirrors.whole
  rw [← List.take_append_drop n data, htake, ← ofBytes_append, List.append_assoc] at hwhole
  have hle : (byte :: bytes).length ≤ left := by
    rw [List.length_cons]
    omega
  obtain ⟨r', hr', hleads⟩ := leads_stored k.framed last c.history (byte :: bytes)
    (data.drop n ++ k.rest) hwhole hle
  rw [← h.mirrors.eq_mk] at hleads
  refine ⟨_, _, ⟨h.leads.trans hleads, h.mirrors.extended hrest (by rwa [← ofBytes_append])
    (byte :: bytes) ?_, ?_, ?_, ?_⟩, ?_⟩
  · exact Nat.mod_eq_zero_of_dvd ⟨_, length_ofBytes _⟩
  · rw [← drop_ofBytes]
    exact (List.drop_suffix _ _).trans h.suffix
  · rw [size_append_list, List.length_cons]
    omega
  · simp only [Cursor.promise, hav, maxMatch] at hpromise
    simp only [Cursor.promise, size_append_list, List.length_cons, hav', maxMatch]
    omega
  · rw [Call.Spare, length_ofBytes] at hk ⊢
    rw [List.length_drop]
    omega

theorem Call.At.follows_of_stored (h : k.At c ⟨reader, .stored last left, history⟩ bits)
    (hk : k.Spare bits ∨
      (history.size < k.limit ∧ k.Topped ⟨reader, .stored last left, history⟩ bits))
    (sum : Adler) :
    k.Follows (step k.framed sum k.base k.limit ⟨reader, .stored last left, history⟩) := by
  have hcs := h.mirrors.eq_mk
  obtain ⟨data, rfl⟩ := exists_ofBytes h.mirrors.sound
  have hspare : k.Spare (ofBytes data) := by
    obtain hk | ⟨-, kept, more, hb, hm, -, hkept⟩ := hk
    · exact hk
    · rw [Call.Spare, hb, hkept, List.nil_append, length_ofBytes]
      omega
  rw [step]
  split
  next h0 =>
    have ht : tick k.framed c = .next ⟨c.reader, .afterBlock k.framed last, c.history⟩ := by
      rw [hcs, tick, step, if_pos h0]
    refine ⟨_, _, ⟨h.leads.tail (Or.inl ht), h.mirrors.moved h.mirrors.holds h.mirrors.whole
      (sound_afterBlock _ _ _ _), h.suffix, h.size_le, ?_⟩, hspare⟩
    rw [promise_afterBlock]
    exact h.promise_le
  next h0 =>
    split
    next hfull => exact ⟨c, _, h, hspare, hfull, rfl⟩
    next hroom =>
      have hlt : history.size < k.limit := Nat.not_le.mp hroom
      obtain ⟨rest, hc, hrest⟩ := h.mirrors.holds.copyBytes (min (k.limit - history.size) left)
      simp only at hc
      rw [hc]
      cases htake : data.take (min (k.limit - history.size) left) with
      | nil =>
        have hdata : data = [] := (List.take_eq_nil_iff.mp htake).resolve_left (by omega)
        subst hdata
        refine ⟨c, _, h, ⟨Nat.pos_of_ne_zero h0, rfl⟩, fun hr => ?_⟩
        have hwhole := h.mirrors.whole
        rw [hr] at hwhole
        rw [hcs]
        exact tick_stored_nil k.framed last c.history h0 hwhole
      | cons byte bytes =>
        exact h.copied hspare (Nat.min_le_right _ _) (by omega) htake hrest

theorem Call.At.follows_of_frameHeader (h : k.At c ⟨reader, .frameHeader, history⟩ bits)
    (hk : k.Spare bits ∨ k.Topped ⟨reader, .frameHeader, history⟩ bits) (sum : Adler) :
    k.Follows (step k.framed sum k.base k.limit ⟨reader, .frameHeader, history⟩) := by
  have hpromise := h.promise_le
  have htick := (h.mirrors.tick_eq k.framed).trans (step_frameHeader _ _ _ _ _ _)
  rw [step_frameHeader]
  apply h.reading incremental_readFrameHeader meets_readFrameHeader hk (fun hs => hs) htick
  intro _ r r' after hw _ hr hr' hsuffix hspare ht
  have := consumes_readFrameHeader reader _ r hw
  refine ⟨_, after, ⟨h.leads.tail (Or.inl ht), h.mirrors.moved hr hr' trivial, hsuffix,
    h.size_le, ?_⟩, hspare⟩
  simp only [Cursor.promise, maxMatch] at hpromise ⊢
  omega

theorem Call.At.follows_of_blockHead (h : k.At c ⟨reader, .blockHead, history⟩ bits)
    (hk : k.Spare bits ∨ k.Topped ⟨reader, .blockHead, history⟩ bits) (sum : Adler) :
    k.Follows (step k.framed sum k.base k.limit ⟨reader, .blockHead, history⟩) := by
  have hpromise := h.promise_le
  have htick := (h.mirrors.tick_eq k.framed).trans (step_blockHead _ _ _ _ _ _)
  rw [step_blockHead]
  apply h.reading incremental_readBlockHead meets_readBlockHead hk (fun hs => hs) htick
  rintro ⟨last, head⟩ r r' after hw hsound hr hr' hsuffix hspare ht
  have := consumes_readBlockHead reader _ r hw
  have hstage : (head.stage last).Sound history.size after := by
    cases head with
    | stored length =>
      have := position_readBlockHead hw
      have := hr.position_mod
      simp only [BlockHead.stage, Stage.Sound]
      omega
    | coded tables => exact hsound
  refine ⟨_, after, ⟨h.leads.tail (Or.inl ht), h.mirrors.moved hr hr' hstage, hsuffix,
    h.size_le, ?_⟩, hspare⟩
  cases head <;>
  · simp only [Cursor.promise, BlockHead.stage, maxMatch] at hpromise ⊢
    omega

theorem Call.At.follows_of_tokens (h : k.At c ⟨reader, .tokens last tables, history⟩ bits)
    (hk : k.Spare bits ∨
      (history.size < k.limit ∧ k.Topped ⟨reader, .tokens last tables, history⟩ bits))
    (sum : Adler) :
    k.Follows (step k.framed sum k.base k.limit ⟨reader, .tokens last tables, history⟩) := by
  have hsize := h.size_le
  have hpromise := h.promise_le
  by_cases hroom : history.size < k.limit
  · rw [step_tokens _ _ _ _ _ _ _ _ hroom]
    have htick := (h.mirrors.tick_eq k.framed).trans
      (step_tokens _ _ _ _ _ _ _ _ (Nat.lt_succ_self _))
    rw [readToken_congr tables h.mirrors.min_size] at htick
    refine h.reading (incremental_readToken tables _) (meets_readToken h.mirrors.sound _)
      (hk.imp_right And.right) (fun hs => hs) htick ?_
    · intro token r r' after hw htoken hr hr' hsuffix hspare ht
      have := consumes_readToken tables _ reader _ r hw
      have hl := h.leads.tail (Or.inl ht)
      simp only [Cursor.promise, maxMatch] at hpromise hsize
      match token with
      | none =>
        refine ⟨_, after, ⟨hl, h.mirrors.moved hr hr' (sound_afterBlock _ _ _ _), hsuffix, hsize,
          ?_⟩, hspare⟩
        simp only [afterToken, promise_afterBlock, maxMatch]
        omega
      | some (.literal byte) =>
        refine ⟨_, after, ⟨hl, h.mirrors.extended hr hr' [byte] h.mirrors.sound, hsuffix, ?_,
          ?_⟩, hspare⟩
        · simp only [afterToken, Array.size_push]
          omega
        · simp only [afterToken, Cursor.promise, Array.size_push, maxMatch]
          omega
      | some (.copy length distance) =>
        obtain ⟨hmin, hmax, hd0, hdw, hd⟩ := htoken _ rfl
        refine ⟨_, after, ⟨hl, h.mirrors.moved hr hr'
          ⟨h.mirrors.sound, ?_, hmax, hd0, hdw, hd⟩, hsuffix, hsize, ?_⟩, hspare⟩
        · exact Nat.lt_of_lt_of_le (by decide) hmin
        · simp only [afterToken, Cursor.promise, maxMatch] at hmax ⊢
          omega
  · rw [step, if_pos (Nat.not_lt.mp hroom)]
    refine ⟨c, bits, h, ?_, Nat.not_lt.mp hroom, rfl⟩
    exact hk.resolve_right fun hk => hroom hk.1

theorem Call.At.follows_of_trailer (h : k.At c ⟨reader, .trailer, history⟩ bits)
    (hk : k.Spare bits ∨ k.Topped ⟨reader, .trailer, history⟩ bits) :
    k.Follows (step k.framed (Adler.start.update k.before) k.base k.limit
      ⟨reader, .trailer, history⟩) := by
  have htick := (h.mirrors.tick_eq k.framed).trans (step_trailer _ _ _ _ _ _)
  have hsum : Adler.start.update (c.history.extract 0 c.history.size).toList =
      (Adler.start.update k.before).update (history.extract k.base history.size).toList := by
    rw [← Adler.update_append_start, Array.extract_size, h.mirrors.output, toList_extract_size]
  rw [step_trailer]
  apply h.reading incremental_readTrailer meets_readTrailer hk (fun hs => hs) htick
  intro expected r r' after hw _ hr hr' hsuffix hspare ht
  rw [hsum] at ht
  split
  next he =>
    rw [if_pos he] at ht
    exact ⟨c, _, after, h.leads, ht, h.mirrors.moved hr hr' trivial, hsuffix, hspare, rfl⟩
  next he =>
    rw [if_neg he] at ht
    exact ⟨by decide, c, _, h.leads, ht, _, h.mirrors.output.symm⟩

/-- Every step of a call does what some steps of the whole reading do. -/
theorem Call.At.follows (h : k.At c w bits)
    (hk : k.Spare bits ∨ ((w.stage.Emits → w.history.size < k.limit) ∧ k.Topped w bits)) :
    k.Follows (step k.framed (Adler.start.update k.before) k.base k.limit w) := by
  obtain ⟨reader, stage, history⟩ := w
  cases stage with
  | frameHeader => exact h.follows_of_frameHeader (hk.imp_right And.right) _
  | blockHead => exact h.follows_of_blockHead (hk.imp_right And.right) _
  | stored last left => exact h.follows_of_stored (hk.imp_right (And.imp_left (· trivial))) _
  | tokens last tables => exact h.follows_of_tokens (hk.imp_right (And.imp_left (· trivial))) _
  | copying last tables length distance =>
    refine h.follows_of_copying (hk.resolve_right ?_) _
    rintro ⟨-, kept, data, -, -, hf⟩
    exact hf
  | trailer => exact h.follows_of_trailer (hk.imp_right And.right)
  | ended =>
    have hspare : k.Spare bits := hk.resolve_right (by rintro ⟨-, kept, data, -, -, hf⟩; exact hf)
    have ht : tick k.framed c = .stop .ended c := by
      rw [h.mirrors.eq_mk]
      rfl
    exact ⟨c, c, bits, h.leads, ht, h.mirrors, h.suffix, hspare, rfl⟩

theorem Call.At.stops (h : k.At c w bits)
    (hk : k.Spare bits ∨ ((w.stage.Emits → w.history.size < k.limit) ∧ k.Topped w bits)) :
    k.Stops (run k.framed (Adler.start.update k.before) k.base k.limit w).2
      (run k.framed (Adler.start.update k.before) k.base k.limit w).1 := by
  induction hn : w.work using Nat.strong_induction_on generalizing c w bits with
  | _ n ih =>
    have hf := h.follows hk
    rw [run]
    split
    next d hd =>
      rw [hd] at hf
      obtain ⟨c', bits', h', hspare⟩ := hf
      exact ih d.work (hn ▸ work_lt_of_step hd) h' (Or.inl hspare) rfl
    next pause d hd =>
      rw [hd] at hf
      exact hf

end Step

end Conduit.Deflate
