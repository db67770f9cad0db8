import Conduit.Proofs.Deflate.Phases
import Conduit.Proofs.Deflate.Retaining

namespace Conduit.Deflate

section Faithful

theorem expandAll_append (out : List UInt8) (tokens more : List Token) :
    expandAll out (tokens ++ more) = (expandAll out tokens).bind (expandAll · more) :=
  List.foldlM_append

theorem distance_le_of_copyBack {distance length : Nat} {out after : List UInt8} (hl : 0 < length)
    (h : copyBack distance length out = some after) : distance ≤ out.length := by
  cases length with
  | zero => contradiction
  | succ n =>
    rw [copyBack] at h
    split at h
    next hd => exact hd.2
    next => cases h

/-- The tokens stand for `data` behind `before`. Their copies have lengths that the format has,
distances that fit a window and more, and start within what the earlier tokens leave. -/
structure Faithful (before data : List UInt8) (tokens : List Token) : Prop where
  expands : expandAll before tokens = some (before ++ data)
  copies : ∀ earlier length distance later, tokens = earlier ++ .copy length distance :: later →
    3 ≤ length ∧ length ≤ 258 ∧ 1 ≤ distance ∧ distance ≤ 32767 ∧
      ∃ out, expandAll before earlier = some out ∧ distance ≤ out.length

theorem Covers.faithful {bytes : Array UInt8} {i stop : Nat} {tokens : List Token}
    (h : Covers bytes i stop tokens) {data : List UInt8}
    (hd : bytes.toList.take i ++ data = bytes.toList.take stop) (before : List UInt8) :
    Faithful (before ++ bytes.toList.take i) data tokens := by
  have hexpands := h.expands before
  rw [← hd, ← List.append_assoc] at hexpands
  refine ⟨hexpands, ?_⟩
  rintro earlier length distance later rfl
  obtain ⟨hmin, hmax, hpos, -, hnear⟩ :=
    h.near (.copy length distance) (List.mem_append_right _ List.mem_cons_self)
  refine ⟨hmin, hmax, hpos, hnear, ?_⟩
  rw [expandAll_append] at hexpands
  obtain ⟨out, hearlier, hrest⟩ := Option.bind_eq_some_iff.mp hexpands
  obtain ⟨after, hcopy, -⟩ := Option.bind_eq_some_iff.mp hrest
  exact ⟨out, hearlier, distance_le_of_copyBack (Nat.lt_of_lt_of_le (by decide) hmin) hcopy⟩

end Faithful

section Rest

/-- The part of the window that no block stands for. -/
def Window.rest (w : Window) : List UInt8 :=
  w.bytes.toList.drop w.cursor

variable {w : Window}

theorem Window.length_rest (w : Window) : w.rest.length = w.pending := by
  rw [rest, List.length_drop, Array.length_toList, pending]

theorem Window.rest_eq_nil (h : w.pending = 0) : w.rest = [] :=
  List.length_eq_zero_iff.mp (w.length_rest.trans h)

def Window.absorb (w : Window) (input : List UInt8) : Window :=
  { w with bytes := w.bytes ++ input.take (blockSize - w.pending) }

theorem Window.cursor_le_absorb (h : w.cursor ≤ w.bytes.size) (input : List UInt8) :
    (w.absorb input).cursor ≤ (w.absorb input).bytes.size := by
  rw [← Array.length_toList, absorb, Array.toList_appendList, List.length_append,
    Array.length_toList]
  exact Nat.le_add_right_of_le h

theorem Window.rest_absorb (h : w.cursor ≤ w.bytes.size) (input : List UInt8) :
    (w.absorb input).rest = w.rest ++ input.take (blockSize - w.pending) := by
  rw [rest, rest, absorb, Array.toList_appendList]
  exact List.drop_append_of_le_length (by rwa [Array.length_toList])

end Rest

/-- What a call splits: the rest of a window, with the chains to search. -/
structure Portion where
  window : Window
  chains : Chains

namespace Portion

def data (p : Portion) : List UInt8 :=
  p.window.rest

def tokenize? (level : Nat) (p : Portion) : Option (Array Token × Chains) :=
  tokenize (.ofLevel level) p.window.bytes p.window.base (p.window.cursor + p.window.pending)
    p.window.cursor p.chains #[]

def chainsAfter (level : Nat) (p : Portion) : Chains :=
  ((p.tokenize? level).map Prod.snd).getD .empty

end Portion

/-- The rest of a draft can be split, behind any account of what came before it. -/
theorem Draft.Sound.faithful {d : Draft} {input encoded : List UInt8} (h : d.Sound input)
    (he : encoded ++ d.window.rest = input) (level : Nat) :
    ∃ tokens chains, Portion.tokenize? level ⟨d.window, d.chains⟩ = some (tokens, chains) ∧
      Faithful encoded d.window.rest tokens.toList := by
  obtain ⟨dropped, hinput, -⟩ := h.adds
  obtain ⟨⟨bytes, base, cursor⟩, chains, blocks⟩ := d
  have hstop := h.cursor_add_pending
  -- the same rest stands behind both, so the account ends with the history in the window
  have hencoded : encoded = dropped ++ bytes.toList.take cursor := by
    apply List.append_cancel_right
    rw [he, ← hinput, List.append_assoc, Window.rest, List.take_append_drop]
  obtain ⟨new, chains', htokens, -, hcovers⟩ :=
    tokenize_spec (.ofLevel level) base h.sized hstop.le (Nat.le_add_right _ _) #[]
  refine ⟨_, chains', htokens, ?_⟩
  have hlist : ((#[] : Array Token) ++ new).toList = new := by simp
  rw [hlist, hencoded]
  apply hcovers.faithful
  rw [hstop, Window.rest, List.take_append_drop, List.take_of_length_le]
  rw [Array.length_toList]

namespace Compressor

/-- The portion that a call splits: what is left when the end is asked for, or the block that its
input completes. -/
def portion? (c : Compressor) (input : List UInt8) (room : Nat) : Option Portion :=
  if c.phase = .gathering then
    if input = [] then some ⟨c.window, c.chains⟩
    else if (c.drain room).2.backlog = 0 ∧ (c.window.absorb input).pending = blockSize then
      some ⟨c.window.absorb input, c.chains⟩
    else none
  else none

variable {c c' : Compressor} {input : List UInt8} {room : Nat} {p : Portion} {chains' : Chains}

theorem gather_eq_absorb (c : Compressor) (input : List UInt8) :
    c.gather input =
      if (c.window.absorb input).pending = blockSize then
        match writeNext c.level (c.window.absorb input) c.chains c.writer blockSize false with
        | none => (.error .outOfRange, start c.level c.framed)
        | some (window, chains, writer) =>
          (.ok (input.take (blockSize - c.window.pending)).length,
            { c with
              window, chains, writer
              sum := c.sum.update (input.take (blockSize - c.window.pending)) })
      else
        (.ok (input.take (blockSize - c.window.pending)).length,
          { c with
            window := c.window.absorb input
            sum := c.sum.update (input.take (blockSize - c.window.pending)) }) := rfl

section Calls

theorem phase_of_portion (h : c.portion? input room = some p) : c.phase = .gathering := by
  by_contra hphase
  rw [portion?, if_neg hphase] at h
  cases h

theorem process_nil (h : c.phase = .gathering) (room : Nat) :
    c.process [] room = (c.drain room).2.finish (c.drain room).1 room := by
  rw [process, h]

theorem process_ne_nil (h : c.phase = .gathering) (hne : input ≠ []) (room : Nat) :
    c.process input room = (c.drain room).2.take (c.drain room).1 input room := by
  obtain ⟨byte, rest, rfl⟩ := List.exists_cons_of_ne_nil hne
  rw [process, h]

end Calls

section Chains

theorem chains_of_settle (c : Compressor) (output : List UInt8) :
    (c.settle output).2.chains = c.chains := by
  rw [settle]
  split <;> rfl

theorem chains_of_writeNext {level n : Nat} {window : Window} (hl : level ≠ 0)
    (hn : window.pending = n) (chains : Chains) (writer : BitWriter) (last : Bool) :
    (writeNext level window chains writer n last).elim .empty (·.2.1) =
      Portion.chainsAfter level ⟨window, chains⟩ := by
  rw [Portion.chainsAfter, Portion.tokenize?, hn, writeNext, if_neg hl]
  dsimp only
  cases tokenize (.ofLevel level) window.bytes window.base (window.cursor + n) window.cursor chains
    #[] <;> rfl

theorem chains_of_gather (hl : c.level ≠ 0) (input : List UInt8) :
    (c.gather input).2.chains =
      if (c.window.absorb input).pending = blockSize then
        Portion.chainsAfter c.level ⟨c.window.absorb input, c.chains⟩
      else c.chains := by
  rw [gather_eq_absorb]
  split
  next hfull =>
    rw [← chains_of_writeNext hl hfull c.chains c.writer false]
    cases writeNext c.level (c.window.absorb input) c.chains c.writer blockSize false <;> rfl
  next => rfl

theorem chains_of_close (hl : c.level ≠ 0) :
    c.close.2.chains = Portion.chainsAfter c.level ⟨c.window, c.chains⟩ := by
  rw [close, ← chains_of_writeNext hl rfl c.chains c.writer true]
  dsimp only
  cases writeNext c.level c.window c.chains c.writer c.window.pending true <;> rfl

theorem chains_of_take (output input : List UInt8) (room : Nat) :
    (c.take output input room).2.chains =
      if c.phase ≠ .draining ∧ c.backlog = 0 then (c.gather input).2.chains else c.chains := by
  rw [take]
  cases hphase : c.phase with
  | draining => rfl
  | _ =>
    dsimp only
    by_cases h0 : c.backlog = 0
    · rw [if_neg (by omega), if_pos ⟨by decide, h0⟩]
      rcases c.gather input with ⟨_ | _, c'⟩ <;> rfl
    · rw [if_pos (Nat.pos_of_ne_zero h0), if_neg (fun h => h0 h.2)]

theorem chains_of_finish (output : List UInt8) (room : Nat) :
    (c.finish output room).2.chains =
      if c.phase = .gathering then c.close.2.chains else c.chains := by
  rw [finish]
  cases hphase : c.phase with
  | gathering =>
    rcases c.close with ⟨_ | _, c'⟩
    · rfl
    · exact chains_of_settle _ _
  | _ => exact chains_of_settle _ _

/-- What a call leaves of the chains is what the search leaves, if there is a search. -/
theorem chains_of_process (hl : c.level ≠ 0) (input : List UInt8) (room : Nat) :
    (c.process input room).2.chains =
      (c.portion? input room).elim c.chains (Portion.chainsAfter c.level) := by
  rw [portion?]
  cases hphase : c.phase with
  | ended =>
    rw [process_of_ended hphase]
    rfl
  | draining =>
    have hdrained : (c.drain room).2.phase = .draining := hphase
    rw [process, hphase]
    cases input with
    | nil =>
      dsimp only
      rw [chains_of_finish, hdrained]
      rfl
    | cons byte rest =>
      dsimp only
      rw [chains_of_take, hdrained]
      rfl
  | gathering =>
    have hdrained : (c.drain room).2.phase = .gathering := hphase
    by_cases hnil : input = []
    · subst hnil
      rw [process_nil hphase, chains_of_finish, hdrained]
      exact chains_of_close hl
    · have hgather : ((c.drain room).2.gather input).2.chains =
          if (c.window.absorb input).pending = blockSize then
            Portion.chainsAfter c.level ⟨c.window.absorb input, c.chains⟩
          else c.chains := chains_of_gather (c := (c.drain room).2) hl input
      rw [process_ne_nil hphase hnil, chains_of_take, hdrained, if_pos rfl, if_neg hnil]
      by_cases h0 : (c.drain room).2.backlog = 0
      · rw [if_pos ⟨by decide, h0⟩, hgather]
        by_cases hfull : (c.window.absorb input).pending = blockSize
        · rw [if_pos hfull, if_pos ⟨h0, hfull⟩]
          rfl
        · rw [if_neg hfull, if_neg (fun h => hfull h.2)]
          rfl
      · rw [if_neg (fun h => h0 h.2), if_neg (fun h => h0 h.1)]
        rfl

end Chains

section Rest

theorem rest_of_writeNext {level n : Nat} {window window' : Window} {chains : Chains}
    {writer writer' : BitWriter} {last : Bool} (hn : window.pending = n)
    (hle : window.cursor ≤ window.bytes.size)
    (h : writeNext level window chains writer n last = some (window', chains', writer')) :
    window'.rest = [] := by
  have hstop : window.cursor + n ≤ window.bytes.size := by
    rw [Window.pending] at hn
    omega
  have hwindow : window' = ({ window with cursor := window.cursor + n } : Window).trim := by
    rw [writeNext] at h
    split at h
    next =>
      cases h
      rfl
    next =>
      split at h <;> cases h
      rfl
  apply Window.rest_eq_nil
  rw [hwindow, Draft.pending_advance _ hstop]
  exact Nat.sub_eq_zero_of_le hn.le

theorem rest_of_gather {n : Nat} (hle : c.window.cursor ≤ c.window.bytes.size)
    (h : c.gather input = (.ok n, c')) :
    (c.window.absorb input).rest = c.window.rest ++ input.take n ∧
      c'.window.rest = if (c.window.absorb input).pending = blockSize then []
        else (c.window.absorb input).rest := by
  have htake : input.take (input.take (blockSize - c.window.pending)).length =
      input.take (blockSize - c.window.pending) := by
    apply List.take_eq_take_iff.mpr
    simp
  rw [gather_eq_absorb] at h
  split at h
  next hfull =>
    split at h
    next => cases h
    next hwrite =>
      cases h
      refine ⟨?_, ?_⟩
      · rw [htake, Window.rest_absorb hle]
      · rw [if_pos hfull]
        exact rest_of_writeNext hfull (Window.cursor_le_absorb hle input) hwrite
  next hpart =>
    cases h
    exact ⟨by rw [htake, Window.rest_absorb hle], by rw [if_neg hpart]⟩

theorem rest_of_take {step : Step} (hphase : c.phase = .gathering) (hne : input ≠ [])
    (hle : c.window.cursor ≤ c.window.bytes.size)
    (h : c.process input room = (.ok step, c')) :
    (c.portion? input room).elim (c'.window.rest = c.window.rest ++ input.take step.consumed)
      fun p => p.data = c.window.rest ++ input.take step.consumed ∧ c'.window.rest = [] := by
  have hdrained : (c.drain room).2.phase = .gathering := hphase
  rw [process_ne_nil hphase hne, take, hdrained] at h
  dsimp only at h
  rw [portion?, if_pos hphase, if_neg hne]
  split at h
  next hwait =>
    cases h
    rw [if_neg (by omega)]
    simp only [List.take_zero, List.append_nil]
    rfl
  next h0 =>
    split at h
    next => cases h
    next n c₁ hgather =>
      cases h
      obtain ⟨habsorb, hrest⟩ := rest_of_gather (c := (c.drain room).2) hle hgather
      by_cases hfull : (c.window.absorb input).pending = blockSize
      · rw [if_pos ⟨Nat.eq_zero_of_not_pos h0, hfull⟩]
        refine ⟨habsorb, ?_⟩
        exact hrest.trans (if_pos hfull)
      · rw [if_neg (fun h => hfull h.2)]
        exact (hrest.trans (if_neg hfull)).trans habsorb

end Rest

theorem phase_of_not_gathering (h : c.phase ≠ .gathering) (input : List UInt8) (room : Nat) :
    (c.process input room).2.phase ≠ .gathering := by
  cases hphase : c.phase with
  | gathering => contradiction
  | ended => rwa [process_of_ended hphase]
  | draining =>
    have hdrained : (c.drain room).2.phase = .draining := hphase
    rw [process, hphase]
    cases input with
    | nil =>
      dsimp only
      rw [finish, hdrained]
      dsimp only
      rw [settle]
      split
      · simp
      · simp [hdrained]
    | cons byte rest =>
      dsimp only
      rw [take, hdrained]
      simp [hdrained]

theorem Gathers.phase_of_finish {level : Nat} {framed : Bool} {out : List UInt8}
    (h : c.Gathers level framed input out) (room : Nat) :
    (c.process [] room).2.phase ≠ .gathering := by
  obtain ⟨blocks, hwhole, -⟩ := encode_spec level framed input
  obtain ⟨step, c', hprocess, -, hsettles⟩ := h.finish hwhole room
  rw [hprocess]
  split at hsettles
  next hf => simp [(finished_of_process hprocess).mp hf]
  next => simp [hsettles.1.phase_eq]

theorem Gathers.exists_draft {level : Nat} {framed : Bool} {out : List UInt8}
    (h : c.Gathers level framed input out) :
    ∃ d : Draft, d.Sound input ∧ c.window = d.window ∧ c.chains = d.chains := by
  obtain ⟨d, bits, hd, hwindow, hchains, -⟩ := h.draft
  obtain ⟨d', hd', hsound, -⟩ := Draft.ofInput_spec level input
  cases hd.symm.trans hd'
  exact ⟨d, hsound, hwindow, hchains⟩

/-- A call with input at hand takes some of it in, into the portion that it splits if there is one,
and else into the rest of the window. -/
theorem Gathers.take_rest {level : Nat} {framed : Bool} {taken out : List UInt8}
    (h : c.Gathers level framed taken out) (hne : input ≠ []) (room : Nat) :
    ∃ step c' out', c.process input room = (.ok step, c') ∧
      c'.Gathers level framed (taken ++ input.take step.consumed) out' ∧
      (c.portion? input room).elim (c'.window.rest = c.window.rest ++ input.take step.consumed)
        fun p => p.data = c.window.rest ++ input.take step.consumed ∧ c'.window.rest = [] := by
  obtain ⟨step, c', hprocess, -, -, hgathers, -⟩ := h.take hne room
  obtain ⟨d, hd, hwindow, -⟩ := h.exists_draft
  have hle := hd.cursor_le
  rw [← hwindow] at hle
  exact ⟨step, c', _, hprocess, hgathers, rest_of_take h.phase_eq hne hle hprocess⟩

theorem Gathers.draft_of_portion {level : Nat} {framed : Bool} {taken out split : List UInt8}
    (h : c.Gathers level framed taken out) (hsplit : split ++ c.window.rest = taken)
    (hp : c.portion? input room = some p) :
    ∃ (d : Draft) (more : List UInt8), d.Sound more ∧ p = ⟨d.window, d.chains⟩ ∧
      split ++ d.window.rest = more := by
  obtain ⟨d, hsound, hwindow, hchains⟩ := h.exists_draft
  rw [portion?, if_pos h.phase_eq, hwindow, hchains] at hp
  rw [hwindow] at hsplit
  split at hp
  next =>
    cases hp
    exact ⟨d, taken, hsound, rfl, hsplit⟩
  next =>
    split at hp <;> cases hp
    refine ⟨d.extend (input.take (blockSize - d.window.pending)), _, hsound.extend _, rfl, ?_⟩
    have hrest := Window.rest_absorb hsound.cursor_le input
    change split ++ (d.window.absorb input).rest = _
    rw [hrest, ← List.append_assoc, hsplit]

inductive Act where
  | process (input : List UInt8) (room : Nat)
  | reset

/-- A compressor with an account of its stream: what was taken in since it began, and what has been
split into tokens. -/
structure Ledger where
  compressor : Compressor
  taken : List UInt8 := []
  split : List UInt8 := []

namespace Ledger

def consumed : Except CompressFault Step → Nat
  | .ok step => step.consumed
  | .error _ => 0

def act (l : Ledger) : Act → Ledger
  | .process input room =>
    let (result, c) := l.compressor.process input room
    ⟨c, l.taken ++ input.take (consumed result),
      l.split ++ ((l.compressor.portion? input room).map Portion.data).getD []⟩
  | .reset => ⟨l.compressor.reset, [], []⟩

def run (level : Nat) (framed : Bool) (acts : List Act) : Ledger :=
  acts.foldl act ⟨start level framed, [], []⟩

/-- What was taken in is what was split, and the rest of the window behind it. -/
structure Sound (level : Nat) (framed : Bool) (l : Ledger) : Prop where
  suits : l.compressor.Suits level framed
  gathers : l.compressor.phase = .gathering →
    ∃ out, l.compressor.Gathers level framed l.taken out ∧
      l.split ++ l.compressor.window.rest = l.taken

variable {level : Nat} {framed : Bool} {l : Ledger}

theorem sound_start (level : Nat) (framed : Bool) :
    Sound level framed ⟨start level framed, [], []⟩ :=
  ⟨suits_start level framed, fun _ => ⟨[], gathers_start level framed, rfl⟩⟩

theorem Sound.process (h : l.Sound level framed) (input : List UInt8) (room : Nat) :
    (l.act (.process input room)).Sound level framed := by
  refine ⟨h.suits.process input room, ?_⟩
  intro hafter
  -- a call that leaves the stream open found it open, and had input
  have hphase : l.compressor.phase = .gathering := by
    by_contra hphase
    exact phase_of_not_gathering hphase input room hafter
  obtain ⟨out, hgathers, hsplit⟩ := h.gathers hphase
  have hne : input ≠ [] := by
    rintro rfl
    exact hgathers.phase_of_finish room hafter
  obtain ⟨step, c', out', hprocess, hgathers', hrest⟩ := hgathers.take_rest hne room
  rw [Ledger.act, hprocess]
  refine ⟨out', hgathers', ?_⟩
  dsimp only
  rw [consumed, ← hsplit, List.append_assoc, List.append_assoc]
  congr 1
  cases hp : l.compressor.portion? input room with
  | none =>
    rw [hp] at hrest
    exact hrest
  | some p =>
    rw [hp] at hrest
    obtain ⟨hdata, hnil⟩ := hrest
    rw [hnil, List.append_nil]
    exact hdata

theorem Sound.split_append (h : l.Sound level framed)
    (hp : l.compressor.portion? input room = some p) :
    l.split ++ p.data = (l.act (.process input room)).taken := by
  have hphase := phase_of_portion hp
  obtain ⟨out, hgathers, hsplit⟩ := h.gathers hphase
  by_cases hnil : input = []
  · rw [portion?, if_pos hphase, if_pos hnil] at hp
    cases hp
    rw [Ledger.act, hnil]
    dsimp only
    rw [List.take_nil, List.append_nil]
    exact hsplit
  · obtain ⟨step, c', out', hprocess, -, hrest⟩ := hgathers.take_rest hnil room
    rw [hp] at hrest
    rw [Ledger.act, hprocess]
    dsimp only
    rw [hrest.1, ← List.append_assoc, hsplit]
    rfl

theorem Sound.act (h : l.Sound level framed) (a : Act) : (l.act a).Sound level framed := by
  cases a with
  | process input room => exact h.process input room
  | reset =>
    rw [Ledger.act, h.suits.reset_eq]
    exact sound_start level framed

theorem sound_run (level : Nat) (framed : Bool) (acts : List Act) :
    (run level framed acts).Sound level framed := by
  rw [run]
  induction acts using List.reverseRecOn with
  | nil => exact sound_start level framed
  | append_singleton acts a ih =>
    rw [List.foldl_append]
    exact ih.act a

end Ledger

/-- After any calls and resets, whatever the next call splits is split faithfully. The tokens stand
for all that was taken in and not split before, the copies are such as a decoder follows, and the
chains that the call leaves are those of this search. -/
theorem tokenising_faithful {level : Nat} (hl : level ≠ 0) (framed : Bool) (acts : List Act)
    (input : List UInt8) (room : Nat) {p : Portion}
    (hp : (Ledger.run level framed acts).compressor.portion? input room = some p) :
    ∃ tokens chains, p.tokenize? level = some (tokens, chains) ∧
      Faithful (Ledger.run level framed acts).split p.data tokens.toList ∧
      (Ledger.run level framed acts).split ++ p.data =
        ((Ledger.run level framed acts).act (.process input room)).taken ∧
      ((Ledger.run level framed acts).compressor.process input room).2.chains = chains := by
  have hsound := Ledger.sound_run level framed acts
  obtain ⟨l, hrun⟩ : ∃ l, l = Ledger.run level framed acts := ⟨_, rfl⟩
  rw [← hrun] at hp hsound ⊢
  have hphase := phase_of_portion hp
  obtain ⟨out, hgathers, hsplit⟩ := hsound.gathers hphase
  obtain ⟨d, more, hd, rfl, hmore⟩ := hgathers.draft_of_portion hsplit hp
  obtain ⟨tokens, chains, htokens, hfaithful⟩ := hd.faithful hmore level
  refine ⟨tokens, chains, htokens, hfaithful, hsound.split_append hp, ?_⟩
  have hlevel := hsound.suits.level_eq
  rw [chains_of_process (by rwa [hlevel]), hp, hlevel]
  change Portion.chainsAfter level _ = _
  rw [Portion.chainsAfter, htokens]
  rfl

/-- The second stream of a compressor, closed when it has seen one triple of bytes three times. -/
theorem tokenising_faithful_of_triples :
    (Ledger.run 1 true [.process [5, 6, 7, 8] 9, .reset,
      .process [1, 2, 3, 1, 2, 3, 1, 2, 3] 9]).compressor.portion? [] 4 =
        some ⟨⟨#[1, 2, 3, 1, 2, 3, 1, 2, 3], 0, 0⟩, .empty⟩ ∧
      ∃ tokens chains,
        Portion.tokenize? 1 ⟨⟨#[1, 2, 3, 1, 2, 3, 1, 2, 3], 0, 0⟩, .empty⟩ =
          some (tokens, chains) ∧ Faithful [] [1, 2, 3, 1, 2, 3, 1, 2, 3] tokens.toList := by
  refine ⟨rfl, ?_⟩
  obtain ⟨tokens, chains, htokens, hfaithful, -⟩ :=
    tokenising_faithful (by decide : 1 ≠ 0) true [.process [5, 6, 7, 8] 9, .reset,
      .process [1, 2, 3, 1, 2, 3, 1, 2, 3] 9] [] 4 rfl
  exact ⟨tokens, chains, htokens, hfaithful⟩

end Compressor

end Conduit.Deflate
