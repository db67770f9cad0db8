import Conduit.Proofs.Deflate.Chaining
import Conduit.Proofs.Deflate.Tokenising

namespace Conduit.Deflate

section Stream

variable {taken more : List UInt8} {n : Nat}

def Window.ofStream (taken : List UInt8) (n : Nat) : Window :=
  ⟨(taken.drop (n - windowSize)).toArray, n - windowSize, min windowSize n⟩

theorem Window.toList_ofStream (taken : List UInt8) (n : Nat) :
    (ofStream taken n).bytes.toList = taken.drop (n - windowSize) := by
  rw [ofStream]

theorem ofStream_nil : Window.ofStream [] 0 = {} := rfl

theorem Window.base_add_cursor_ofStream (taken : List UInt8) (n : Nat) :
    (ofStream taken n).base + (ofStream taken n).cursor = n := by
  rw [ofStream]
  dsimp only
  omega

theorem Window.size_ofStream (taken : List UInt8) (n : Nat) :
    (ofStream taken n).bytes.size = taken.length - (n - windowSize) := by
  rw [ofStream, List.size_toArray, List.length_drop]

theorem Window.cursor_le_ofStream (h : n ≤ taken.length) :
    (ofStream taken n).cursor ≤ (ofStream taken n).bytes.size := by
  rw [size_ofStream, ofStream]
  dsimp only
  omega

theorem Window.pending_ofStream (h : n ≤ taken.length) :
    (ofStream taken n).pending = taken.length - n := by
  rw [pending, size_ofStream, ofStream]
  dsimp only
  omega

theorem Window.rest_ofStream (taken : List UInt8) (n : Nat) :
    (ofStream taken n).rest = taken.drop n := by
  have hsum : n - windowSize + min windowSize n = n := by omega
  rw [rest, ofStream]
  dsimp only
  rw [List.drop_drop, hsum]

theorem Window.absorb_ofStream (h : n ≤ taken.length) (input : List UInt8) :
    (ofStream taken n).absorb input =
      ofStream (taken ++ input.take (blockSize - (taken.length - n))) n := by
  rw [absorb, pending_ofStream h]
  simp only [ofStream, mk.injEq, and_true]
  apply Array.toList_inj.mp
  rw [Array.toList_appendList, List.drop_append_of_le_length (by omega)]

theorem Window.trim_ofStream (h : n ≤ taken.length) :
    ({ ofStream taken n with
        cursor := (ofStream taken n).cursor + (taken.length - n) } : Window).trim =
      ofStream taken taken.length := by
  rw [ofStream, trim]
  dsimp only
  split
  next hlong =>
    have hbase : n - windowSize + (min windowSize n + (taken.length - n) - windowSize) =
        taken.length - windowSize := by omega
    have hcursor : windowSize = min windowSize taken.length := by omega
    have hkept : (taken.drop (n - windowSize)).toArray.extract
        (min windowSize n + (taken.length - n) - windowSize) =
        (taken.drop (taken.length - windowSize)).toArray := by
      apply Array.toList_inj.mp
      rw [Array.toList_extract, List.extract_eq_take_drop, List.toList_toArray,
        List.toList_toArray, List.drop_drop, hbase]
      apply List.take_of_length_le
      rw [List.size_toArray, List.length_drop, List.length_drop]
      omega
    rw [ofStream, hkept, hbase, ← hcursor]
  next hshort =>
    have hbase : n - windowSize = taken.length - windowSize := by omega
    have hcursor : min windowSize n + (taken.length - n) = min windowSize taken.length := by omega
    rw [ofStream, hbase, hcursor]

end Stream

section Marks

variable {level n p : Nat} {data : List UInt8}

/-- The chain of each position of a stream: that of its three bytes, if its block has so many left.
A stream that is only stored has no chains. -/
def marks (level : Nat) (data : List UInt8) (p : Nat) : Option Nat :=
  if level = 0 then none else bucketAt (data.take ((p / blockSize + 1) * blockSize)).toArray p

def Inserted (level : Nat) (data : List UInt8) (p : Nat) : Prop :=
  level ≠ 0 ∧ p + 3 ≤ min data.length ((p / 65536 + 1) * 65536)

theorem inserted_of_marks {b : Nat} (h : marks level data p = some b) : Inserted level data p := by
  rw [marks] at h
  split at h
  · cases h
  next hlevel =>
    refine ⟨hlevel, ?_⟩
    by_contra hshort
    rw [bucketAt_eq_none] at h
    · cases h
    · rw [List.size_toArray, List.length_take, minMatch, blockSize]
      omega

theorem exists_marks (h : Inserted level data p) :
    ∃ b < bucketCount, marks level data p = some b := by
  obtain ⟨hlevel, hle⟩ := h
  have hlong : p + minMatch ≤ (data.take ((p / blockSize + 1) * blockSize)).toArray.size := by
    rw [List.size_toArray, List.length_take, minMatch, blockSize]
    omega
  obtain ⟨b, hbucket, hlt⟩ := bucketAt_eq_some hlong
  refine ⟨b, hlt, ?_⟩
  rw [marks, if_neg hlevel, hbucket]

/-- What is taken in later changes nothing in blocks that are complete. -/
theorem marks_take (h : n % blockSize = 0) (hp : p < n) :
    marks level (data.take n) p = marks level data p := by
  have hblock : (p / blockSize + 1) * blockSize ≤ n := by
    rw [blockSize] at h ⊢
    omega
  rw [marks, marks, List.take_take, Nat.min_eq_left hblock]

theorem bucketAt_drop (data : List UInt8) (base i : Nat) :
    bucketAt (data.drop base).toArray i = bucketAt data.toArray (base + i) := by
  simp only [bucketAt, List.getElem?_toArray, List.getElem?_drop, Nat.add_assoc]

/-- A window with a block to encode: where its bytes lie in the stream, what is left of it once they
are encoded, and that the chains of that block are those of its bytes. -/
theorem ofStream_spec (level : Nat) {taken : List UInt8} (hle : n ≤ taken.length)
    (h : n % blockSize = 0) (hlong : taken.length ≤ n + blockSize) :
    ∃ bytes base cursor, Window.ofStream taken n = ⟨bytes, base, cursor⟩ ∧ base + cursor = n ∧
      base + bytes.size = taken.length ∧
      (⟨bytes, base, cursor + (taken.length - n)⟩ : Window).trim = .ofStream taken taken.length ∧
      (level ≠ 0 →
        MarksOf (marks level taken) bytes base cursor (cursor + (taken.length - n))) := by
  refine ⟨_, _, _, rfl, Window.base_add_cursor_ofStream taken n, ?_, Window.trim_ofStream hle, ?_⟩
  · rw [List.size_toArray, List.length_drop]
    omega
  · intro hlevel k hk hlt
    have hblock : taken.length ≤ ((n - windowSize + k) / blockSize + 1) * blockSize := by
      rw [blockSize] at h hlong ⊢
      rw [windowSize] at hk hlt ⊢
      omega
    rw [marks, if_neg hlevel, List.take_of_length_le hblock, bucketAt_drop]

end Marks

namespace Compressor

variable {c : Compressor} {level n : Nat} {taken : List UInt8}

theorem writeNext_ofStream (writer : BitWriter) (last : Bool) {chains : Chains}
    (hle : n ≤ taken.length) (hwhole : n % blockSize = 0) (hlong : taken.length ≤ n + blockSize)
    (h : Traced (marks level (taken.take n)) n chains) :
    ∃ chains' writer', writeNext level (.ofStream taken n) chains writer (taken.length - n) last =
        some (.ofStream taken taken.length, chains', writer') ∧
      Traced (marks level taken) taken.length chains' := by
  have hbefore : Traced (marks level taken) n chains :=
    h.congr fun p hp => marks_take hwhole hp
  obtain ⟨bytes, base, cursor, hw, hplace, hsize, htrim, hmarks⟩ :=
    ofStream_spec level hle hwhole hlong
  rw [hw, writeNext]
  rw [htrim]
  split
  next hlevel =>
    have hnone : ∀ p, n ≤ p → p < n + (taken.length - n) → marks level taken p = none :=
      fun p _ _ => if_pos hlevel
    have hskips := hbefore.skips hnone
    rw [Nat.add_sub_cancel' hle] at hskips
    exact ⟨chains, _, rfl, hskips⟩
  next hlevel =>
    rw [← hplace] at hbefore
    have hstop : cursor + (taken.length - n) ≤ bytes.size := by omega
    have hend : base + (cursor + (taken.length - n)) = taken.length := by omega
    obtain ⟨new, chains', htokens, -, -⟩ := tokenize_spec (.ofLevel level) base hbefore.sized hstop
      (Nat.le_add_right _ _) #[]
    have htraced := hbefore.tokenize hstop (Nat.le_add_right _ _) (hmarks hlevel) htokens
    rw [hend] at htraced
    rw [htokens]
    exact ⟨chains', _, rfl, htraced⟩

/-- `n` bytes are encoded of what has been taken in. Fewer than a block wait, and blocks are full
as long as more can come. -/
structure Stores (c : Compressor) (level : Nat) (taken : List UInt8) (n : Nat) : Prop where
  level_eq : c.level = level
  le : n ≤ taken.length
  pending_lt : taken.length < n + blockSize
  whole : c.phase = .gathering → n % blockSize = 0
  window_eq : c.window = .ofStream taken n
  traced : Traced (marks level (taken.take n)) n c.chains

theorem stores_start (level : Nat) (framed : Bool) : (start level framed).Stores level [] 0 where
  level_eq := rfl
  le := Nat.le_refl 0
  pending_lt := by decide
  whole _ := rfl
  window_eq := ofStream_nil.symm
  traced := traced_empty _

theorem Stores.cursor_le (h : c.Stores level taken n) : c.window.cursor ≤ c.window.bytes.size := by
  rw [h.window_eq]
  exact Window.cursor_le_ofStream h.le

theorem Stores.drain (h : c.Stores level taken n) (room : Nat) :
    (c.drain room).2.Stores level taken n :=
  ⟨h.level_eq, h.le, h.pending_lt, h.whole, h.window_eq, h.traced⟩

theorem Stores.settle (h : c.Stores level taken n) (output : List UInt8) :
    (c.settle output).2.Stores level taken n := by
  rw [Compressor.settle]
  split
  · exact ⟨h.level_eq, h.le, h.pending_lt, fun hp => by simp at hp, h.window_eq, h.traced⟩
  · exact h

theorem Stores.absorb (h : c.Stores level taken n) (input : List UInt8) :
    ∃ more, input.take (blockSize - c.window.pending) = more ∧ input.take more.length = more ∧
      c.window.absorb input = .ofStream (taken ++ more) n ∧ n ≤ (taken ++ more).length ∧
      (taken ++ more).length ≤ n + blockSize ∧
      Traced (marks level ((taken ++ more).take n)) n c.chains := by
  have hpending := h.pending_lt
  have hle := h.le
  obtain ⟨more, hmore⟩ : ∃ more, more = input.take (blockSize - (taken.length - n)) := ⟨_, rfl⟩
  have hroom : more.length ≤ blockSize - (taken.length - n) := by
    rw [hmore]
    exact List.length_take_le _ _
  have hagain : input.take more.length = more := by
    rw [hmore]
    apply List.take_eq_take_iff.mpr
    simp
  have htraced : Traced (marks level ((taken ++ more).take n)) n c.chains := by
    rw [List.take_append_of_le_length hle]
    exact h.traced
  have hlength : (taken ++ more).length = taken.length + more.length := List.length_append
  rw [h.window_eq, Window.absorb_ofStream hle, Window.pending_ofStream hle, ← hmore]
  exact ⟨more, rfl, hagain, rfl, by omega, by omega, htraced⟩

theorem Stores.gather (h : c.Stores level taken n) (hphase : c.phase = .gathering)
    (input : List UInt8) :
    ∃ k c', c.gather input = (.ok k, c') ∧
      c.window.absorb input = .ofStream (taken ++ input.take k) n ∧
      c'.Stores level (taken ++ input.take k)
        (if (c.window.absorb input).pending = blockSize then (taken ++ input.take k).length
          else n) := by
  have hwhole := h.whole hphase
  obtain ⟨more, hmore, hagain, habsorb, hle, hlong, htraced⟩ := h.absorb input
  rw [gather_eq_absorb, hmore, habsorb, Window.pending_ofStream hle]
  split
  next hfull =>
    obtain ⟨chains', writer', hwrite, hchains⟩ :=
      writeNext_ofStream c.writer false hle hwhole hlong htraced
    rw [hfull] at hwrite
    rw [h.level_eq, hwrite]
    refine ⟨_, _, rfl, by rw [hagain], ?_⟩
    rw [hagain]
    refine ⟨rfl, Nat.le_refl _, Nat.lt_add_of_pos_right (by decide), fun _ => ?_, rfl, ?_⟩
    · rw [blockSize] at hfull hwhole ⊢
      omega
    · rwa [List.take_length]
  next hpart =>
    refine ⟨_, _, rfl, by rw [hagain], ?_⟩
    rw [hagain]
    exact ⟨h.level_eq, hle, by omega, fun _ => hwhole, rfl, htraced⟩

theorem Stores.close (h : c.Stores level taken n) (hphase : c.phase = .gathering) :
    ∃ c', c.close = (.ok (), c') ∧ c'.Stores level taken taken.length := by
  obtain ⟨chains', writer', hwrite, hchains⟩ :=
    writeNext_ofStream c.writer true h.le (h.whole hphase) h.pending_lt.le h.traced
  rw [← Window.pending_ofStream h.le, ← h.window_eq, ← h.level_eq] at hwrite
  rw [Compressor.close]
  dsimp only
  rw [hwrite]
  refine ⟨_, rfl, h.level_eq, Nat.le_refl _, Nat.lt_add_of_pos_right (by decide),
    fun hp => by simp at hp, rfl, ?_⟩
  rwa [List.take_length]

theorem consumed_settle (c : Compressor) (output : List UInt8) :
    (c.settle output).1.consumed = 0 := by
  rw [settle]
  split <;> rfl

theorem Stores.finish (h : c.Stores level taken n) (output : List UInt8) (room : Nat) :
    ∃ step c', c.finish output room = (.ok step, c') ∧ step.consumed = 0 ∧
      c'.Stores level taken (if c.phase = .gathering then taken.length else n) := by
  rw [Compressor.finish]
  by_cases hphase : c.phase = .gathering
  · obtain ⟨c₁, hclose, hstores⟩ := h.close hphase
    rw [hphase, if_pos rfl]
    dsimp only
    rw [hclose]
    exact ⟨_, _, rfl, consumed_settle _ _, (hstores.drain _).settle _⟩
  · rw [if_neg hphase]
    split
    next hgathering => exact absurd hgathering hphase
    next => exact ⟨(c.settle output).1, _, rfl, consumed_settle c output, h.settle output⟩

theorem Stores.take (h : c.Stores level taken n) (hphase : c.phase = .gathering)
    (output input : List UInt8) (room : Nat) :
    ∃ step c', c.take output input room = (.ok step, c') ∧
      (c.backlog = 0 → c.window.absorb input = .ofStream (taken ++ input.take step.consumed) n) ∧
      c'.Stores level (taken ++ input.take step.consumed)
        (if c.backlog = 0 ∧ (c.window.absorb input).pending = blockSize then
          (taken ++ input.take step.consumed).length else n) := by
  rw [Compressor.take, hphase]
  dsimp only
  split
  next hwait =>
    refine ⟨_, _, rfl, fun hready => absurd hready (Nat.ne_of_gt hwait), ?_⟩
    rw [if_neg fun hready => Nat.ne_of_gt hwait hready.1, List.take_zero, List.append_nil]
    exact h
  next hroom =>
    obtain ⟨k, c₁, hgather, habsorb, hstores⟩ := h.gather hphase input
    rw [hgather]
    refine ⟨_, _, rfl, fun _ => habsorb, ?_⟩
    by_cases hfull : (c.window.absorb input).pending = blockSize
    · rw [if_pos hfull] at hstores
      rw [if_pos ⟨Nat.eq_zero_of_not_pos hroom, hfull⟩]
      exact hstores.drain _
    · rw [if_neg hfull] at hstores
      rw [if_neg fun hready => hfull hready.2]
      exact hstores.drain _

theorem Stores.process_idle (h : c.Stores level taken n) (hphase : c.phase ≠ .gathering)
    (input : List UInt8) (room : Nat) :
    ∃ result c', c.process input room = (result, c') ∧ result ≠ .error .outOfRange ∧
      Ledger.consumed result = 0 ∧ c'.Stores level taken n := by
  have hdrained := h.drain room
  cases hp : c.phase with
  | gathering => exact absurd hp hphase
  | ended => exact ⟨_, c, process_of_ended hp input room, by simp, rfl, h⟩
  | draining =>
    have hdraining : (c.drain room).2.phase = .draining := hp
    rw [Compressor.process, hp]
    dsimp only
    cases input with
    | nil =>
      obtain ⟨step, c', hfinish, hconsumed, hstores⟩ := hdrained.finish (c.drain room).1 room
      rw [if_neg (by simp [hdraining])] at hstores
      exact ⟨_, c', hfinish, by simp, hconsumed, hstores⟩
    | cons byte rest =>
      dsimp only
      rw [Compressor.take, hdraining]
      exact ⟨_, _, rfl, by simp, rfl, hdrained⟩

/-- What a call does to the stream: all that waits is encoded if there is a portion of it to encode,
and nothing else. No call looks outside the window. -/
theorem Stores.process (h : c.Stores level taken n) (input : List UInt8) (room : Nat) :
    ∃ result c', c.process input room = (result, c') ∧ result ≠ .error .outOfRange ∧
      c'.Stores level (taken ++ input.take (Ledger.consumed result))
        ((c.portion? input room).elim n fun _ =>
          (taken ++ input.take (Ledger.consumed result)).length) ∧
      ∀ p ∈ c.portion? input room,
        p.data = (taken ++ input.take (Ledger.consumed result)).drop n := by
  have hdrained := h.drain room
  by_cases hphase : c.phase = .gathering
  · rw [portion?, if_pos hphase]
    by_cases hnil : input = []
    · subst hnil
      obtain ⟨step, c', hfinish, hconsumed, hstores⟩ := hdrained.finish (c.drain room).1 room
      rw [if_pos (show (c.drain room).2.phase = .gathering from hphase)] at hstores
      refine ⟨_, c', (process_nil hphase room).trans hfinish, by simp, ?_⟩
      rw [if_pos rfl, List.take_nil, List.append_nil]
      refine ⟨hstores, ?_⟩
      rintro p ⟨⟩
      rw [Portion.data, h.window_eq]
      exact Window.rest_ofStream taken n
    · obtain ⟨step, c', htake, habsorb, hstores⟩ :=
        hdrained.take hphase (c.drain room).1 input room
      have hwindow : (c.drain room).2.window = c.window := rfl
      rw [hwindow] at habsorb hstores
      refine ⟨_, c', (process_ne_nil hphase hnil room).trans htake, by simp, ?_⟩
      rw [if_neg hnil]
      by_cases hready : (c.drain room).2.backlog = 0 ∧
          (c.window.absorb input).pending = blockSize
      · rw [if_pos hready] at hstores ⊢
        refine ⟨hstores, ?_⟩
        rintro p ⟨⟩
        rw [Portion.data, habsorb hready.1]
        exact Window.rest_ofStream _ n
      · rw [if_neg hready] at hstores ⊢
        refine ⟨hstores, ?_⟩
        rintro p ⟨⟩
  · obtain ⟨result, c', hprocess, hrange, hconsumed, hstores⟩ := h.process_idle hphase input room
    refine ⟨result, c', hprocess, hrange, ?_⟩
    rw [portion?, if_neg hphase, hconsumed, List.take_zero, List.append_nil]
    refine ⟨hstores, ?_⟩
    rintro p ⟨⟩

namespace Ledger

structure Keeps (level : Nat) (l : Ledger) : Prop where
  split_eq : l.split = l.taken.take l.split.length
  stores : l.compressor.Stores level l.taken l.split.length

variable {level : Nat} {l : Ledger}

theorem keeps_start (level : Nat) (framed : Bool) : Keeps level ⟨start level framed, [], []⟩ :=
  ⟨rfl, stores_start level framed⟩

theorem Keeps.act (h : l.Keeps level) (a : Act) : (l.act a).Keeps level := by
  cases a with
  | process input room =>
    obtain ⟨result, c', hprocess, -, hstores, hdata⟩ := h.stores.process input room
    have hle := h.stores.le
    have hsplit := h.split_eq
    rw [Ledger.act, hprocess]
    dsimp only
    obtain ⟨taken, htaken⟩ : ∃ taken, taken = l.taken ++ input.take (consumed result) := ⟨_, rfl⟩
    rw [← htaken] at hstores hdata ⊢
    have hbefore : taken.take l.split.length = l.split := by
      rw [htaken, List.take_append_of_le_length hle, ← hsplit]
    cases hp : l.compressor.portion? input room with
    | none =>
      rw [hp] at hstores
      simp only [Option.map_none, Option.getD_none, List.append_nil]
      exact ⟨hbefore.symm, hstores⟩
    | some p =>
      have hall := List.take_append_drop l.split.length taken
      rw [hbefore, ← hdata p hp] at hall
      rw [hp] at hstores
      simp only [Option.map_some, Option.getD_some, hall]
      exact ⟨(List.take_length).symm, hstores⟩
  | reset =>
    rw [Ledger.act, reset, h.stores.level_eq]
    exact keeps_start level _

theorem run_concat (level : Nat) (framed : Bool) (acts : List Act) (a : Act) :
    run level framed (acts ++ [a]) = (run level framed acts).act a :=
  List.foldl_append

theorem keeps_run (level : Nat) (framed : Bool) (acts : List Act) :
    (run level framed acts).Keeps level := by
  induction acts using List.reverseRecOn with
  | nil => exact keeps_start level framed
  | append_singleton acts a ih =>
    rw [run_concat]
    exact ih.act a

structure InOrder (level : Nat) (l : Ledger) : Prop where
  cursor_le : l.compressor.window.cursor ≤ 32768
  cursor_le_size : l.compressor.window.cursor ≤ l.compressor.window.bytes.size
  pending_lt : l.compressor.window.bytes.size - l.compressor.window.cursor < 65536
  encoded_eq : l.compressor.window.base + l.compressor.window.cursor = l.split.length
  history_eq : l.compressor.window.bytes.toList.take l.compressor.window.cursor =
    l.split.drop (l.split.length -
      min 32768 (l.compressor.window.base + l.compressor.window.cursor))
  rest_eq : l.split ++ l.compressor.window.bytes.toList.drop l.compressor.window.cursor = l.taken
  head_inserted : ∀ (b p : Nat), l.compressor.chains.head[b]? = some (p + 1) →
    p < l.split.length ∧ Inserted level l.split p
  previous_inserted : ∀ (i p : Nat), l.compressor.chains.previous[i]? = some (p + 1) →
    p < l.split.length ∧ Inserted level l.split p
  link_le : ∀ p, Inserted level l.split p → l.split.length ≤ p + 32768 →
    ∃ next ≤ p, l.compressor.chains.previous[p % 32768]? = some next
  traced : Traced (marks level l.split) l.split.length l.compressor.chains

theorem Keeps.inOrder (h : l.Keeps level) : l.InOrder level := by
  have hle := h.stores.le
  have hpending := h.stores.pending_lt
  have hplace := Window.base_add_cursor_ofStream l.taken l.split.length
  have hsize := Window.size_ofStream l.taken l.split.length
  have hrest := Window.rest_ofStream l.taken l.split.length
  have htraced := h.stores.traced
  rw [← h.split_eq] at htraced
  have hcursor : (Window.ofStream l.taken l.split.length).cursor =
      min windowSize l.split.length := rfl
  have hbytes := Window.toList_ofStream l.taken l.split.length
  rw [← h.stores.window_eq] at hplace hsize hrest hcursor hbytes
  rw [Window.rest] at hrest
  rw [blockSize] at hpending
  rw [windowSize] at hsize hcursor hbytes
  refine ⟨?_, ?_, ?_, hplace, ?_, ?_, ?_, ?_, ?_, htraced⟩
  · omega
  · omega
  · omega
  · have hdrop : l.split.length - min 32768 l.split.length = l.split.length - 32768 := by omega
    have hcount : l.split.length - (l.split.length - 32768) = min 32768 l.split.length := by omega
    rw [hplace, hdrop, hbytes, hcursor, ← hcount, ← List.drop_take, ← h.split_eq]
  · have hall := List.take_append_drop l.split.length l.taken
    rwa [← h.split_eq, ← hrest] at hall
  · intro b p hb
    have hlt : b < bucketCount := by
      rw [← htraced.sized.head]
      exact (Array.getElem?_eq_some_iff.mp hb).1
    rw [htraced.head b hlt, Option.some.injEq] at hb
    obtain ⟨hlt, hmark⟩ := mark_of_latest hb
    exact ⟨hlt, inserted_of_marks hmark⟩
  · intro i p hi
    obtain ⟨hlt, b, hb⟩ := htraced.inserted i p hi
    exact ⟨hlt, inserted_of_marks hb⟩
  · intro p hp hwithin
    obtain ⟨b, -, hb⟩ := exists_marks hp
    have hlt : p < l.split.length := by
      obtain ⟨-, hroom⟩ := hp
      omega
    obtain ⟨next, hnext, hback, -⟩ := htraced.next hb hlt hwithin
    exact ⟨next, Nat.le_of_lt_succ hback, hnext⟩

end Ledger

end Compressor

end Conduit.Deflate
