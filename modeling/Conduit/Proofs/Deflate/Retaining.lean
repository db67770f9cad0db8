import Conduit.Deflate.Compressor
import Conduit.Deflate.Decompressor
import Conduit.Proofs.Deflate.Matching

namespace Conduit.Deflate

section Tables

variable {bytes : Array UInt8} {base stop i : Nat} {chains chains' : Chains}

theorem Chains.Sized.of_insert (h : chains.Sized) (he : chains.insert bytes base i = some chains') :
    chains'.Sized := by
  obtain ⟨mid, hm, hsized⟩ := h.insert bytes base i
  cases hm.symm.trans he
  exact hsized

theorem Chains.Sized.of_insertRun (h : chains.Sized) {n : Nat}
    (he : Chains.insertRun bytes base n i chains = some chains') : chains'.Sized := by
  obtain ⟨mid, hm, hsized⟩ := h.insertRun bytes base n i
  cases hm.symm.trans he
  exact hsized

theorem Chains.Sized.of_tokenize (h : chains.Sized) {effort : Effort} {tokens tokens' : Array Token}
    (he : tokenize effort bytes base stop i chains tokens = some (tokens', chains')) :
    chains'.Sized := by
  fun_induction tokenize effort bytes base stop i chains tokens with
  | case1 => cases he
  | case2 =>
    rename_i hins ih
    exact ih (h.of_insert hins) he
  | case3 => cases he
  | case4 => cases he
  | case5 =>
    rename_i hins _ ih
    exact ih (h.of_insert hins) he
  | case6 => cases he
  | case7 =>
    rename_i hins _ _ hrun ih
    exact ih ((h.of_insert hins).of_insertRun hrun) he
  | case8 => cases he
  | case9 =>
    cases he
    exact h

end Tables

namespace Compressor

structure Suits (level : Nat) (framed : Bool) (c : Compressor) : Prop where
  level_eq : c.level = level
  framed_eq : c.framed = framed
  sized : c.chains.Sized

variable {level : Nat} {framed : Bool} {c : Compressor}

theorem suits_start (level : Nat) (framed : Bool) : (start level framed).Suits level framed :=
  ⟨rfl, rfl, sized_empty⟩

theorem Suits.reset_eq (h : c.Suits level framed) : c.reset = start level framed := by
  rw [reset, h.level_eq, h.framed_eq]

theorem sized_of_writeNext {window window' : Window} {chains chains' : Chains}
    {writer writer' : BitWriter} {n : Nat} {last : Bool} (h : chains.Sized)
    (he : writeNext level window chains writer n last = some (window', chains', writer')) :
    chains'.Sized := by
  rw [writeNext] at he
  split at he
  · cases he
    exact h
  · split at he
    · cases he
    next htokens =>
      cases he
      exact h.of_tokenize htokens

theorem Suits.gather (h : c.Suits level framed) (input : List UInt8) :
    (c.gather input).2.Suits level framed := by
  obtain ⟨_, _, window, chains, writer, sum, phase⟩ := c
  obtain ⟨rfl, rfl, hsized⟩ := h
  rw [Compressor.gather]
  dsimp only
  split
  · split
    · exact suits_start _ _
    next hwrite => exact ⟨rfl, rfl, sized_of_writeNext hsized hwrite⟩
  · exact ⟨rfl, rfl, hsized⟩

theorem Suits.close (h : c.Suits level framed) : c.close.2.Suits level framed := by
  obtain ⟨_, _, window, chains, writer, sum, phase⟩ := c
  obtain ⟨rfl, rfl, hsized⟩ := h
  rw [Compressor.close]
  dsimp only
  split
  · exact suits_start _ _
  next hwrite => exact ⟨rfl, rfl, sized_of_writeNext hsized hwrite⟩

theorem Suits.drain (h : c.Suits level framed) (room : Nat) :
    (c.drain room).2.Suits level framed :=
  ⟨h.level_eq, h.framed_eq, h.sized⟩

theorem Suits.settle (h : c.Suits level framed) (output : List UInt8) :
    (c.settle output).2.Suits level framed := by
  rw [Compressor.settle]
  split
  · exact ⟨h.level_eq, h.framed_eq, h.sized⟩
  · exact h

theorem Suits.take (h : c.Suits level framed) (output input : List UInt8) (room : Nat) :
    (c.take output input room).2.Suits level framed := by
  have hgather := h.gather input
  rw [Compressor.take]
  split
  · exact h
  · split
    · exact h
    · rcases hg : c.gather input with ⟨fault | consumed, c'⟩ <;> rw [hg] at hgather
      · exact hgather
      · exact hgather.drain _

theorem Suits.finish (h : c.Suits level framed) (output : List UInt8) (room : Nat) :
    (c.finish output room).2.Suits level framed := by
  have hclose := h.close
  rw [Compressor.finish]
  split
  · rcases hc : c.close with ⟨fault | done, c'⟩ <;> rw [hc] at hclose
    · exact hclose
    · exact (hclose.drain _).settle _
  · exact h.settle _

theorem Suits.process (h : c.Suits level framed) (input : List UInt8) (room : Nat) :
    (c.process input room).2.Suits level framed := by
  rw [Compressor.process]
  split
  · exact h
  · dsimp only
    split
    · exact (h.drain room).finish _ _
    · exact (h.drain room).take _ _ _

end Compressor

namespace Decompressor

theorem framed_conclude (framed : Bool) (sum : Adler) (base consumed : Nat) (c : Cursor) :
    (conclude framed sum base consumed c).2.framed = framed := by
  rw [conclude]
  split <;> rfl

theorem framed_process (d : Decompressor) (input : List UInt8) (room : Nat) :
    (d.process input room).2.framed = d.framed := by
  rw [process]
  split
  · rfl
  · dsimp only
    split
    · rfl
    · exact framed_conclude _ _ _ _ _
    · exact framed_conclude _ _ _ _ _

end Decompressor

end Conduit.Deflate
