import Conduit.Proofs.Compression.Cutting
import Conduit.Proofs.Compression.Reckoning

namespace Conduit

open Bits Deflate Relation

/-- A call that leaves room and does not end the stream has taken all of its input, or as much as it
looks at, and everything has come out that the input taken so far determines. -/
theorem decompression_flushes {p : Profile} (hb : p.backend = .portable)
    (hm : p.mode = .decompress) {acts : List Session.Act} {sights : List Session.Sight}
    {m m' : Machine.Session} {input : List UInt8} {room : Nat} {step : Step}
    (hacts : replies? Machine.Session.act? (.start p) acts = some (sights, m))
    (hcall : m.process? input room = some (.ok step, m')) (hf : step.finished = false)
    (hroom : step.produced < room) :
    step.consumed = min (Decompressor.appetite room) input.length ∧
      ∃ e, Halts (!p.raw)
          (opening (!p.raw) ((Passed.through {} acts sights).called input step).taken)
          .needInput e ∧
        e.history.toList = ((Passed.through {} acts sights).called input step).given := by
  obtain ⟨s, hshown, hpast⟩ := Machine.Session.exists_past hb hm hacts
  obtain ⟨m'', hm'', -⟩ := hshown.process input room
  rw [hcall, Option.some.injEq, Prod.mk.injEq] at hm''
  obtain ⟨hanswer, -⟩ := hm''
  cases hpast with
  | poisoned poisoned =>
    rw [Session.process_of_poisoned poisoned] at hanswer
    cases hanswer
  | reading runs reads =>
    obtain ⟨d', hp⟩ := runs.exists_process hanswer.symm
    exact reads.starved hp hf hroom
  | ended runs ended completes =>
    obtain ⟨d', hp⟩ := runs.exists_process hanswer.symm
    rw [Decompressor.process_of_isEnded ended] at hp
    cases hp
    cases hf

/-- Within a stored block, of which the first byte comes out. -/
theorem decompression_flushes_within_block :
    ∃ sights m step m', replies? Machine.Session.act? (.start ⟨.portable, .decompress, 0, true⟩)
        [.call [1] 4] = some (sights, m) ∧
      m.process? [2, 0, 253, 255, 1] 16 = some (.ok step, m') ∧ step.finished = false ∧
      step.produced < 16 ∧
      step.consumed = min (Decompressor.appetite 16) 5 ∧
      ∃ e, Halts false (opening false
          ((Passed.through {} [.call [1] 4] sights).called [2, 0, 253, 255, 1] step).taken)
          .needInput e ∧
        e.history.toList =
          ((Passed.through {} [.call [1] 4] sights).called [2, 0, 253, 255, 1] step).given := by
  obtain ⟨m, hm, hshown⟩ :=
    (Machine.Session.shows_fresh (p := ⟨.portable, .decompress, 0, true⟩) rfl).acts [.call [1] 4]
  obtain ⟨m', hm', -⟩ := hshown.process [2, 0, 253, 255, 1] 16
  have hanswer : ((replies Session.act (.fresh ⟨.portable, .decompress, 0, true⟩)
      [.call [1] 4]).2.process [2, 0, 253, 255, 1] 16).1 = .ok ⟨[1], 5, false⟩ := by decide +kernel
  rw [hanswer] at hm'
  exact ⟨_, m, _, m', hm, hm', rfl, by decide,
    decompression_flushes rfl rfl hm hm' rfl (by decide)⟩

section Empties

def empties (n : Nat) : List UInt8 :=
  (List.replicate n [0, 0, 0, 255, 255]).flatten

variable {n room : Nat}

theorem length_empties (n : Nat) : (empties n).length = 5 * n := by
  simp [empties, Nat.mul_comm]

theorem streamBits_empties (out : List UInt8) (n : Nat) (block : Format.Block) :
    Format.streamBits (ofBytes out) (List.replicate n (.stored []) ++ [block]) =
      ofBytes (out ++ empties n) ++ block.append [] true := by
  induction n generalizing out with
  | zero =>
    have happend := append_ofBytes out [] true block
    rw [List.append_nil] at happend
    have hnone : empties 0 = [] := rfl
    rw [hnone, List.append_nil]
    exact happend
  | succ n ih =>
    have hempty : (Format.Block.stored []).append [] false = ofBytes [0, 0, 0, 255, 255] := by
      decide
    have happend := append_ofBytes out [] false (.stored [])
    rw [List.append_nil, hempty, ← ofBytes_append] at happend
    rw [List.replicate_succ, List.cons_append, ← appendBlocks_true, appendBlocks_cons _ (by simp),
      appendBlocks_true, happend, ih, empties, empties, List.replicate_succ, List.flatten_cons,
      List.append_assoc]

theorem stream_empties (n : Nat) (block : Format.Block) :
    Format.stream (List.replicate n (.stored []) ++ [block]) =
      empties n ++ Format.stream [block] := by
  have hbits := streamBits_empties [] n block
  rw [ofBytes_nil, List.nil_append] at hbits
  apply ofBytes_inj
  rw [Format.stream, ofBytes_pack, hbits, pad_ofBytes_append, ofBytes_append, Format.stream,
    ofBytes_pack]
  rfl

theorem completes_empties (n : Nat) {data : List UInt8} (hdata : data.length ≤ maxStored) :
    Completes true (empties n ++ Format.stream [.stored data]) data := by
  rw [← stream_empties]
  apply completes_stream
  · simp
  · intro block hblock
    obtain hblock | hblock := List.mem_append.mp hblock
    · rw [(List.mem_replicate.mp hblock).2]
      exact Nat.zero_le _
    · rw [List.mem_singleton.mp hblock]
      exact hdata
  · induction n with
    | zero => rfl
    | succ n ih => exact ih

theorem process_take (d : Decompressor) (input : List UInt8) (room : Nat) :
    d.process (input.take (Decompressor.appetite room)) room = d.process input room := by
  simp only [Decompressor.process, List.take_take, Nat.min_self]

/-- Of as many empty blocks as it looks at, a call takes all that it looks at and gives out
nothing. -/
theorem process_empties (hroom : 0 < room) (hn : Decompressor.appetite room ≤ 5 * n)
    (tail : List UInt8) :
    ∃ d, (Decompressor.start false).process (empties n ++ tail) room =
      (.ok ⟨[], Decompressor.appetite room, false⟩, d) := by
  rw [← process_take]
  have hlength : ((empties n ++ tail).take (Decompressor.appetite room)).length =
      Decompressor.appetite room := by
    rw [List.length_take_of_le]
    rw [List.length_append, length_empties]
    exact Nat.le_add_right_of_le hn
  have hempties : (empties n ++ tail).take (Decompressor.appetite room) <+: empties n := by
    rw [List.take_append_of_le_length (by rwa [length_empties])]
    exact List.take_prefix _ _
  generalize (empties n ++ tail).take (Decompressor.appetite room) = cut at hlength hempties
  -- what is looked at is the beginning of a stream without any output
  obtain ⟨rest, hrest⟩ := hempties
  have hcompletes : Completes true (empties n ++ Format.stream [.stored []]) [] :=
    completes_empties n (Nat.zero_le _)
  rw [← hrest, List.append_assoc] at hcompletes
  have hne : rest ++ Format.stream [.stored []] ≠ [] := by
    have hstream : Format.stream [.stored []] ≠ [] := by decide +kernel
    exact List.append_ne_nil_of_right_ne_nil rest hstream
  generalize rest ++ Format.stream [.stored []] = more at hcompletes hne
  obtain ⟨e, bits, hhalts, hout, hholds, hbits⟩ := completes_iff.mp hcompletes
  have hfares := (Decompressor.reads_start true).fares cut room
  rcases hp : (Decompressor.start !true).process cut room with ⟨fault | step, d⟩
  · rw [hp] at hfares
    cases hfares with
    | failed halts reason =>
      obtain ⟨rfl, -⟩ := halts_cut hhalts hholds hbits hne halts
      cases reason
      obtain rfl := Decompressor.input_eq_nil_of_noProgress hroom hp
      simp [Decompressor.appetite] at hlength
    | stuck full => exact absurd full (Nat.ne_of_gt hroom)
  · rw [hp] at hfares
    have hwhole : cut ++ more =
        (({} : Passed).called cut step).taken ++ (cut.drop step.consumed ++ more) := by
      rw [Passed.called, List.nil_append, ← List.append_assoc, List.take_append_drop]
    rw [hwhole] at hhalts
    cases hfares with
    | finished finished completes =>
      obtain ⟨e', bits', hhalts', -⟩ := completes_iff.mp completes
      have hmore := List.append_ne_nil_of_right_ne_nil (cut.drop step.consumed) hne
      cases (halts_cut hhalts hholds hbits hmore hhalts').1
    | reading unfinished reads =>
      obtain ⟨c, hleads, -, hgiven⟩ := reads.onward (cut.drop step.consumed ++ more)
      have hnothing : step.output = [] := by
        have hprefix := prefix_of_halts (hhalts.after hleads)
        rwa [hgiven, hout, Passed.called, List.nil_append, List.prefix_nil] at hprefix
      have hproduced : step.produced < room := by rwa [Step.produced, hnothing]
      obtain ⟨hconsumed, -⟩ :=
        (Decompressor.reads_start true).starved hp unfinished hproduced
      rw [hlength, Nat.min_self] at hconsumed
      obtain ⟨output, consumed, finished⟩ := step
      obtain rfl : output = [] := hnothing
      obtain rfl : consumed = _ := hconsumed
      obtain rfl : finished = false := unfinished
      exact ⟨d, hp⟩

/-- Behind as many blocks without data as a call looks at there is a byte that the input determines.
There is room for it, and yet it stays behind with part of the input. -/
theorem decompression_holds_back :
    ∃ m, (Machine.Session.start ⟨.portable, .decompress, 0, true⟩).process?
        ((List.replicate 206 [0, 0, 0, 255, 255]).flatten ++ [1, 1, 0, 254, 255, 97]) 2 =
          some (.ok ⟨[], 1028, false⟩, m) ∧
      1028 < ((List.replicate 206 [0, 0, 0, 255, 255]).flatten ++
        [1, 1, 0, 254, 255, 97] : List UInt8).length ∧
      Completes true ((List.replicate 206 [0, 0, 0, 255, 255]).flatten ++
        [1, 1, 0, 254, 255, 97]) [97] := by
  have hlast : Format.stream [.stored [97]] = [1, 1, 0, 254, 255, 97] := by decide +kernel
  have hcompletes : Completes true (empties 206 ++ Format.stream [.stored [97]]) [97] :=
    completes_empties 206 (by decide)
  have hroom : 0 < 2 := by decide
  have hn : Decompressor.appetite 2 ≤ 5 * 206 := by decide
  obtain ⟨d, hd⟩ := process_empties hroom hn [1, 1, 0, 254, 255, 97]
  obtain ⟨s, hs, -⟩ := (runs_fresh 0 true).process_ok (Codec.process_decompressor hd)
  obtain ⟨m, hm, -⟩ :=
    (Machine.Session.shows_fresh (p := ⟨.portable, .decompress, 0, true⟩) rfl).process
      (empties 206 ++ [1, 1, 0, 254, 255, 97]) 2
  rw [hs] at hm
  rw [hlast] at hcompletes
  refine ⟨m, hm, ?_, hcompletes⟩
  have hlength := length_empties 206
  rw [empties] at hlength
  rw [List.length_append, hlength]
  decide

end Empties

end Conduit
