import Conduit.Proofs.Deflate.Reading

namespace Conduit.Deflate

open BitParser Relation

inductive Outcome (limit : Nat) (c : Cursor) : Flow → Prop
  | next {d : Cursor} (grows : c.history.toList <+: d.history.toList) : Outcome limit c (.next d)
  | starved : Outcome limit c (.stop .needInput c)
  | full {d : Cursor} (grows : c.history.toList <+: d.history.toList)
      (full : limit ≤ d.history.size) : Outcome limit c (.stop .full d)
  | refused (flaw : Flaw) (d : Cursor) : Outcome limit c (.stop (.refused flaw) d)
  | ended {d : Cursor} (history : d.history = c.history) (ended : d.stage = .ended) :
      Outcome limit c (.stop .ended d)

variable {framed : Bool} {sum : Adler} {base limit : Nat} {c d w : Cursor}

theorem outcome_reading {α : Type} (p : Parser α) {next : α → BitReader → Flow}
    (h : ∀ a r, Outcome limit c (next a r)) : Outcome limit c (c.reading p next) := by
  rw [Cursor.reading]
  split
  · exact h _ _
  · exact .starved
  · exact .refused _ _

theorem extend_spec {distance n : Nat} {history after : Array UInt8}
    (h : extend distance n history = some after) :
    history.toList <+: after.toList ∧ after.size = history.size + n := by
  induction n generalizing history with
  | zero =>
    cases h
    exact ⟨List.prefix_refl _, rfl⟩
  | succ n ih =>
    rw [extend] at h
    split at h
    next byte _ =>
      obtain ⟨hgrows, hsize⟩ := ih h
      rw [Array.toList_push] at hgrows
      rw [Array.size_push] at hsize
      exact ⟨(List.prefix_append _ _).trans hgrows, by omega⟩
    · cases h

theorem outcome_copying (last : Bool) (tables : Tables) (length distance : Nat) (reader : BitReader)
    (history : Array UInt8) :
    Outcome limit ⟨reader, .copying last tables length distance, history⟩
      (step framed sum base limit ⟨reader, .copying last tables length distance, history⟩) := by
  rw [step]
  split
  · exact .refused _ _
  next after hafter =>
    obtain ⟨hgrows, hsize⟩ := extend_spec hafter
    split
    next hlt =>
      refine .full hgrows ?_
      dsimp only
      omega
    · exact .next hgrows

theorem outcome_step (framed : Bool) (sum : Adler) (base limit : Nat) (c : Cursor) :
    Outcome limit c (step framed sum base limit c) := by
  obtain ⟨reader, stage, history⟩ := c
  cases stage with
  | frameHeader =>
    rw [step_frameHeader]
    exact outcome_reading _ fun _ _ => .next (List.prefix_refl _)
  | blockHead =>
    rw [step_blockHead]
    exact outcome_reading _ fun _ _ => .next (List.prefix_refl _)
  | stored last left =>
    rw [step]
    split
    · exact .next (List.prefix_refl _)
    split
    next hfull => exact .full (List.prefix_refl _) hfull
    split
    · exact .starved
    · refine .next ?_
      rw [Array.toList_appendList]
      exact List.prefix_append _ _
  | tokens last tables =>
    by_cases hroom : history.size < limit
    · rw [step_tokens _ _ _ _ _ _ _ _ hroom]
      refine outcome_reading _ fun token _ => .next ?_
      obtain - | ⟨byte⟩ | ⟨length, distance⟩ := token
      · exact List.prefix_refl _
      · rw [afterToken, Array.toList_push]
        exact List.prefix_append _ _
      · exact List.prefix_refl _
    · rw [step, if_pos (Nat.not_lt.mp hroom)]
      exact .full (List.prefix_refl _) (Nat.not_lt.mp hroom)
  | copying last tables length distance => exact outcome_copying _ _ _ _ _ _
  | trailer =>
    rw [step_trailer]
    refine outcome_reading _ fun _ _ => ?_
    split
    · exact .ended rfl rfl
    · exact .refused _ _
  | ended => exact .ended rfl rfl

theorem exists_step_of_run {pause : Pause} (h : run framed sum base limit c = (pause, w)) :
    ∃ last, step framed sum base limit last = .stop pause w := by
  induction hn : c.work using Nat.strong_induction_on generalizing c with
  | _ n ih =>
    rw [run] at h
    split at h
    next d hd => exact ih d.work (hn ▸ work_lt_of_step hd) h rfl
    next pause d hd =>
      cases h
      exact ⟨c, hd⟩

section Output

theorem prefix_of_leads (h : Leads framed c d) : c.history.toList <+: d.history.toList := by
  have ho := outcome_step framed .start 0 (c.history.size + 1) c
  obtain h | h := h <;>
  · rw [tick] at h
    rw [h] at ho
    cases ho
    assumption

theorem prefix_of_leadsTo (h : ReflTransGen (Leads framed) c d) :
    c.history.toList <+: d.history.toList := by
  induction h with
  | refl => exact List.prefix_refl _
  | tail _ h ih => exact ih.trans (prefix_of_leads h)

/-- What a reading has given out is the beginning of all that it comes to. -/
theorem prefix_of_halts (h : Halts framed c .ended d) : c.history.toList <+: d.history.toList := by
  obtain ⟨-, mid, hl, ht⟩ := h
  have ho := outcome_step framed .start 0 (mid.history.size + 1) mid
  rw [tick] at ht
  rw [ht] at ho
  cases ho with
  | ended history _ => exact history ▸ prefix_of_leadsTo hl

end Output

end Conduit.Deflate
