import Conduit.Proofs.Checksum.Textbook
import Conduit.Proofs.Machine.Checked

namespace Conduit.Adler

def addByte? (s : Adler) (byte : UInt8) : Option Adler := do
  let low ← Machine.add? s.low byte.toUInt32
  let high ← Machine.add? s.high low
  return ⟨low, high⟩

def addRun? (s : Adler) (run : List UInt8) : Option Adler := do
  let s ← run.foldlM addByte? s
  return s.reduce

def update? (s : Adler) (bytes : List UInt8) : Option Adler :=
  match bytes with
  | [] => some s
  | byte :: rest => do
    let s ← s.addRun? (byte :: rest.take (runLength - 1))
    update? s (rest.drop (runLength - 1))
termination_by bytes.length
decreasing_by simp only [List.length_drop, List.length_cons]; omega

variable {s : Adler} {k : Nat}

theorem Within.addByte? (h : s.Within k) (hk : k < runLength) (byte : UInt8) :
    s.addByte? byte = some (s.addByte byte) := by
  obtain ⟨hlow, hhigh⟩ := toNat_addByte h hk byte
  have hlow' : s.low.toNat + byte.toUInt32.toNat < 2 ^ 32 := by
    rw [UInt8.toNat_toUInt32, ← hlow]
    exact UInt32.toNat_lt _
  have hhigh' : s.high.toNat + (s.low + byte.toUInt32).toNat < 2 ^ 32 := by
    rw [Machine.toNat_add_of_lt hlow', UInt8.toNat_toUInt32, ← hhigh]
    exact UInt32.toNat_lt _
  rw [Adler.addByte?, Machine.add?_of_lt hlow']
  simp only [Option.bind_eq_bind, Option.bind_some, Machine.add?_of_lt hhigh']
  rfl

theorem Within.foldlM_addByte? (h : s.Within k) (run : List UInt8)
    (hk : k + run.length ≤ runLength) :
    run.foldlM Adler.addByte? s = some (run.foldl Adler.addByte s) := by
  induction run generalizing k s with
  | nil => rfl
  | cons byte run ih =>
    rw [List.length_cons] at hk
    have hbyte : k < runLength := by omega
    rw [List.foldlM_cons, h.addByte? hbyte byte]
    exact ih (h.addByte hbyte byte) (by omega)

theorem Reduced.addRun? (h : s.Reduced) {run : List UInt8} (hr : run.length ≤ runLength) :
    s.addRun? run = some (s.addRun run) := by
  rw [Adler.addRun?, h.within.foldlM_addByte? run (by omega)]
  rfl

/-- Each run begins with sums that have been reduced. -/
theorem Reduced.update? (h : s.Reduced) (bytes : List UInt8) :
    s.update? bytes = some (s.update bytes) := by
  fun_induction Adler.update s bytes with
  | case1 => rw [Adler.update?]
  | case2 s byte rest ih =>
    have hr : (byte :: rest.take (runLength - 1)).length ≤ runLength := by
      simp only [List.length_cons, List.length_take, runLength]
      omega
    rw [Adler.update?, h.addRun? hr]
    exact ih (reduced_reduce _)

theorem Reduced.foldlM_update? (h : s.Reduced) (parts : List (List UInt8)) :
    parts.foldlM Adler.update? s = some (parts.foldl Adler.update s) := by
  induction parts generalizing s with
  | nil => rfl
  | cons bytes parts ih =>
    rw [List.foldlM_cons, h.update? bytes]
    exact ih (h.update bytes)

theorem Reduced.foldl_update (h : s.Reduced) (parts : List (List UInt8)) :
    parts.foldl Adler.update s = s.update parts.flatten := by
  induction parts generalizing s with
  | nil => rw [List.flatten_nil, update_nil, List.foldl_nil]
  | cons bytes parts ih =>
    rw [List.foldl_cons, ih (h.update bytes), List.flatten_cons, h.update_append]

/-- In whatever parts a message is taken, no sum is ever too great for its word, and what comes of
them is the textbook checksum of the whole. -/
theorem sums_exact_in_words (parts : List (List UInt8)) :
    parts.foldlM update? start = some (parts.foldl update start) ∧
      (parts.foldl update start).value.toNat = checksum parts.flatten := by
  refine ⟨reduced_start.foldlM_update? parts, ?_⟩
  rw [reduced_start.foldl_update, value_update_start]

end Conduit.Adler
