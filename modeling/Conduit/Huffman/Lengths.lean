namespace Conduit.Huffman

inductive Tree where
  | leaf (symbol : Nat)
  | node (left right : Tree)

def Tree.depths : Tree → Nat → List (Nat × Nat)
  | .leaf symbol, depth => [(symbol, depth)]
  | .node left right, depth => left.depths (depth + 1) ++ right.depths (depth + 1)

/-- A tree that waits to be merged; `rank` settles ties of weight. -/
structure Waiting where
  weight : Nat
  rank : Nat
  tree : Tree

def Waiting.before (a b : Waiting) : Bool :=
  a.weight < b.weight || (a.weight == b.weight && a.rank < b.rank)

def enqueue (t : Waiting) : List Waiting → List Waiting
  | [] => [t]
  | q :: queue => if t.before q then t :: q :: queue else q :: enqueue t queue

theorem length_enqueue (t : Waiting) (queue : List Waiting) :
    (enqueue t queue).length = queue.length + 1 := by
  induction queue with
  | nil => rfl
  | cons q queue ih => grind [enqueue]

/-- Merges the two lightest trees until one is left; merged trees rank behind all earlier ones. -/
def merge (queue : List Waiting) (rank : Nat) : Option Tree :=
  match queue with
  | [] => none
  | [t] => some t.tree
  | a :: b :: rest =>
    merge (enqueue ⟨a.weight + b.weight, rank, .node a.tree b.tree⟩ rest) (rank + 1)
termination_by queue.length
decreasing_by simp [length_enqueue]

/-- The symbols that receive a code: those that occur and, while they are fewer than two, the lowest
of the others. -/
def codedSymbols (freqs : List Nat) : List Nat :=
  let occurring := (freqs.filter (0 < ·)).length
  let absent := freqs.zipIdx.filterMap fun (f, s) => if f = 0 then some s else none
  let fillers := absent.take (2 - occurring)
  freqs.zipIdx.filterMap fun (f, s) => if 0 < f || fillers.contains s then some s else none

def leaves (freqs : List Nat) : List Waiting :=
  (codedSymbols freqs).zipIdx.foldl
    (fun queue (s, rank) => enqueue ⟨max (freqs.getD s 0) 1, rank, .leaf s⟩ queue) []

def tree? (freqs : List Nat) : Option Tree :=
  merge (leaves freqs) (codedSymbols freqs).length

def total (numbers : List Nat) : Nat :=
  numbers.foldr (· + ·) 0

theorem total_cons (n : Nat) (numbers : List Nat) : total (n :: numbers) = n + total numbers := rfl

structure Coded where
  symbol : Nat
  freq : Nat
  length : Nat

/-- The share of the code space that a code of the given length takes, in units of the shortest. -/
def share (limit length : Nat) : Nat :=
  1 <<< (limit - length)

def shares (limit : Nat) (codes : List Coded) : Nat :=
  total (codes.map fun c => share limit c.length)

def greatest? (eligible : Coded → Bool) (below : Coded → Coded → Bool) (codes : List Coded) :
    Option Coded :=
  codes.foldl (fun best c =>
    if eligible c then
      match best with
      | none => some c
      | some b => if below c b then some b else some c
    else best) none

theorem greatest?_mem {eligible : Coded → Bool} {below : Coded → Coded → Bool} {codes : List Coded}
    {c : Coded} (h : greatest? eligible below codes = some c) : c ∈ codes ∧ eligible c := by
  have fold (codes : List Coded) (best : Option Coded) (p : Coded → Prop)
      (hb : ∀ d ∈ best, p d) (hc : ∀ d ∈ codes, eligible d → p d) :
      ∀ d ∈ codes.foldl (fun best c =>
        if eligible c then
          match best with
          | none => some c
          | some b => if below c b then some b else some c
        else best) best, p d := by
    induction codes generalizing best with
    | nil => simpa using hb
    | cons e codes ih =>
      rw [List.foldl_cons]
      refine ih _ ?_ fun d hd => hc d (List.mem_cons_of_mem _ hd)
      cases best <;> grind
  exact fold codes none (fun d => d ∈ codes ∧ eligible d) (by simp) (fun d hd he => ⟨hd, he⟩) c h

def adjust (codes : List Coded) (symbol : Nat) (f : Nat → Nat) : List Coded :=
  codes.map fun c => if c.symbol = symbol then { c with length := f c.length } else c

theorem total_adjust_lt {codes : List Coded} {c : Coded} (f size : Nat → Nat) (hc : c ∈ codes)
    (hle : ∀ n, size (f n) ≤ size n) (hlt : size (f c.length) < size c.length) :
    total ((adjust codes c.symbol f).map fun d => size d.length) <
      total (codes.map fun d => size d.length) := by
  have le (codes : List Coded) : total ((adjust codes c.symbol f).map fun d => size d.length) ≤
      total (codes.map fun d => size d.length) := by
    induction codes with
    | nil => simp [adjust]
    | cons d codes ih =>
      have := hle d.length
      simp only [adjust, List.map_cons, total_cons] at ih ⊢
      by_cases hs : d.symbol = c.symbol <;> simp only [hs, ↓reduceIte] <;> omega
  induction codes with
  | nil => simp at hc
  | cons d codes ih =>
    have hd := hle d.length
    have hs := le codes
    simp only [adjust, List.map_cons, total_cons] at ih hs ⊢
    obtain rfl | hc := List.mem_cons.1 hc
    · simp only [↓reduceIte]; omega
    · have := ih hc
      by_cases hs : d.symbol = c.symbol <;> simp only [hs, ↓reduceIte] <;> omega

def rarerBelow (c d : Coded) : Bool :=
  c.length < d.length || (c.length == d.length && d.freq < c.freq)

def commonBelow (c d : Coded) : Bool :=
  c.length < d.length || (c.length == d.length && c.freq < d.freq)

/-- While the codes take more than the whole code space, lengthens the rarest of the longest codes
that can still grow. -/
def lengthen (limit : Nat) (codes : List Coded) : List Coded :=
  if shares limit codes ≤ 1 <<< limit then codes
  else
    match _h : greatest? (fun c => c.length < limit) rarerBelow codes with
    | none => codes
    | some c => lengthen limit (adjust codes c.symbol (· + 1))
termination_by total (codes.map fun c => limit - c.length)
decreasing_by
  obtain ⟨hc, hl⟩ := greatest?_mem _h
  have hl : c.length < limit := by simpa using hl
  exact total_adjust_lt (· + 1) (limit - ·) hc (fun n => by omega) (by omega)

/-- Whether a code can lose a bit: it keeps one, and the free space can double its share. -/
def mayShorten (limit free : Nat) (c : Coded) : Bool :=
  1 < c.length && share limit c.length ≤ free

/-- While the codes leave some of the code space free, shortens the most frequent of the longest
codes that fit. -/
def shorten (limit : Nat) (codes : List Coded) : List Coded :=
  if 1 <<< limit ≤ shares limit codes then codes
  else
    let free := 1 <<< limit - shares limit codes
    match _h : greatest? (mayShorten limit free) commonBelow codes with
    | none => codes
    | some c => shorten limit (adjust codes c.symbol (· - 1))
termination_by total (codes.map fun c => c.length)
decreasing_by
  obtain ⟨hc, hl⟩ := greatest?_mem _h
  have hl : 1 < c.length := by
    simp only [mayShorten, Bool.and_eq_true, decide_eq_true_eq] at hl
    exact hl.1
  exact total_adjust_lt (· - 1) id hc (fun n => by simp) (by simp only [id]; omega)

def limitLengths (limit : Nat) (codes : List Coded) : List Coded :=
  shorten limit (lengthen limit (codes.map fun c => { c with length := min c.length limit }))

def scatter (size : Nat) (codes : List Coded) : List Nat :=
  let lengths := codes.foldl (fun lengths c => lengths.setIfInBounds c.symbol c.length)
    (Array.replicate size 0)
  lengths.toList

def treeCodes (freqs : List Nat) : List Coded :=
  match tree? freqs with
  | none => []
  | some tree =>
    let depths := (tree.depths 0).foldl (fun a (s, d) => a.setIfInBounds s d)
      (Array.replicate freqs.length 0)
    (codedSymbols freqs).map fun s => ⟨s, freqs.getD s 0, depths.getD s 0⟩

/-- Code lengths for the frequencies, none above `limit`. A single symbol gets length one. -/
def buildLengths (freqs : List Nat) (limit : Nat) : List Nat :=
  let codes := treeCodes freqs
  if codes.length < 2 then scatter freqs.length (codes.map fun c => { c with length := 1 })
  else if codes.any fun c => limit < c.length then scatter freqs.length (limitLengths limit codes)
  else scatter freqs.length codes

/-- The code lengths, unless some have to be cut to a limit whose code space exceeds 64 bits. -/
def buildLengths? (freqs : List Nat) (limit : Nat) : Option (List Nat) :=
  if 64 ≤ limit ∧ (treeCodes freqs).any (fun c => limit < c.length) then none
  else some (buildLengths freqs limit)

end Conduit.Huffman
