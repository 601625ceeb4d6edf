import Fluxion.Pattern.Basic

/-!
Families of patterns: bands, arrows, and rows filled by a linear congruential generator; and recipes, which
make a pattern from others.
-/
set_option autoImplicit false

namespace Fluxion.Pattern

/-- Entries at most `h` off the diagonal. -/
def banded (n h : Nat) : Pattern :=
  ofRows n ((Array.range n).map fun r => (Array.range n).filter fun c => r ≤ c+h && c ≤ r+h)

/-- The diagonal, the first row and the first column. -/
def arrow (n : Nat) : Pattern :=
  ofEntries n n ((Array.range n).flatMap fun i => #[(i,i), (0,i), (i,0)])

/-- The next state of the generator, modulo `2 ^ 64`. -/
def nextState (s : UInt64) : UInt64 := s*6364136223846793005+1442695040888963407

def drawRow (ncol : Nat) : Nat → UInt64 → Array Nat → Array Nat × UInt64
  | 0, s, row => (row, s)
  | k+1, s, row =>
    let s := nextState s
    drawRow ncol k s (row.push ((s >>> 33).toNat % ncol))

/-- Draws `k` columns for each row from the high bits of the generator. There has to be a column. -/
def scattered (nrow ncol k : Nat) (seed : UInt64) : Except Fault Pattern :=
  if ncol = 0 && nrow*k ≠ 0 then throw (.violation .noColumns)
  else
    let (rows, _) := (List.range nrow).foldl (fun (rows, s) _ =>
      let (row, s) := drawRow ncol k s #[]
      (rows.push (sortedOnce row), s)) ((#[] : Array (Array Nat)), seed)
    return ofRows ncol rows

/-- How a pattern is made. -/
inductive Recipe where
  | dense (nrow ncol : Nat)
  | empty (nrow ncol : Nat)
  | diagonal (n : Nat)
  | column (n : Nat)
  | scalar
  | entries (nrow ncol : Nat) (es : Array (Nat × Nat))
  | compressed (nrow ncol : Nat) (rowStart col : Array Nat)
  | transpose (p : Recipe)
  | union (p q : Recipe)
  | symmetrize (p : Recipe)
  | enlarge (p : Recipe) (nrow ncol : Nat) (rowMap colMap : Array Nat)
  | banded (n h : Nat)
  | arrow (n : Nat)
  | scattered (nrow ncol k : Nat) (seed : UInt64)
  deriving DecidableEq, Repr, Inhabited

/-- Follows a recipe from the inside out. -/
def Recipe.make : Recipe → Except Fault Pattern
  | dense nrow ncol => dense? nrow ncol
  | empty nrow ncol => empty? nrow ncol
  | diagonal n => do
    checkRows n
    return .diagonal n
  | column n => do
    checkRows n
    return .column n
  | scalar => return .scalar
  | entries nrow ncol es => do
    checkCounts nrow ncol es
    ofEntries? nrow ncol es
  | compressed nrow ncol rowStart col => ofCompressed nrow ncol rowStart col
  | transpose p => do (← p.make).transpose?
  | union p q => do
    let p ← p.make
    let q ← q.make
    p.checkStarts
    q.checkStarts
    p.union q
  | symmetrize p => do
    let p ← p.make
    p.checkTranspose
    p.symmetrize
  | enlarge p nrow ncol rowMap colMap => do (← p.make).enlarge? nrow ncol rowMap colMap
  | banded n h => do
    checkRows n
    return .banded n h
  | arrow n => do
    checkRows n
    return .arrow n
  | scattered nrow ncol k seed => do
    checkRows nrow
    Pattern.scattered nrow ncol k seed

end Fluxion.Pattern
