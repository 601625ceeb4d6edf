import Fluxion.Coloring.Basic
import Fluxion.Detect.Refine

/-!
Hierarchical detection: one dense block is refined until every block is a single entry.
-/
set_option autoImplicit false

namespace Fluxion.Detect

variable {σ : Type}

/-- Blocks of rows and of columns, and the pairs of them that may depend. -/
structure Grid where
  rows : List Nat
  cols : List Nat
  pattern : Pattern

def Grid.start (nrow ncol : Nat) : Grid := ⟨[0,nrow], [0,ncol], .dense 1 1⟩

def Grid.isFine (g : Grid) (nrow ncol : Nat) : Bool :=
  g.rows.length == nrow+1 && g.cols.length == ncol+1

/-- Sweeps that a coloring of blocks costs at most. -/
def sweepCost (seeds : Pattern) (bounds : List Nat) : Nat :=
  seeds.nrow * min (maxBlock bounds) Word.size

/-- The direction of a round: forward unless `penalty` times the reverse cost is less. -/
def roundDirection (s : Propagation σ) (mode : AdMode) (penalty : Nat) (g : Grid) : Direction :=
  s.choose mode
    (if forwardWins penalty (sweepCost (Coloring.columns g.pattern) g.cols)
        (sweepCost (Coloring.rows g.pattern) g.rows)
      then .forward else .reverse)

/-- The grid of the parts, from the pairs that a sweep in the given direction found. -/
def Grid.ofRefinement (dir : Direction) (r : Refinement) : Except Fault Grid :=
  let seeds := r.fineSeed.length - 1
  let sens := r.fineSens.length - 1
  match dir with
  | .forward => return ⟨r.fineSens, r.fineSeed, ← Pattern.ofEntries? sens seeds r.found⟩
  | .reverse =>
    return ⟨r.fineSeed, r.fineSens, ← Pattern.ofEntries? seeds sens (r.found.map fun (a,b) => (b,a))⟩

def refineGrid (s : Propagation σ) (dir : Direction) (g : Grid) : ExceptT Fault (StateM σ) Grid := do
  let r ← match dir with
    | .forward => refine s dir false g.pattern (Coloring.columns g.pattern) g.cols g.rows
    | .reverse => refine s dir false g.pattern.transpose (Coloring.rows g.pattern) g.rows g.cols
  Grid.ofRefinement dir r

/-- Rounds until the grid is fine. Each makes a block of more than one index smaller, so the number of
indices bounds their number. -/
def hierarchicalRounds (s : Propagation σ) (mode : AdMode) (penalty : Nat) :
    Nat → Grid → ExceptT Fault (StateM σ) Grid
  | 0, g => pure g
  | fuel+1, g => do
    let g ← refineGrid s (roundDirection s mode penalty g) g
    if g.isFine s.nnzOut s.nnzIn then return g else hierarchicalRounds s mode penalty fuel g

def hierarchical (s : Propagation σ) (mode : AdMode) (penalty : Nat) :
    ExceptT Fault (StateM σ) Pattern := do
  if s.nnzIn = 0 || s.nnzOut = 0 then return .empty s.nnzOut s.nnzIn
  let g ← hierarchicalRounds s mode penalty (s.nnzIn+s.nnzOut) (.start s.nnzOut s.nnzIn)
  return g.pattern

/-- A star coloring of the blocks, which is defined for every square pattern. -/
def starSeeds (p : Pattern) : Pattern := (Coloring.star p).toOption.getD (Coloring.columns p)

def symmetricRounds (s : Propagation σ) :
    Nat → List Nat → Pattern → ExceptT Fault (StateM σ) Pattern
  | 0, _, p => pure p
  | fuel+1, bounds, p => do
    let r ← refine s .forward true p (starSeeds p) bounds bounds
    let n := r.fineSeed.length - 1
    let p ← Pattern.ofEntries? n n r.found
    if r.fineSeed.length = s.nnzIn+1 then return p else symmetricRounds s fuel r.fineSeed p

/-- For a block known to be symmetric: forward sweeps only, and every pair with its mirror. -/
def hierarchicalSymmetric (s : Propagation σ) : ExceptT Fault (StateM σ) Pattern := do
  if s.nnzIn ≠ s.nnzOut then throw (.violation .notSquare)
  if s.nnzIn = 0 then return .empty 0 0
  symmetricRounds s s.nnzIn [0,s.nnzIn] (.dense 1 1)

end Fluxion.Detect
