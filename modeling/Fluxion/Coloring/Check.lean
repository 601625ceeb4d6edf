import Fluxion.Coloring.Basic

/-!
Checkers for colorings given by their seeds.
-/
set_option autoImplicit false

namespace Fluxion.Coloring

/-- No color twice among the columns of one row. -/
def rowSeparated (cs : Colors) (count : Nat) (row : List Nat) : Bool :=
  let step : Option (Array Bool) → Nat → Option (Array Bool)
    | none, _ => none
    | some seen, c =>
      let k := (color cs c).getD count
      if seen.getD k false then none else some (seen.setIfInBounds k true)
  (row.foldl step (some (.replicate count false))).isSome

/-- The seeds have as many entries as there are columns. -/
def fits (a s : Pattern) : Bool := s.ncol == a.ncol && s.nnz == a.ncol

def isColored (cs : Colors) : Bool := cs.all (·.isSome)

/-- Every column has a color, and no two columns of one row have the same. -/
def separatesRows (a : Pattern) (cs : Colors) (count : Nat) : Bool :=
  isColored cs && (List.range a.nrow).all fun r => rowSeparated cs count (a.row r).toList

def isColumnColoring (a s : Pattern) : Bool := fits a s && separatesRows a (colorsOf s) s.nrow

/-- As `isColumnColoring`, for patterns that may have too many rows. Seeds that do not fit or leave a
column without a color are refused before any row of `a` is looked at. -/
def isColumnColoring? (a s : Pattern) : Except Fault Bool := do
  if !fits a s then return false
  s.checkStarts
  if !isColored (colorsOf s) then return false
  a.checkStarts
  return isColumnColoring a s

/-- No edge at `b` joins one color, and no path `x, b, y, d` uses two colors. -/
def starAt (a : Pattern) (cs : Colors) (b : Nat) : Bool :=
  let adj := neighbours a b
  adj.all (fun x => color cs x != color cs b) &&
    adj.all fun x => adj.all fun y =>
      x == y || color cs x != color cs y ||
        (neighbours a y).all fun d => d == b || color cs d != color cs b

def separatesPaths (a : Pattern) (cs : Colors) : Bool := (List.range a.nrow).all (starAt a cs)

def isStarColoring (a s : Pattern) : Bool := a.isSquare && fits a s && separatesPaths a (colorsOf s)

/-- As `isStarColoring`, for patterns that may have too many rows. -/
def isStarColoring? (a s : Pattern) : Except Fault Bool := do
  if !(a.isSquare && fits a s) then return false
  s.checkStarts
  a.checkStarts
  return isStarColoring a s

end Fluxion.Coloring
