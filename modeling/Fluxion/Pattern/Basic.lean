import Fluxion.Count
import Fluxion.Grouping

/-!
Sparsity patterns in compressed rows. A pattern is seen through its rows, each a list of columns in
increasing order, and through its entries, numbered row by row.
-/
set_option autoImplicit false

namespace Fluxion

/-- Row `r` holds the columns `col[rowStart[r]], …, col[rowStart[r + 1] - 1]`. -/
structure Pattern where
  nrow : Nat
  ncol : Nat
  rowStart : Array Nat
  col : Array Nat
  deriving DecidableEq, Repr, Inhabited

namespace Pattern

/-- Number of the first entry of row `r`. -/
def start (p : Pattern) (r : Nat) : Nat := p.rowStart.getD r 0

def row (p : Pattern) (r : Nat) : Array Nat := p.col.extract (p.start r) (p.start (r+1))

def nnz (p : Pattern) : Nat := p.col.size

/-- The number of all elements, as a word. -/
def numel (p : Pattern) : Nat := Count.wrap (p.nrow*p.ncol)

def isDense (p : Pattern) : Bool := p.nnz == p.numel

def isEmpty (p : Pattern) : Bool := p.col.isEmpty

/-- One row and one column, whether or not the element is an entry. -/
def isScalar (p : Pattern) : Bool := p.nrow == 1 && p.ncol == 1

def isSquare (p : Pattern) : Bool := p.nrow == p.ncol

/-- Row and column of every entry, in order. -/
def entries (p : Pattern) : Array (Nat × Nat) :=
  (Array.range p.nrow).flatMap fun r => (p.row r).map fun c => (r,c)

def rowIndices (p : Pattern) : Array Nat := p.entries.map (·.1)

/-- Row-major number of every entry among all elements, as a word. -/
def elements (p : Pattern) : Array Nat := p.entries.map fun (r,c) => Count.wrap (r*p.ncol+c)

/-- The number of the entry in row `r` and column `c`. -/
def find? (p : Pattern) (r c : Nat) : Option Nat :=
  if r < p.nrow then ((p.row r).idxOf? c).map (p.start r + ·) else none

def contains (p : Pattern) (r c : Nat) : Bool := (p.find? r c).isSome

/-- Compressed rows: starts do not decrease from zero to the number of entries, and the columns of a
row increase below the number of columns. -/
structure Valid (p : Pattern) : Prop where
  size : p.rowStart.size = p.nrow+1
  first : p.start 0 = 0
  last : p.start p.nrow = p.nnz
  mono : ∀ r, r < p.nrow → p.start r ≤ p.start (r+1)
  bound : ∀ r, r < p.nrow → ∀ c ∈ p.row r, c < p.ncol
  strict : ∀ r, r < p.nrow → (p.row r).toList.Pairwise (· < ·)

/-- Starts of consecutive rows. -/
def starts (rows : Array (Array Nat)) : Array Nat :=
  (rows.foldl (fun (acc, n) row => (acc.push (n+row.size), n+row.size)) (#[0], 0)).1

def ofRows (ncol : Nat) (rows : Array (Array Nat)) : Pattern :=
  ⟨rows.size, ncol, starts rows, rows.flatten⟩

def dense (nrow ncol : Nat) : Pattern := ofRows ncol ((Array.range nrow).map fun _ => .range ncol)

def empty (nrow ncol : Nat) : Pattern := ofRows ncol (.replicate nrow #[])

def scalar : Pattern := dense 1 1

def column (n : Nat) : Pattern := dense n 1

def diagonal (n : Nat) : Pattern := ofRows n ((Array.range n).map fun r => #[r])

/-- The number of row starts of a shape, as a word: the largest number of rows leaves none. -/
def startCount (nrow : Nat) : Nat := Count.wrap (nrow+1)

/-- Room for the starts of so many rows. -/
def checkRows (nrow : Nat) : Except Fault Unit := Count.checkRoom (nrow+1) 8

/-- Without row starts no row can be reached. -/
def checkStarts (p : Pattern) : Except Fault Unit :=
  if p.rowStart.isEmpty then throw (.violation .rowOutside) else return ()

/-- As `dense`, for a shape that may be too large. -/
def dense? (nrow ncol : Nat) : Except Fault Pattern := do
  checkRows nrow
  if 0 < nrow then Count.checkRoom ncol 8
  return dense nrow ncol

/-- As `empty`, for a shape that may have too many rows. No row starts take no room. -/
def empty? (nrow ncol : Nat) : Except Fault Pattern := do
  if startCount nrow = 0 then return ⟨nrow, ncol, #[], #[]⟩
  checkRows nrow
  return empty nrow ncol

/-- One pass of a row: a start after the next one, a column that is no column or columns out of order
are refused. Starts beyond the last entry break the caller's promise. -/
def checkRow (p : Pattern) (r : Nat) : Except Fault Unit := do
  if p.start (r+1) < p.start r then throw (.invalidPattern (.rowStartDecreases r))
  if p.nnz < p.start (r+1) then throw (.violation .rowOutside)
  let row := (p.row r).toList
  if row.any (p.ncol ≤ ·) then throw (.invalidPattern (.columnOutOfRange r))
  if (row.zip row.tail).any (fun (a,b) => b ≤ a) then
    throw (.invalidPattern (.columnsNotIncreasing r))

/-- The fault of a wrong number of row starts. Where the right number is none, the first start is missed. -/
def startFault (nrow got : Nat) : Fault :=
  if got = startCount nrow then .violation .rowOutside
  else .invalidPattern (.rowStartLength got (startCount nrow))

def ofCompressed (nrow ncol : Nat) (rowStart col : Array Nat) : Except Fault Pattern := do
  let p : Pattern := ⟨nrow, ncol, rowStart, col⟩
  if rowStart.size ≠ nrow+1 then throw (startFault nrow rowStart.size)
  if p.start 0 ≠ 0 || p.start nrow ≠ col.size then throw (.invalidPattern .rowStartEnds)
  (List.range nrow).forM p.checkRow
  return p

/-- Drops every element that the next one repeats. -/
def once (xs : List Nat) : List Nat := xs.foldr (fun a r => if r.head? = some a then r else a :: r) []

/-- A list in increasing order, each element once. -/
def sortedOnce (xs : Array Nat) : Array Nat := (once (xs.toList.mergeSort (· ≤ ·))).toArray

/-- Puts the columns from number `first` on and before number `last` in increasing order. -/
def sortRow (col : Array Nat) (first last : Nat) : Array Nat :=
  (((col.extract first last).toList.mergeSort (· ≤ ·)).zipIdx first).foldl
    (fun col (c,k) => col.setIfInBounds k c) col

/-- Columns of rows that stand one after the other, while repeated ones are merged: those that stay are written to
the front of the array that is still being read. -/
structure Merge where
  col : Array Nat
  written : Nat
  rowStart : Array Nat

/-- Column number `k` stays unless it repeats the last one of its row. -/
def Merge.keep (x : Merge × Option Nat) (k : Nat) : Merge × Option Nat :=
  let (s, last) := x
  let c := s.col.getD k 0
  if last = some c then (s, last)
  else ({s with col := s.col.setIfInBounds s.written c, written := s.written+1}, some c)

/-- The next row ends where the last of its columns that stay is written. -/
def Merge.row (s : Merge) (first last : Nat) : Merge :=
  let s := {s with col := sortRow s.col first last}
  let (s, _) := (List.range' first (last-first)).foldl keep (s, none)
  {s with rowStart := s.rowStart.push s.written}

/-- The pattern of the listed entries, in any order and with any repetition. -/
def ofEntries (nrow ncol : Nat) (entries : Array (Nat × Nat)) : Pattern :=
  let starts := Grouping.starts nrow (entries.map (·.1))
  let col := (Grouping.arrange nrow (·.1) entries).map (·.2)
  let s := (List.range nrow).foldl (fun s r => s.row (starts.getD r 0) (starts.getD (r+1) 0))
    (⟨col, 0, #[0]⟩ : Merge)
  ⟨nrow, ncol, s.rowStart, s.col.take s.written⟩

/-- Refuses the first entry outside the shape. -/
def checkInside (nrow ncol : Nat) (entries : Array (Nat × Nat)) : Except Fault Unit :=
  match entries.find? (fun (r,c) => !(r < nrow && c < ncol)) with
  | some (r,c) => throw (.violation (.entryOutside r c nrow ncol))
  | none => return ()

/-- As `ofEntries`, for a list that may hold an entry outside the shape. -/
def ofEntries? (nrow ncol : Nat) (entries : Array (Nat × Nat)) : Except Fault Pattern := do
  checkInside nrow ncol entries
  return ofEntries nrow ncol entries

/-- Room to count the entries of every row. Where there are no row starts, the first entry is compared
with the shape before its count is missed. -/
def checkCounts (nrow ncol : Nat) (entries : Array (Nat × Nat)) : Except Fault Unit := do
  if startCount nrow = 0 then checkInside nrow ncol (entries.extract 0 1)
  checkRows nrow

/-- Every entry with its number, column by column: the columns are counted, and each entry goes to the next place
of its column. -/
def byColumn (p : Pattern) : Array ((Nat × Nat) × Nat) :=
  Grouping.arrange p.ncol (fun e => e.1.2) p.entries.zipIdx

def transpose (p : Pattern) : Pattern :=
  ⟨p.ncol, p.nrow, Grouping.starts p.ncol p.col, p.byColumn.map (·.1.1)⟩

/-- Columns that can become rows, and rows that can be reached. -/
def checkTranspose (p : Pattern) : Except Fault Unit := do
  checkRows p.ncol
  p.checkStarts

/-- As `transpose`, for a pattern that may have too many rows or columns. -/
def transpose? (p : Pattern) : Except Fault Pattern := do
  p.checkTranspose
  return p.transpose

/-- For every entry of the transpose, the number of the same entry before. -/
def transposeMap (p : Pattern) : Array Nat := p.byColumn.map (·.2)

def union (p q : Pattern) : Except Fault Pattern :=
  if p.nrow = q.nrow ∧ p.ncol = q.ncol then return ofEntries p.nrow p.ncol (p.entries ++ q.entries)
  else throw (.violation .shapesDiffer)

/-- The least symmetric pattern that contains a square one. -/
def symmetrize (p : Pattern) : Except Fault Pattern :=
  if p.isSquare then p.union p.transpose else throw (.violation .shapesDiffer)

def isSymmetric (p : Pattern) : Bool := p.isSquare && p == p.transpose

/-- Every entry when row `r` becomes row `rowMap[r]` and column `c` becomes column `colMap[c]`. -/
def images (p : Pattern) (rowMap colMap : Array Nat) : Array (Nat × Nat) :=
  p.entries.map fun (r,c) => (rowMap.getD r 0, colMap.getD c 0)

/-- The images of the entries in a larger shape. -/
def enlarge (p : Pattern) (nrow ncol : Nat) (rowMap colMap : Array Nat) : Except Fault Pattern :=
  if rowMap.size = p.nrow ∧ colMap.size = p.ncol then ofEntries? nrow ncol (p.images rowMap colMap)
  else throw (.violation .mapLength)

/-- As `enlarge`, for a shape that may have too many rows. -/
def enlarge? (p : Pattern) (nrow ncol : Nat) (rowMap colMap : Array Nat) : Except Fault Pattern := do
  if rowMap.size = p.nrow ∧ colMap.size = p.ncol then checkCounts nrow ncol (p.images rowMap colMap)
  p.enlarge nrow ncol rowMap colMap

/-- A line for the shape, then one for each row with a star at every entry. -/
def text (p : Pattern) : String :=
  let line (r : Nat) : String :=
    String.ofList
      ((p.row r).foldl (fun cs c => cs.setIfInBounds c '*') (Array.replicate p.ncol '.')).toList
  s!"{p.nrow}x{p.ncol}, {p.nnz} nnz\n" ++
    String.join ((List.range p.nrow).map fun r => line r ++ "\n")

end Pattern

end Fluxion
