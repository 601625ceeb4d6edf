import Fluxion.Pattern.Basic

/-!
Greedy colorings of columns, of rows and of the graph of a symmetric pattern. A coloring is given by its
seeds: a pattern with one row for each color, which lists the indices of that color.
-/
set_option autoImplicit false

namespace Fluxion.Coloring

/-- The color of every index, where it has one. -/
abbrev Colors := Array (Option Nat)

def color (cs : Colors) (v : Nat) : Option Nat := (cs[v]?).join

/-- Indices below `n` by decreasing degree, equal degrees in increasing order. -/
def largestFirst (degree : Nat → Nat) (n : Nat) : List Nat :=
  let d := (Array.range n).map degree
  (List.range n).mergeSort fun a b => d.getD b 0 ≤ d.getD a 0

/-- For each color the index for which it was forbidden last. Marks are not cleared between two indices. -/
abbrev Marks := Array (Option Nat)

/-- Marks each color of the list for index `v`. -/
def Marks.forbid (marks : Marks) (v : Nat) (taken : List Nat) : Marks :=
  taken.foldl (fun m k => m.setIfInBounds k (some v)) marks

/-- The least color that is not marked for index `v`, a new one where there is none. -/
def Marks.take (marks : Marks) (v : Nat) : Nat × Marks :=
  match marks.findIdx? (· != some v) with
  | some k => (k, marks)
  | none => (marks.size, marks.push none)

/-- Index `v` takes the least color that `forbidden` leaves. -/
def next (forbidden : Colors → Nat → List Nat) (cs : Colors) (marks : Marks) (v : Nat) : Colors × Marks :=
  let (k, marks) := (marks.forbid v (forbidden cs v)).take v
  (cs.setIfInBounds v (some k), marks)

/-- Every index of the list takes a color, and there are as many colors as marks. -/
def greedy (forbidden : Colors → Nat → List Nat) (n : Nat) (order : List Nat) : Colors × Nat :=
  let (cs, marks) := order.foldl (fun (cs, marks) v => next forbidden cs marks v) (.replicate n none, #[])
  (cs, marks.size)

/-- The seeds of a coloring: row `k` lists the indices of color `k`. -/
def seeds (cs : Colors) (count : Nat) : Pattern :=
  .ofEntries count cs.size (cs.zipIdx.filterMap fun (k?, i) => k?.map fun k => (k,i))

/-- The color of every index, read off the seeds; the last of several. -/
def colorsOf (s : Pattern) : Colors :=
  s.entries.foldl (fun cs (k,i) => cs.setIfInBounds i (some k)) (.replicate s.ncol none)

/-- Colors of the columns that share a row with column `c`. -/
def columnForbidden (a t : Pattern) (cs : Colors) (c : Nat) : List Nat :=
  (t.row c).toList.flatMap fun r => (a.row r).toList.filterMap (color cs)

/-- Columns that share a row differ in color, so one sweep for each color separates all entries. -/
def columns (a : Pattern) : Pattern :=
  let t := a.transpose
  let (cs, count) := greedy (columnForbidden a t) a.ncol (largestFirst (fun c => (t.row c).size) a.ncol)
  seeds cs count

/-- Rows that share a column differ in color. -/
def rows (a : Pattern) : Pattern := columns a.transpose

/-- Neighbours of a vertex in the graph of a square pattern, without the vertex itself. -/
def neighbours (a : Pattern) (v : Nat) : List Nat := (a.row v).toList.filter (· ≠ v)

/-- Colors of the neighbours, and of each second neighbour that an uncolored neighbour leads to or that
would close a path of four vertices in two colors. -/
def starForbidden (a : Pattern) (cs : Colors) (v : Nat) : List Nat :=
  (neighbours a v).flatMap fun w =>
    let second := (neighbours a w).filter (· ≠ v)
    match color cs w with
    | none => second.filterMap (color cs)
    | some k => k :: (second.filter fun x =>
        (neighbours a x).any fun y => y != w && color cs y == some k).filterMap (color cs)

/-- Neighbours differ in color, and every path on four vertices has three colors. -/
def star (a : Pattern) : Except Fault Pattern :=
  if a.isSquare then
    let (cs, count) :=
      greedy (starForbidden a) a.nrow (largestFirst (fun v => (neighbours a v).length) a.nrow)
    return seeds cs count
  else throw (.invalidPattern (.starNotSquare a.nrow a.ncol))

end Fluxion.Coloring
