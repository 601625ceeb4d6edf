import Fluxion.Pattern.Basic

/-!
From the sensitivities of one color to the entries of a Jacobian.
-/
set_option autoImplicit false

namespace Fluxion.Recover

variable {T : Type}

/-- Puts `x?` in place `k`, if there is something to put. -/
def put (values : Array T) (k : Nat) (x? : Option T) : Array T :=
  match x? with
  | some x => values.setIfInBounds k x
  | none => values

/-- Entries of column `j` as row and number, from the transpose and its map. -/
def columnOf (t : Pattern) (map : Array Nat) (j : Nat) : List (Nat × Nat) :=
  ((t.row j).zip (map.extract (t.start j) (t.start (j+1)))).toList

/-- A forward sweep of a color of columns gives every entry of these columns. -/
def forward (t : Pattern) (map : Array Nat) (members : Array Nat) (sens values : Array T) : Array T :=
  members.foldl (fun values j =>
    (columnOf t map j).foldl (fun values (r,k) => put values k sens[r]?) values) values

/-- Members of a color that touch each row. -/
def countHits (t : Pattern) (members hits : Array Nat) : Array Nat :=
  members.foldl (fun hits j => (t.row j).foldl (fun hits r => hits.modify r (· + 1)) hits) hits

def clearHits (t : Pattern) (members hits : Array Nat) : Array Nat :=
  members.foldl (fun hits j => (t.row j).foldl (fun hits r => hits.setIfInBounds r 0) hits) hits

/-- In a symmetric Jacobian an entry is taken from its row when one member alone touches it, and its
mirror with it. A star coloring reaches every entry from one side or the other. The counts of hits are
zero before and after. -/
def symmetric (p t : Pattern) (map : Array Nat) (members : Array Nat) (sens : Array T)
    (s : Array Nat × Array T) : Array Nat × Array T :=
  let (hits, values) := s
  let hits := countHits t members hits
  let values := members.foldl (fun values j =>
    (columnOf t map j).foldl (fun values (r,k) =>
      if hits.getD r 0 = 1 then
        let values := put values k sens[r]?
        match p.find? j r with
        | some k => put values k sens[r]?
        | none => values
      else values) values) values
  (clearHits t members hits, values)

/-- A reverse sweep of a color of rows gives every entry of these rows. -/
def adjoint (p : Pattern) (members : Array Nat) (sens values : Array T) : Array T :=
  members.foldl (fun values r =>
    (p.row r).zipIdx.foldl (fun values (c,i) => put values (p.start r + i) sens[c]?) values) values

end Fluxion.Recover
