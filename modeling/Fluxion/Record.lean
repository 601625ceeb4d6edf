import Fluxion.Number

/-!
Structured documents: the stored form of options and tapes. Whole numbers are kept apart from other
numbers, because a count must be written as a whole number.
-/
set_option autoImplicit false

namespace Fluxion

inductive Record (K : Type) where
  | null
  | bool (b : Bool)
  | integer (n : Int)
  | real (x : K)
  | text (s : String)
  | list (items : List (Record K))
  | fields (items : List (String × Record K))
  deriving Inhabited

namespace Record

variable {K : Type}

def bool? : Record K → Option Bool
  | bool b => some b
  | _ => none

/-- A whole number from zero to below `bound`. -/
def natural? (bound : Nat) : Record K → Option Nat
  | integer n => if 0 ≤ n ∧ n < bound then some n.toNat else none
  | _ => none

/-- A count, which fits in a machine word. -/
def count? : Record K → Option Nat := natural? UInt64.size

def number? [Number K] : Record K → Option K
  | integer n => some (Number.ofInt n)
  | real x => some x
  | _ => none

def text? : Record K → Option String
  | text s => some s
  | _ => none

def list? : Record K → Option (List (Record K))
  | list items => some items
  | _ => none

def listOf? {α : Type} (read : Record K → Option α) (r : Record K) : Option (Array α) := do
  return (← (← r.list?).mapM read).toArray

/-- The name of a choice: a text, or a field of that name with nothing in it. -/
def choice? : Record K → Option String
  | text s => some s
  | fields [(s, null)] => some s
  | _ => none

/-- The fields of a structure by their names. A structure may also be written as the list of its fields
in order; a longer list is refused. -/
def structure? (names : List String) : Record K → Option (List (String × Record K))
  | fields items => some items
  | list items => if items.length ≤ names.length then some (names.zip items) else none
  | _ => none

/-- A field that may be missing, but not hold a value of another kind. -/
def fieldOr {α : Type} (items : List (String × Record K)) (name : String) (default : α)
    (read : Record K → Option α) : Option α :=
  match items.lookup name with
  | none => some default
  | some r => read r

def field? {α : Type} (items : List (String × Record K)) (name : String)
    (read : Record K → Option α) : Option α :=
  (items.lookup name).bind read

/-- A number that is not finite is stored as nothing. -/
def ofNumber [Number K] (x : K) : Record K := if Number.finite x then real x else null

def ofNat (n : Nat) : Record K := integer n

def ofList {α : Type} (write : α → Record K) (xs : Array α) : Record K :=
  list (xs.toList.map write)

/-- One step into a document. -/
inductive Step where
  | field (name : String)
  | item (index : Nat)

/-- Puts a value at the end of a path, or removes what is there. Steps that lead nowhere change
nothing, except that a new field can be written. -/
def edit (value? : Option (Record K)) : List Step → Record K → Record K
  | [], r => value?.getD r
  | [.field s], fields items =>
    match value? with
    | none => fields (items.filter (·.1 ≠ s))
    | some v =>
      if items.any (·.1 == s) then fields (items.map fun (k,r) => if k = s then (k,v) else (k,r))
      else fields (items ++ [(s,v)])
  | [.item i], list items =>
    match value? with
    | none => list (items.eraseIdx i)
    | some v => list (items.set i v)
  | .field s :: path, fields items =>
    fields (items.map fun (k,r) => if k = s then (k, edit value? path r) else (k,r))
  | .item i :: path, list items => list (items.modify i (edit value? path))
  | _ :: _, r => r

end Record

end Fluxion
