import Fluxion.Expr.Build

/-!
A table of expression nodes that grows by definitions, each of which may refer to earlier nodes.
-/
set_option autoImplicit false

namespace Fluxion

structure Graph (K : Type) where
  nodes : Array (Expr K)
  /-- The next node number that is free. -/
  supply : Nat

/-- An earlier node, or a constant made on the spot. -/
inductive Operand (K : Type) where
  | node (i : Nat)
  | const (v : K)

/-- How one definition extends the table. -/
inductive Entry (K : Type) where
  | symbol (name : String)
  | const (v : K)
  | symbols (name : String) (p : Pattern)
  /-- A unary operation, `n` times over. -/
  | chain (op : Op) (i n : Nat)
  /-- A binary operation over a list, from the left. -/
  | fold (op : Op) (items : List Nat)
  | unary (op : Op) (a : Operand K)
  | binary (op : Op) (a b : Operand K)

namespace Graph

variable {K : Type}

def empty : Graph K := ⟨#[], 0⟩

def node (g : Graph K) (i : Nat) : Except Fault (Expr K) :=
  match g.nodes[i]? with
  | some e => return e
  | none => throw (.violation .nodeOutside)

/-- The nodes from number `lo` to before number `hi`. -/
def range (g : Graph K) (lo hi : Nat) : Except Fault (Array (Expr K)) :=
  if lo ≤ hi ∧ hi ≤ g.nodes.size then return g.nodes.extract lo hi
  else throw (.violation .nodeOutside)

/-- Where a node stands first in the table. -/
def indexOf? (g : Graph K) (e : Expr K) : Option Nat := g.nodes.findIdx? (·.id == e.id)

abbrev Extend (K : Type) := ExceptT Fault (StateM (Graph K))

/-- Runs an action that makes nodes. -/
def fresh {α : Type} (act : Make α) : Extend K α := fun g =>
  let (r, supply) := act.run g.supply
  (r, {g with supply})

def append (es : Array (Expr K)) : Extend K Unit :=
  modify fun g => {g with nodes := g.nodes ++ es}

variable [Number K]

def operand : Operand K → Extend K (Expr K)
  | .node i => do (← get).node i
  | .const v => fresh (Expr.newConst v)

/-- The nodes that a definition makes, in order. -/
def build : Entry K → Extend K (Array (Expr K))
  | .symbol name => do return #[← fresh (Expr.newSymbol name)]
  | .const v => do return #[← fresh (Expr.newConst v)]
  | .symbols name p => do return (← fresh (Matrix.symbols name p)).values
  | .chain op i n => do
    let e ← (← get).node i
    return #[← (List.range n).foldlM (fun e _ => fresh (Expr.build op e e)) e]
  | .fold op items => do
    let g ← get
    match ← items.mapM (m := Except Fault) g.node with
    | [] => return #[]
    | e :: es => return #[← es.foldlM (fun a b => fresh (Expr.build op a b)) e]
  | .unary op a => do
    let a ← operand a
    return #[← fresh (Expr.build op a a)]
  | .binary op a b => do
    let a ← operand a
    let b ← operand b
    return #[← fresh (Expr.build op a b)]

def extend (entry : Entry K) : Extend K Unit := do append (← build entry)

end Graph

end Fluxion
