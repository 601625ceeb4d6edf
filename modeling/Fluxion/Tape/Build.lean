import Fluxion.Mode
import Fluxion.Tape.Order
import Fluxion.Tape.Slots

/-!
From output expressions to a tape over input symbols.
-/
set_option autoImplicit false

namespace Fluxion.Tape

variable {K : Type}

/-- The input and entry of every input symbol. Every input entry has to be a symbol of its own. -/
def inputPlaces (inputs : Array (Matrix (Expr K))) :
    Except Fault (Std.HashMap Nat (Nat × Nat)) :=
  inputs.zipIdx.foldlM (fun places (m, i) =>
    m.values.zipIdx.foldlM (fun (places : Std.HashMap Nat (Nat × Nat)) (e, k) =>
      match e with
      | .symbol s =>
        if places.contains s.id then throw (.invalidInput i k) else return places.insert s.id (i,k)
      | _ => throw (.invalidInput i k)) places) ∅

/-- The element of a node, operands by position. A symbol that is no input joins the free ones. -/
def elementOf [Number K] (places : Std.HashMap Nat (Nat × Nat)) (position : Std.HashMap Nat Nat)
    (free : Array Symbol) (p : Nat) : Node K → Element K × Array Symbol
  | .store index entry id => (⟨.output, index, position.getD id 0, entry, Number.zero⟩, free)
  | .expr (.const _ v) => (⟨.const, p, 0, 0, v⟩, free)
  | .expr (.symbol s) =>
    match places[s.id]? with
    | some (i,k) => (⟨.input, p, i, k, Number.zero⟩, free)
    | none => (⟨.parameter, p, free.size, 0, Number.zero⟩, free.push s)
  | .expr (.unary _ op a) =>
    (⟨op, p, position.getD a.id 0, position.getD a.id 0, Number.zero⟩, free)
  | .expr (.binary _ op a b) =>
    (⟨op, p, position.getD a.id 0, position.getD b.id 0, Number.zero⟩, free)

/-- Elements by position and the free symbols, in the order of their elements. -/
def elementsOf [Number K] (places : Std.HashMap Nat (Nat × Nat)) (nodes : Array (Node K)) :
    Array (Element K) × Array Symbol :=
  let position := Order.positions nodes
  nodes.zipIdx.foldl (fun (els, free) (node, p) =>
    let (el, free) := elementOf places position free p node
    (els.push el, free)) (#[], #[])

/-- Sorts what the outputs reach into a tape over the inputs. -/
def ofGraph [Number K] (inputs outputs : Array (Matrix (Expr K))) (live : Bool) (sorting : Sorting) :
    Except Fault (Tape K) := do
  let places ← inputPlaces inputs
  let nodes := match sorting with
    | .depthFirst => Order.depthFirst outputs
    | .breadthFirst => Order.byLevel (Order.depthFirst outputs)
  let (els, free) := elementsOf places nodes
  let (elements, worksize) := allocate live els
  return ⟨elements, worksize, inputs.map Matrix.nnz, outputs.map Matrix.nnz, free⟩

/-- The fault of evaluating a tape that has free symbols. -/
def unresolved (t : Tape K) (function : String) : Fault :=
  .unresolvedSymbols function (t.free.map (·.name))

end Fluxion.Tape
