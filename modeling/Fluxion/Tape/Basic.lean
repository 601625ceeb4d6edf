import Std.Data.HashSet
import Fluxion.Expr.Basic

/-!
Tapes: the operations of a function in an order in which they can run over an array of work slots.
-/
set_option autoImplicit false

namespace Fluxion

/-- One step of a tape. An operation reads slots `left` and `right` and writes slot `result`; a unary one
has its operand twice. `input` loads entry `right` of input `left`, `output` stores slot `left` into entry
`right` of output `result`, `const` loads `value`, and `parameter` loads free symbol `left`. -/
structure Element (K : Type) where
  op : Op
  result : Nat
  left : Nat
  right : Nat
  value : K
  deriving Repr, Inhabited

structure Tape (K : Type) where
  elements : Array (Element K)
  worksize : Nat
  inputSizes : Array Nat
  outputSizes : Array Nat
  /-- Symbols that are no inputs. -/
  free : Array Symbol
  deriving Repr, Inhabited

namespace Tape

variable {K : Type}

/-- Elements that are operations. -/
def operationCount (t : Tape K) : Nat := t.elements.countP (!·.op.isStructural)

/-- Slots written and output entries stored so far. -/
structure Progress where
  written : Std.HashSet Nat
  stored : Std.HashSet (Nat × Nat)

/-- Nothing if the element reads a slot too early, writes outside the work array or stores an entry
outside the outputs or for a second time. -/
def Progress.step (t : Tape K) (s : Progress) (el : Element K) : Option Progress :=
  let write : Option Progress :=
    if el.result < t.worksize then some {s with written := s.written.insert el.result} else none
  match el.op with
  | .output =>
    let entry := (el.result, el.right)
    if s.written.contains el.left && el.right < t.outputSizes.getD el.result 0 &&
        !s.stored.contains entry then
      some {s with stored := s.stored.insert entry}
    else none
  | .input | .const | .parameter => write
  | op =>
    if ([el.left, el.right].take op.arity).all s.written.contains then write else none

/-- Every operand is written before it is read, and every output entry is stored exactly once. -/
def isOrdered (t : Tape K) : Bool :=
  match t.elements.foldlM (Progress.step t) ⟨∅, ∅⟩ with
  | none => false
  | some s => t.outputSizes.zipIdx.all fun (n, i) => (List.range n).all fun k => s.stored.contains (i,k)

end Tape

end Fluxion
