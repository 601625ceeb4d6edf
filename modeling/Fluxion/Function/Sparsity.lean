import Fluxion.Coloring.Basic
import Fluxion.Detect.Jacobian
import Fluxion.Function.Definition
import Fluxion.Tape.Dependence

/-!
Patterns of Jacobian blocks and their colorings.
-/
set_option autoImplicit false

namespace Fluxion.Definition

variable {K : Type}

/-- Entries of a block at the row-major numbers of the elements they belong to. -/
def enlarge (d : Definition K) (p : Pattern) (iind oind : Nat) : Except Fault Pattern := do
  let input ← d.sig.checkInput iind
  let output ← d.sig.checkOutput oind
  output.checkStarts
  input.checkStarts
  p.enlarge? output.numel input.numel output.elements input.elements

/-- The pattern over entries: the one that a callable reports, or what sweeps of the tape find, or dense.
A tape may have more entries to store than its outputs have places; then every sweep stores astray. -/
def detectPattern (d : Definition K) (iind oind : Nat) (symmetric : Bool) : Except Fault Pattern := do
  let cols := (← d.sig.checkInput iind).nnz
  let rows := (← d.sig.checkOutput oind).nnz
  if symmetric && cols ≠ rows then throw (.invalidPattern (.blockNotSquare d.sig.name rows cols))
  match d.callable?.bind (·.jacPattern iind oind) with
  | some p =>
    if p.nrow ≠ rows || p.ncol ≠ cols then
      throw (.invalidPattern (.blockShape d.sig.name p.nrow p.ncol rows cols))
    if symmetric then p.symmetrize else return p
  | none =>
    match d.tape? with
    | none => return .dense rows cols
    | some t =>
      let o := d.sig.options
      let s : Detect.Settings := ⟨o.adMode, o.adjointPenalty, o.hierarchicalSparsity⟩
      let sweeps := t.propagation d.sig.inputSizes d.sig.outputSizes iind oind
      let (p, n) := (Detect.jacobian sweeps s symmetric).run 0
      if 0 < n && !t.storesWithin d.sig.outputSizes then throw (.violation .slotOutside)
      p

/-- The pattern of a Jacobian block, over entries when `compact` and over all elements otherwise. -/
def jacSparsity (d : Definition K) (iind oind : Nat) (compact symmetric : Bool) :
    Except Fault Pattern := do
  let _ ← d.sig.checkInput iind
  let _ ← d.sig.checkOutput oind
  let p ← d.detectPattern iind oind symmetric
  if compact then return p else d.enlarge p iind oind

/-- The coloring of a Jacobian block: a star coloring when it is symmetric, else one of columns or of
rows, as the options ask or by the number of colors. Over all elements there may be too many columns. -/
def partition (d : Definition K) (iind oind : Nat) (compact symmetric : Bool) :
    Except Fault Partition := do
  let p ← d.jacSparsity iind oind compact symmetric
  if symmetric then return .forward (← Coloring.star p)
  if !compact then p.checkTranspose
  match d.sig.options.adMode with
  | .forward => return .forward (Coloring.columns p)
  | .reverse => return .adjoint (Coloring.rows p)
  | .automatic =>
    let forward := Coloring.columns p
    let adjoint := Coloring.rows p
    if forwardWins d.sig.options.adjointPenalty forward.nrow adjoint.nrow then
      return .forward forward
    else return .adjoint adjoint

end Fluxion.Definition
