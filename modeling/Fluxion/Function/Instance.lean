import Fluxion.Text.Quoted
import Fluxion.Function.Derived
import Fluxion.Function.Evaluate

/-!
Instances: a definition with buffers and counters of its own. Several instances may share a definition.
-/
set_option autoImplicit false

namespace Fluxion

structure Instance (K : Type) where
  definition : Definition K
  frame : Frame K
  /-- Frames of the instances of the parent, the parent's parent and so on. -/
  inner : List (Frame K)

namespace Instance

variable {K : Type}

def of [Number K] (d : Definition K) : Instance K := ⟨d, d.sig.frame, []⟩

/-- As `of`, for options that may ask for too many directions. -/
def of? [Number K] (d : Definition K) : Except Fault (Instance K) := do
  Buffers.checkRoom d.sig.options.initialForward
  Buffers.checkRoom d.sig.options.initialAdjoint
  return of d

/-- Runs an action; the instance keeps what it changed, also after a fault. -/
def run {α : Type} (i : Instance K) (act : Run K α) : Except Fault α × Instance K × Journal :=
  let (r, m) := StateT.run (m := Id) act.run ⟨i.frame, i.inner, .empty⟩
  (r, {i with frame := m.frame, inner := m.inner}, m.journal)

/-- One line with the name, the kind and the numbers of inputs and outputs. -/
def describe (i : Instance K) : String :=
  let s := i.definition.sig
  let name := Text.quoted s.name
  "Function \x7b name: " ++ name ++ ", kind: \"" ++ i.definition.kind ++
    s!"\", n_in: {s.inputs.size}, n_out: {s.outputs.size} \x7d"

end Instance

namespace Definition

variable {K : Type} [Number K]

/-- Values of a Jacobian block at the inputs of the instance. Overwrites its seeds and sensitivities. -/
def jacobianValues (d : Definition K) (iind oind : Nat) (symmetric : Bool) : Run K (Matrix K) := do
  let p ← d.jacSparsity iind oind true symmetric
  let partition ← d.partition iind oind true symmetric
  return ⟨p, ← d.assemble (.of iind oind p partition symmetric)⟩

/-- The action on a copy of the instance, which stays as it was except for its journal. -/
def onCopy {α : Type} (act : Run K α) : Run K α := ExceptT.mk fun m =>
  let (r, n) := act.run m
  (r, {m with journal := n.journal})

def callBatch (d : Definition K) (points : List (Block K)) : Run K (List (Block K)) :=
  points.mapM d.call

/-- Every point on a copy of its own. -/
def callBatchOnCopies (d : Definition K) (points : List (Block K)) : Run K (List (Block K)) :=
  points.mapM fun x => onCopy (d.call x)

def jacobianValuesOnCopies (d : Definition K) (iind oind : Nat) (points : List (Block K)) :
    Run K (List (Matrix K)) := do
  let _ ← d.partition iind oind true false
  points.mapM fun x => onCopy do
    d.sig.setInputs x
    d.jacobianValues iind oind false

/-- An output at the inputs of the instance with `x` for one of them. -/
def outputWith (d : Definition K) (iind oind : Nat) (x : Array K) : Run K (Except Fault (Array K)) := do
  d.sig.setInput iind x
  Run.outcome do
    let _ ← d.evaluate 0 0
    d.sig.output oind

/-- The central difference of an output along a direction of one input, which is set back afterwards
unless a violation ends it. -/
def centralDifference (d : Definition K) (iind oind : Nat) (dir : Array K) (h : K) :
    Run K (Array K) := do
  let x ← d.sig.input iind
  let shifted (h : K) := x.zipWith (fun x d => Number.add x (Number.mul h d)) dir
  let plus ← d.outputWith iind oind (shifted h)
  let minus ← d.outputWith iind oind (shifted (Number.neg h))
  d.sig.setInput iind x
  let plus ← plus
  let minus ← minus
  return plus.zipWith (Differences.quotient h) minus

end Definition

end Fluxion
