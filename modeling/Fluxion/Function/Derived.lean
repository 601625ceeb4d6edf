import Fluxion.Function.Symbolic

/-!
Functions derived from a function: Jacobians, gradients, Hessians and directional derivatives, symbolic
where there is a tape and numeric otherwise.
-/
set_option autoImplicit false

namespace Fluxion

/-- A derivative that one may ask a function for. -/
inductive Request where
  | jacobian (iind oind : Nat) (compact symmetric : Bool)
  | gradient (iind oind : Nat)
  | hessian (iind oind : Nat)
  | derivative (forward adjoint : Nat)
  deriving DecidableEq, Repr

namespace Definition

variable {K : Type} [Number K]

/-- Pattern and source of a numeric Jacobian: a callable that computes it is asked for the values; one
that only knows the pattern is differenced along its coloring; all else is dense, one direction for
each entry. -/
def numericSource (d : Definition K) (iind oind : Nat) : Except Fault (Pattern × Source) := do
  let cols := (← d.sig.checkInput iind).nnz
  let rows := (← d.sig.checkOutput oind).nnz
  let dense : Pattern × Source := (.dense rows cols, .sweeps (match d.sig.options.adMode with
    | .reverse => .adjoint (.diagonal rows)
    | .forward | .automatic => .forward (.diagonal cols)))
  match d.callable? with
  | none => return dense
  | some c =>
    if (c.jacobian iind oind).isSome then
      return (← d.jacSparsity iind oind true false, .callable)
    else if (c.jacPattern iind oind).isSome then
      let p ← d.jacSparsity iind oind true false
      return (p, .sweeps (← d.partition iind oind true false))
    else return dense

def numericJacobian (d : Definition K) (iind oind : Nat) (compact : Bool) (layout : Layout)
    (o : Options K) : Make (Definition K) := do
  let (p, source) ← d.numericSource iind oind
  let first ← match layout, compact with
    | .gradient, _ => d.sig.checkInput iind
    | .jacobian, true => pure p
    | .jacobian, false => d.enlarge p iind oind
  let uid ← Fresh.next
  return .jacobian ⟨uid, o, d.sig.inputs, #[first] ++ d.sig.outputs⟩
    ⟨iind, oind, layout, p, source⟩ d

/-- A Jacobian or a gradient, with the outputs of the function after it. -/
def buildJacobian (d : Definition K) (iind oind : Nat) (compact symmetric : Bool) (layout : Layout)
    (o : Options K) : Make (Definition K) :=
  match d, layout with
  | .expressions s t inputs, layout =>
    if s.options.numericJacobian then d.numericJacobian iind oind compact layout o
    else match layout with
      | .gradient => Symbolic.gradient d t inputs iind oind o
      | .jacobian => Symbolic.jacobian d t inputs iind oind compact symmetric o
  | _, layout => d.numericJacobian iind oind compact layout o

/-- The outputs with directional derivatives of an opaque function. -/
def numericDerivative (d : Definition K) (f a : Nat) (o : Options K) : Fresh (Definition K) := do
  let copies (ps : Array Pattern) (n : Nat) : Array Pattern :=
    (Array.replicate n ps).flatten
  let uid ← Fresh.next
  return .derivative
    ⟨uid, o, d.sig.inputs ++ copies d.sig.inputs f ++ copies d.sig.outputs a,
      d.sig.outputs ++ copies d.sig.outputs f ++ copies d.sig.inputs a⟩ f a d

/-- What a request asks of the blocks it names. -/
def checkRequest (d : Definition K) : Request → Except Fault Unit
  | .jacobian iind oind _ _ => do
    let _ ← d.sig.checkInput iind
    let _ ← d.sig.checkOutput oind
  | .gradient iind oind => do
    let _ ← d.sig.checkInput iind
    d.sig.checkScalar "gradients" oind
  | .hessian iind oind => do
    let _ ← d.sig.checkInput iind
    d.sig.checkScalar "hessians" oind
  | .derivative _ _ => return ()

/-- Builds what is asked for. A Hessian is the symmetric Jacobian of a gradient. -/
def derive (d : Definition K) : Request → Make (Definition K)
  | .jacobian iind oind compact symmetric =>
    d.buildJacobian iind oind compact symmetric .jacobian (d.sig.derivedOptions "jac")
  | .gradient iind oind =>
    d.buildJacobian iind oind true false .gradient (d.sig.derivedOptions "grad")
  | .hessian iind oind => do
    let o := {d.sig.derivedOptions "grad" with numericJacobian := d.sig.options.numericHessian}
    let g ← d.buildJacobian iind oind true false .gradient o
    g.buildJacobian iind 0 false true .jacobian (d.sig.derivedOptions "hess")
  | .derivative f a =>
    let o := d.sig.derivedOptions s!"fwd{f}_adj{a}"
    match d with
    | .expressions _ t inputs => Symbolic.derivative d t inputs f a o
    | _ => d.numericDerivative f a o

end Definition

end Fluxion
