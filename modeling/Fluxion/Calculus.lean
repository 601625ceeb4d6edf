import Fluxion.Function.Derived

/-!
Derivatives of expressions, through a function made for the purpose in which other symbols stay free.
-/
set_option autoImplicit false

namespace Fluxion.Calculus

variable {K : Type} [Number K]

/-- A function over the inputs that tolerates other symbols. -/
def wrap (o : Options K) (name : String) (inputs outputs : Array (Matrix (Expr K))) :
    Make (Definition K) :=
  Definition.ofExpressions inputs outputs {o.named name with allowFree := true}

/-- A derivative of `y` in `x`, as expressions in `x`. -/
def derived (o : Options K) (name : String) (y x : Matrix (Expr K)) (r : Request) :
    Make (Array (Matrix (Expr K))) := do
  let d ← wrap o name #[x] #[y]
  d.checkRequest r
  Symbolic.outputsAt (← d.derive r) #[x]

/-- All elements of `y` by all elements of `x`. -/
def jacobian (o : Options K) (y x : Matrix (Expr K)) : Make (Matrix (Expr K)) := do
  return (← derived o "jacobian" y x (.jacobian 0 0 false false)).getD 0 default

/-- On the pattern of `x`. -/
def gradient (o : Options K) (y : Expr K) (x : Matrix (Expr K)) : Make (Matrix (Expr K)) := do
  return (← derived o "gradient" (.scalar y) x (.gradient 0 0)).getD 0 default

/-- The Hessian and the gradient. -/
def hessian (o : Options K) (y : Expr K) (x : Matrix (Expr K)) :
    Make (Matrix (Expr K) × Matrix (Expr K)) := do
  let out ← derived o "hessian" (.scalar y) x (.hessian 0 0)
  return (out.getD 0 default, out.getD 1 default)

/-- All variables replaced by values at once, in every expression. -/
def substitute (o : Options K) (exprs vars values : Array (Matrix (Expr K))) :
    Make (Array (Matrix (Expr K))) := do
  Symbolic.outputsAt (← wrap o "substitute" vars exprs) values

end Fluxion.Calculus
