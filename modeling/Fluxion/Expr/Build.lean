import Fluxion.Fault
import Fluxion.Matrix
import Fluxion.Expr.Basic

/-!
Building expressions. An operation on constants is computed at once, and operations with a neutral or an
absorbing operand are left out, so the result may be a node that exists already.
-/
set_option autoImplicit false

namespace Fluxion

/-- Makes nodes and definitions with new numbers, or fails. -/
abbrev Make := ExceptT Fault Fresh

end Fluxion

namespace Fluxion.Expr

variable {K : Type}

def newSymbol (name : String) : Fresh (Expr K) := do return symbol ⟨← Fresh.next, name⟩

def newConst (v : K) : Fresh (Expr K) := do return const (← Fresh.next) v

def newUnary (op : Op) (a : Expr K) : Fresh (Expr K) := do return unary (← Fresh.next) op a

def newBinary (op : Op) (a b : Expr K) : Fresh (Expr K) := do return binary (← Fresh.next) op a b

variable [Number K]

/-- A unary operation. Two negations cancel. -/
def applyUnary (op : Op) (a : Expr K) : Fresh (Expr K) :=
  match op, a with
  | op, const _ v => newConst (Number.eval op v v)
  | .neg, unary _ .neg x => pure x
  | op, a => newUnary op a

/-- A power with a constant exponent: the first is the base, the zeroth is one, the second a square. -/
def applyConstPow (a b : Expr K) : Fresh (Expr K) :=
  if b.isOne then pure a
  else if b.isZero then newConst Number.one
  else if b.isConst Number.two then applyUnary .sq a
  else newBinary .constPow a b

/-- A binary operation on operands that are not both constant. -/
def applyBinary (op : Op) (a b : Expr K) : Fresh (Expr K) :=
  match op with
  | .add => if a.isZero then pure b else if b.isZero then pure a else newBinary .add a b
  | .sub => if b.isZero then pure a else if a.isZero then applyUnary .neg b else newBinary .sub a b
  | .mul =>
    if a.isZero || b.isZero then newConst Number.zero
    else if a.isOne then pure b
    else if b.isOne then pure a
    else if a.isConst (Number.ofInt (-1)) then applyUnary .neg b
    else newBinary .mul a b
  | .div =>
    if b.isOne then pure a else if a.isZero then newConst Number.zero else newBinary .div a b
  | .pow => if b.constant?.isSome then applyConstPow a b else newBinary .pow a b
  | .constPow => applyConstPow a b
  | op => newBinary op a b

/-- The operation on the operands; a unary operation looks at the first only. -/
def apply (op : Op) (a b : Expr K) : Fresh (Expr K) :=
  if op.arity = 1 then applyUnary op a
  else match a, b with
    | const _ x, const _ y => newConst (Number.eval op x y)
    | a, b => applyBinary op a b

/-- As `apply`, for an operation that may be a boundary operation, which builds no node. -/
def build (op : Op) (a b : Expr K) : Make (Expr K) := do
  if op.isStructural then throw (.violation (.structuralNode op))
  apply op a b

end Fluxion.Expr

namespace Fluxion.Matrix

variable {K : Type}

/-- Fresh symbols on the entries of a pattern: a single element takes the plain name, all others the name
with their number. -/
def symbols (name : String) (p : Pattern) : Fresh (Matrix (Expr K)) := do
  if p.nnz = 1 && p.isScalar then return ⟨p, #[← Expr.newSymbol name]⟩
  return ⟨p, ← (Array.range p.nnz).mapM fun k => Expr.newSymbol s!"{name}_{k}"⟩

end Fluxion.Matrix
