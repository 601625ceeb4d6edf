/-!
The elementary operations: their names, the number of operands each takes, and which of them only mark
the boundary of a tape.
-/
set_option autoImplicit false

namespace Fluxion

/-- What one node computes. The first four load and store values at the boundary of a tape;
`constPow` is a power with a constant exponent, `rem` a remainder with the sign of its dividend. -/
inductive Op where
  | input | output | const | parameter
  | add | sub | mul | div | pow | constPow | atan2 | fmin | fmax | rem
  | neg | recip | sq | sqrt | exp | log | sin | cos | tan | asin | acos | atan
  | sinh | cosh | tanh | abs | sign | floor | ceil
  deriving DecidableEq, Repr, Inhabited

namespace Op

def all : List Op :=
  [input, output, const, parameter, add, sub, mul, div, pow, constPow, atan2, fmin, fmax, rem,
    neg, recip, sq, sqrt, exp, log, sin, cos, tan, asin, acos, atan, sinh, cosh, tanh, abs, sign,
    floor, ceil]

theorem mem_all (op : Op) : op ∈ all := by cases op <;> decide

/-- The name under which an operation is printed in an expression. -/
def name : Op → String
  | input => "input" | output => "output" | const => "const" | parameter => "parameter"
  | add => "add" | sub => "sub" | mul => "mul" | div => "div" | pow => "pow"
  | constPow => "constpow" | atan2 => "atan2" | fmin => "fmin" | fmax => "fmax" | rem => "rem"
  | neg => "neg" | recip => "recip" | sq => "sq" | sqrt => "sqrt" | exp => "exp" | log => "log"
  | sin => "sin" | cos => "cos" | tan => "tan" | asin => "asin" | acos => "acos" | atan => "atan"
  | sinh => "sinh" | cosh => "cosh" | tanh => "tanh" | abs => "fabs" | sign => "sign"
  | floor => "floor" | ceil => "ceil"

/-- The name under which an operation is stored in the record of a tape. -/
def tag : Op → String
  | input => "Input" | output => "Output" | const => "Const" | parameter => "Parameter"
  | add => "Add" | sub => "Sub" | mul => "Mul" | div => "Div" | pow => "Pow"
  | constPow => "ConstPow" | atan2 => "Atan2" | fmin => "Fmin" | fmax => "Fmax" | rem => "Rem"
  | neg => "Neg" | recip => "Recip" | sq => "Sq" | sqrt => "Sqrt" | exp => "Exp" | log => "Ln"
  | sin => "Sin" | cos => "Cos" | tan => "Tan" | asin => "Asin" | acos => "Acos" | atan => "Atan"
  | sinh => "Sinh" | cosh => "Cosh" | tanh => "Tanh" | abs => "Abs" | sign => "Sign"
  | floor => "Floor" | ceil => "Ceil"

def ofName? (s : String) : Option Op := all.find? (·.name == s)

def ofTag? (s : String) : Option Op := all.find? (·.tag == s)

theorem ofTag?_tag (op : Op) : ofTag? op.tag = some op := by cases op <;> decide

/-- Boundary operations compute nothing and have no derivative record. -/
def isStructural : Op → Bool
  | input | output | const | parameter => true
  | _ => false

def arity : Op → Nat
  | input | const | parameter => 0
  | add | sub | mul | div | pow | constPow | atan2 | fmin | fmax | rem => 2
  | _ => 1

theorem arity_le_two (op : Op) : op.arity ≤ 2 := by cases op <;> decide

end Op

end Fluxion
