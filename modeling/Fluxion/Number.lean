import Fluxion.Op
import Fluxion.Dyadic

/-!
Numbers: what the library asks of the values that constants, buffers and tapes hold. No law is asked, so
doubles are an instance, and so are the elements of any field.
-/
set_option autoImplicit false

namespace Fluxion

class Number (K : Type) where
  ofInt : Int → K
  half : K
  /-- The value of an operation; a unary operation looks at its first operand only. -/
  eval : Op → K → K → K
  /-- Numeric equality: it need not be reflexive, and may identify distinct representations. -/
  equal : K → K → Bool
  less : K → K → Bool
  finite : K → Bool

namespace Number

variable {K : Type} [Number K]

def zero : K := ofInt 0
def one : K := ofInt 1
def two : K := ofInt 2

def isZero (x : K) : Bool := equal x zero

def add (x y : K) : K := eval .add x y
def sub (x y : K) : K := eval .sub x y
def mul (x y : K) : K := eval .mul x y
def div (x y : K) : K := eval .div x y
def neg (x : K) : K := eval .neg x x
def abs (x : K) : K := eval .abs x x

/-- The larger of two numbers; the first one where they do not compare. -/
def larger (x y : K) : K := if less x y then y else x

end Number

namespace Double

/-- One, zero or minus one; a result that is not a number stays as it is. -/
def sign (x : Float) : Float :=
  if x > 0 then 1 else if x < 0 then -1 else if x == 0 then 0 else x

def eval : Op → Float → Float → Float
  | .add, x, y => x + y
  | .sub, x, y => x - y
  | .mul, x, y => x * y
  | .div, x, y => x / y
  | .pow, x, y | .constPow, x, y => x.pow y
  | .atan2, x, y => x.atan2 y
  | .fmin, x, y => if x ≤ y then x else y
  | .fmax, x, y => if x ≥ y then x else y
  | .rem, x, y => Double.remainder x y
  | .neg, x, _ => -x
  | .recip, x, _ => 1 / x
  | .sq, x, _ => x * x
  | .sqrt, x, _ => x.sqrt
  | .exp, x, _ => x.exp
  | .log, x, _ => x.log
  | .sin, x, _ => x.sin
  | .cos, x, _ => x.cos
  | .tan, x, _ => x.tan
  | .asin, x, _ => x.asin
  | .acos, x, _ => x.acos
  | .atan, x, _ => x.atan
  | .sinh, x, _ => x.sinh
  | .cosh, x, _ => x.cosh
  | .tanh, x, _ => x.tanh
  | .abs, x, _ => x.abs
  | .sign, x, _ => sign x
  | .floor, x, _ => x.floor
  | .ceil, x, _ => x.ceil
  | .input, x, _ | .output, x, _ | .const, x, _ | .parameter, x, _ => x

end Double

instance : Number Float where
  ofInt := .ofInt
  half := 0.5
  eval := Double.eval
  equal x y := x == y
  less x y := x < y
  finite x := x.isFinite

end Fluxion
