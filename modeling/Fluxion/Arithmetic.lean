import Fluxion.Expr.Build

/-!
Arithmetics: the values over which a tape is replayed. One of them computes with numbers, one builds
expressions; every evaluation and every derivative rule is written once for all of them.
-/
set_option autoImplicit false

namespace Fluxion

/-- Values of type `T`, made by actions of `m` from constants of type `K`. -/
structure Arithmetic (K T : Type) (m : Type → Type) where
  lift : K → m T
  /-- The value of an operation; a unary operation looks at its first operand only. -/
  apply : Op → T → T → m T
  isZero : T → Bool
  /-- What stands for a symbol that is no input, where something does. -/
  free : Symbol → Option T

namespace Arithmetic

variable {K T : Type} {m : Type → Type}

/-- Computes with numbers. No number stands for a symbol. -/
def numeric [Number K] : Arithmetic K K Id where
  lift x := x
  apply := Number.eval
  isZero := Number.isZero
  free _ := none

/-- Builds expressions. Every symbol stands for itself. -/
def symbolic [Number K] : Arithmetic K (Expr K) Fresh where
  lift := Expr.newConst
  apply := Expr.apply
  isZero := Expr.isZero
  free s := some (.symbol s)

variable [Number K]

def zero (A : Arithmetic K T m) : m T := A.lift Number.zero
def one (A : Arithmetic K T m) : m T := A.lift Number.one
def two (A : Arithmetic K T m) : m T := A.lift Number.two
def half (A : Arithmetic K T m) : m T := A.lift Number.half

def add (A : Arithmetic K T m) (x y : T) : m T := A.apply .add x y
def sub (A : Arithmetic K T m) (x y : T) : m T := A.apply .sub x y
def mul (A : Arithmetic K T m) (x y : T) : m T := A.apply .mul x y
def div (A : Arithmetic K T m) (x y : T) : m T := A.apply .div x y
def unary (A : Arithmetic K T m) (op : Op) (x : T) : m T := A.apply op x x
def neg (A : Arithmetic K T m) (x : T) : m T := A.unary .neg x

variable [Monad m]

/-- One minus the square. -/
def oneMinusSq (A : Arithmetic K T m) (x : T) : m T := do A.sub (← A.one) (← A.mul x x)

/-- One plus the square. -/
def onePlusSq (A : Arithmetic K T m) (x : T) : m T := do A.add (← A.one) (← A.mul x x)

/-- Halves of one minus and one plus the sign of `a - b`: which of the two operands is the smaller. -/
def lesser (A : Arithmetic K T m) (a b : T) : m (T × T) := do
  let s ← A.unary .sign (← A.sub a b)
  let p ← A.mul (← A.half) (← A.sub (← A.one) s)
  let q ← A.mul (← A.half) (← A.add (← A.one) s)
  return (p, q)

/-- The derivatives of `r`, the value of `op` at `a` and `b`, in its first and second operand. A boundary
operation and a remainder have none. -/
def partials (A : Arithmetic K T m) (op : Op) (a b r : T) : m (Option (T × T)) := do
  match op with
  | .input | .output | .const | .parameter | .rem => return none
  | .add => return some (← A.one, ← A.one)
  | .sub => return some (← A.one, ← A.neg (← A.one))
  | .mul => return some (b, a)
  | .div => return some (← A.div (← A.one) b, ← A.neg (← A.div r b))
  | .pow =>
    let c ← A.sub b (← A.one)
    let p ← A.mul b (← A.apply .pow a c)
    return some (p, ← A.mul r (← A.unary .log a))
  | .constPow =>
    let c ← A.sub b (← A.one)
    let p ← A.mul b (← A.apply .constPow a c)
    return some (p, ← A.zero)
  | .atan2 =>
    let d ← A.add (← A.mul a a) (← A.mul b b)
    return some (← A.div b d, ← A.neg (← A.div a d))
  | .fmin => return some (← A.lesser a b)
  | .fmax => return some (← A.lesser a b).swap
  | .neg => return some (← A.neg (← A.one), ← A.zero)
  | .recip => return some (← A.neg (← A.mul r r), ← A.zero)
  | .sq => return some (← A.mul (← A.two) a, ← A.zero)
  | .sqrt => return some (← A.div (← A.half) r, ← A.zero)
  | .exp => return some (r, ← A.zero)
  | .log => return some (← A.div (← A.one) a, ← A.zero)
  | .sin => return some (← A.unary .cos a, ← A.zero)
  | .cos => return some (← A.neg (← A.unary .sin a), ← A.zero)
  | .tan => return some (← A.onePlusSq r, ← A.zero)
  | .asin => return some (← A.div (← A.one) (← A.unary .sqrt (← A.oneMinusSq a)), ← A.zero)
  | .acos =>
    let d ← A.div (← A.one) (← A.unary .sqrt (← A.oneMinusSq a))
    return some (← A.neg d, ← A.zero)
  | .atan => return some (← A.div (← A.one) (← A.onePlusSq a), ← A.zero)
  | .sinh => return some (← A.unary .cosh a, ← A.zero)
  | .cosh => return some (← A.unary .sinh a, ← A.zero)
  | .tanh => return some (← A.oneMinusSq r, ← A.zero)
  | .abs => return some (← A.unary .sign a, ← A.zero)
  | .sign | .floor | .ceil => return some (← A.zero, ← A.zero)

end Arithmetic

end Fluxion
