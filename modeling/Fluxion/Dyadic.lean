/-!
A finite double is a sign, a whole number and a power of two. The remainder of a division and the
decimal text of a number are computed on this form with exact integers.
-/
set_option autoImplicit false

namespace Fluxion

/-- The number `± mantissa * 2 ^ exponent`. -/
structure Dyadic where
  negative : Bool
  mantissa : Nat
  exponent : Int
  deriving DecidableEq, Repr

namespace Dyadic

/-- Exponent of the last place of the smallest doubles. -/
def least : Int := -1074

/-- Nothing for infinities and for a result that is not a number. -/
def ofFloat? (x : Float) : Option Dyadic :=
  let bits := x.toBits.toNat
  let negative := bits / Nat.pow 2 63 == 1
  let biased : Nat := bits / Nat.pow 2 52 % Nat.pow 2 11
  let fraction : Nat := bits % Nat.pow 2 52
  if biased = 2047 then none
  else if biased = 0 then some ⟨negative, fraction, least⟩
  else some ⟨negative, Nat.pow 2 52 + fraction, (biased : Int) - 1075⟩

/-- Exact when the mantissa has at most 53 bits and the exponent is at least `least`. -/
def toFloat (d : Dyadic) : Float :=
  let x := Float.scaleB (Float.ofNat d.mantissa) d.exponent
  if d.negative then -x else x

/-- The remainder of the absolute values, with the sign of the dividend. The quotient is cut, so the
remainder is exact: it is a multiple of the finer of the two last places. -/
def remainder (a b : Dyadic) : Dyadic :=
  if b.exponent ≤ a.exponent then
    ⟨a.negative, a.mantissa * Nat.pow 2 (a.exponent - b.exponent).toNat % b.mantissa, b.exponent⟩
  else
    ⟨a.negative, a.mantissa % (b.mantissa * Nat.pow 2 (b.exponent - a.exponent).toNat), a.exponent⟩

end Dyadic

/-- Remainder of a division of doubles, with the sign of the dividend. -/
def Double.remainder (x y : Float) : Float :=
  match Dyadic.ofFloat? x, Dyadic.ofFloat? y with
  | some a, some b => if b.mantissa = 0 then 0.0 / 0.0 else (a.remainder b).toFloat
  | some _, none => if y.isNaN then y else x
  | none, _ => 0.0 / 0.0

end Fluxion
