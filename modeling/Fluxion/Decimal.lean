import Fluxion.Dyadic

/-!
Decimal text of doubles: the fewest digits that identify the number, written out in full without an
exponent.
-/
set_option autoImplicit false

namespace Fluxion.Decimal

/-- A positive number as the middle of the open interval of reals that round to it. All three are
fractions over one denominator; the ends round to it too when `closed`. -/
structure Interval where
  low : Nat
  value : Nat
  high : Nat
  denominator : Nat
  closed : Bool

/-- A quarter of the last place is the unit. Below a power of two the neighbour is half as far,
except at the smallest exponent. -/
def Interval.of (d : Dyadic) : Interval :=
  let below := if d.mantissa = Nat.pow 2 52 && Dyadic.least < d.exponent then 1 else 2
  let e := d.exponent - 2
  let scale := Nat.pow 2 e.toNat
  ⟨(4 * d.mantissa - below) * scale, 4 * d.mantissa * scale, (4 * d.mantissa + 2) * scale,
    Nat.pow 2 (-e).toNat, d.mantissa % 2 == 0⟩

/-- The multiple of `10 ^ place` that reads back to the number, if one of the two nearest does: the
nearer of them, and the upper one when they are equally near. -/
def Interval.atPlace? (i : Interval) (place : Int) : Option Nat :=
  let up := Nat.pow 10 (-place).toNat
  let unit := i.denominator * Nat.pow 10 place.toNat
  let n := i.value * up / unit
  let rest := i.value * up % unit
  let within (k : Nat) : Bool :=
    let x := k * unit
    if i.closed then i.low * up ≤ x && x ≤ i.high * up else i.low * up < x && x < i.high * up
  match within n, within (n + 1) with
  | true, true => some (if 2 * rest < unit then n else n + 1)
  | true, false => some n
  | false, true => some (n + 1)
  | false, false => none

/-- The coarsest place, from `place` down, that has a multiple reading back to the number. -/
def Interval.coarsest (i : Interval) : Nat → Int → Option (Nat × Int)
  | 0, _ => none
  | fuel + 1, place =>
    match i.atPlace? place with
    | some n => some (n, place)
    | none => i.coarsest fuel (place - 1)

/-- An upper bound for the place of the leading digit. -/
def leadingPlace (d : Dyadic) : Int :=
  (((d.mantissa.log2 : Int) + d.exponent + 1) * 30103).fdiv 100000 + 1

/-- The digits of `n * 10 ^ place`, a point inside them if the place is below one. -/
def positional (n : Nat) (place : Int) : String :=
  let digits := (Nat.toDigits 10 n)
  if 0 ≤ place then String.ofList (digits ++ List.replicate place.toNat '0')
  else
    let k := (-place).toNat
    let padded := List.replicate (k + 1 - digits.length) '0' ++ digits
    let cut := padded.length - k
    let fraction := ((padded.drop cut).reverse.dropWhile (· == '0')).reverse
    String.ofList (padded.take cut ++ (if fraction.isEmpty then [] else '.' :: fraction))

/-- Seventeen digits always suffice, so the search ends within twenty places of its start. -/
def ofDyadic (d : Dyadic) : String :=
  let unsigned :=
    if d.mantissa = 0 then "0"
    else match (Interval.of d).coarsest 24 (leadingPlace d) with
      | some (n, place) => positional n place
      | none => ""
  if d.negative then "-" ++ unsigned else unsigned

/-- The text of a double: `2`, `0.1`, `-0`, `NaN`, `inf`. -/
def ofFloat (x : Float) : String :=
  match Dyadic.ofFloat? x with
  | some d => ofDyadic d
  | none => if x.isNaN then "NaN" else if x < 0 then "-inf" else "inf"

end Fluxion.Decimal
