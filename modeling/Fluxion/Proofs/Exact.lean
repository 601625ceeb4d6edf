import Mathlib.Algebra.Field.Rat
import Mathlib.Algebra.Ring.Basic
import Mathlib.Algebra.Order.Ring.Abs
import Mathlib.Algebra.Order.Ring.Rat
import Mathlib.Data.Int.Cast.Basic
import Mathlib.Data.Rat.Floor
import Fluxion.Arithmetic

/-!
Exact numbers. The elements of a commutative ring are numbers whose sums, differences and products are
those of the ring and which compare exactly; what the other operations do is left open.
-/
set_option autoImplicit false

namespace Fluxion

class ExactRing (K : Type) [CommRing K] [Number K] : Prop where
  ofInt_eq (n : Int) : (Number.ofInt n : K) = n
  eval_add (x y : K) : Number.eval .add x y = x+y
  eval_sub (x y : K) : Number.eval .sub x y = x-y
  eval_mul (x y : K) : Number.eval .mul x y = x*y
  eval_neg (x y : K) : Number.eval .neg x y = -x
  equal_iff (x y : K) : Number.equal x y = true ↔ x = y

/-- Numbers of a field, all of them finite. -/
class ExactField (K : Type) [Field K] [Number K] : Prop extends ExactRing K where
  eval_div (x y : K) : Number.eval .div x y = x/y
  eval_recip (x y : K) : Number.eval .recip x y = 1/x
  eval_sq (x y : K) : Number.eval .sq x y = x*x
  half_eq : (Number.half : K) = 1/2
  finite (x : K) : Number.finite x = true

/-- Sums, products and quotients: the operations that any ring with inverses has. -/
def Op.isRational : Op → Bool
  | .add | .sub | .mul | .div | .neg | .recip | .sq => true
  | _ => false

/-- Numbers with exact quotients, whatever the inverse of a number that has none may be. -/
class ExactDivision (K : Type) [CommRing K] [Inv K] [Number K] : Prop extends ExactRing K where
  eval_div (x y : K) : Number.eval .div x y = x*y⁻¹
  eval_recip (x y : K) : Number.eval .recip x y = x⁻¹
  eval_sq (x y : K) : Number.eval .sq x y = x*x
  inv_one : (1 : K)⁻¹ = 1

instance {K : Type} [Field K] [Number K] [ExactField K] : ExactDivision K where
  eval_div x y := by rw [ExactField.eval_div, div_eq_mul_inv]
  eval_recip x y := by rw [ExactField.eval_recip x y, one_div]
  eval_sq := ExactField.eval_sq
  inv_one := inv_one

/-- Numbers of a field with exact quotients by what is not zero. A quotient by zero may be anything. -/
class ExactQuotient (K : Type) [Field K] [Number K] : Prop extends ExactRing K where
  eval_div (x : K) {y : K} (hy : y ≠ 0) : Number.eval .div x y = x/y
  eval_recip {x : K} (y : K) (hx : x ≠ 0) : Number.eval .recip x y = 1/x
  eval_sq (x y : K) : Number.eval .sq x y = x*x

instance {K : Type} [Field K] [Number K] [ExactField K] : ExactQuotient K where
  eval_div x y _ := ExactField.eval_div x y
  eval_recip {x} y _ := ExactField.eval_recip x y
  eval_sq := ExactField.eval_sq

/-- Numbers of an ordered field, which compare as they do there. -/
class ExactOrder (K : Type) [Field K] [LinearOrder K] [Number K] : Prop extends ExactField K where
  less_iff (x y : K) : Number.less x y = true ↔ x < y
  eval_abs (x y : K) : Number.eval .abs x y = |x|

/-- Powers of which the first three are what they are in a ring. -/
class ExactPower (K : Type) [CommRing K] [Number K] : Prop where
  eval_constPow (x y : K) : Number.eval .constPow x y = Number.eval .pow x y
  pow_zero (x : K) : Number.eval .pow x 0 = 1
  pow_one (x : K) : Number.eval .pow x 1 = x
  pow_two (x : K) : Number.eval .pow x 2 = x*x

namespace Arithmetic

variable {K : Type} [CommRing K] [Number K] [ExactRing K]

theorem numeric_add (x y : K) : (numeric : Arithmetic K K Id).add x y = pure (x+y) :=
  ExactRing.eval_add x y

theorem numeric_sub (x y : K) : (numeric : Arithmetic K K Id).sub x y = pure (x-y) :=
  ExactRing.eval_sub x y

theorem numeric_mul (x y : K) : (numeric : Arithmetic K K Id).mul x y = pure (x*y) :=
  ExactRing.eval_mul x y

theorem numeric_zero : (numeric : Arithmetic K K Id).zero = pure (0 : K) := by
  have h : (Number.ofInt 0 : K) = 0 := by rw [ExactRing.ofInt_eq, Int.cast_zero]
  exact h

theorem numeric_one : (numeric : Arithmetic K K Id).one = pure (1 : K) := by
  have h : (Number.ofInt 1 : K) = 1 := by rw [ExactRing.ofInt_eq, Int.cast_one]
  exact h

theorem numeric_two : (numeric : Arithmetic K K Id).two = pure (2 : K) := by
  have h : (Number.ofInt 2 : K) = 2 := by rw [ExactRing.ofInt_eq, Int.cast_ofNat]
  exact h

omit [CommRing K] [ExactRing K] in
theorem numeric_div (x y : K) :
    (numeric : Arithmetic K K Id).div x y = pure (Number.eval .div x y) := rfl

theorem numeric_neg (x : K) : (numeric : Arithmetic K K Id).neg x = pure (-x) :=
  ExactRing.eval_neg x x

end Arithmetic

namespace Number

section Ring

variable {K : Type} [CommRing K] [Number K] [ExactRing K]

@[simp] theorem zero_eq : (zero : K) = 0 := by
  rw [zero, ExactRing.ofInt_eq, Int.cast_zero]

@[simp] theorem one_eq : (one : K) = 1 := by
  rw [one, ExactRing.ofInt_eq, Int.cast_one]

theorem isZero_iff (x : K) : isZero x = true ↔ x = 0 := by
  rw [isZero, ExactRing.equal_iff, zero_eq]

@[simp] theorem isZero_zero : isZero (0 : K) = true := (isZero_iff 0).mpr rfl

@[simp] theorem two_eq : (two : K) = 2 := by
  rw [two, ExactRing.ofInt_eq, Int.cast_ofNat]

@[simp] theorem add_eq (x y : K) : add x y = x+y := ExactRing.eval_add x y

@[simp] theorem sub_eq (x y : K) : sub x y = x-y := ExactRing.eval_sub x y

@[simp] theorem mul_eq (x y : K) : mul x y = x*y := ExactRing.eval_mul x y

@[simp] theorem neg_eq (x : K) : neg x = -x := ExactRing.eval_neg x x

end Ring

section Order

variable {K : Type} [Field K] [Number K]

@[simp] theorem div_eq [ExactField K] (x y : K) : div x y = x/y := ExactField.eval_div x y

variable [LinearOrder K] [ExactOrder K]

@[simp] theorem abs_eq (x : K) : abs x = |x| := ExactOrder.eval_abs x x

@[simp] theorem larger_eq (x y : K) : larger x y = max x y := by
  rw [larger, max_def]
  by_cases h : x < y
  · rw [if_pos ((ExactOrder.less_iff x y).mpr h), if_pos h.le]
  · rw [if_neg (mt (ExactOrder.less_iff x y).mp h)]
    split
    · next hle => exact hle.eq_of_not_lt h
    · rfl

end Order

/-- The rationals. An operation that leaves them is the identity. -/
instance : Number ℚ where
  ofInt n := n
  half := 1/2
  eval
    | .add, x, y => x+y
    | .sub, x, y => x-y
    | .mul, x, y => x*y
    | .div, x, y => x/y
    | .fmin, x, y => min x y
    | .fmax, x, y => max x y
    | .neg, x, _ => -x
    | .recip, x, _ => 1/x
    | .sq, x, _ => x*x
    | .abs, x, _ => |x|
    | _, x, _ => x
  equal x y := x = y
  less x y := x < y
  finite _ := true

instance : ExactField ℚ where
  ofInt_eq _ := rfl
  eval_add _ _ := rfl
  eval_sub _ _ := rfl
  eval_mul _ _ := rfl
  eval_neg _ _ := rfl
  equal_iff x y := by simp [equal]
  eval_div _ _ := rfl
  eval_recip _ _ := rfl
  eval_sq _ _ := rfl
  half_eq := rfl
  finite _ := rfl

instance : ExactOrder ℚ where
  less_iff x y := by simp [less]
  eval_abs _ _ := rfl

end Number

/-- Rational numbers, where powers are exact if the exponent is a whole number. -/
def Powered : Type := ℚ

namespace Powered

/-- The exponent is rounded down. -/
def power (x y : ℚ) : ℚ := x^⌊y⌋

theorem power_zero (x : ℚ) : power x 0 = 1 := by
  rw [power, Int.floor_zero, zpow_zero]

theorem power_one (x : ℚ) : power x 1 = x := by
  rw [power, Int.floor_one, zpow_one]

theorem power_two (x : ℚ) : power x 2 = x*x := by
  rw [power, Int.floor_ofNat, zpow_ofNat, pow_two]

instance : Field Powered := inferInstanceAs (Field ℚ)

instance : DecidableEq Powered := inferInstanceAs (DecidableEq ℚ)

instance : Number Powered where
  ofInt := Number.ofInt (K := ℚ)
  half := Number.half (K := ℚ)
  eval
    | .pow, x, y | .constPow, x, y => power x y
    | op, x, y => Number.eval (K := ℚ) op x y
  equal := Number.equal (K := ℚ)
  less := Number.less (K := ℚ)
  finite := Number.finite (K := ℚ)

instance : ExactField Powered where
  ofInt_eq _ := rfl
  eval_add _ _ := rfl
  eval_sub _ _ := rfl
  eval_mul _ _ := rfl
  eval_neg _ _ := rfl
  equal_iff x y := ExactRing.equal_iff (K := ℚ) x y
  eval_div _ _ := rfl
  eval_recip _ _ := rfl
  eval_sq _ _ := rfl
  half_eq := rfl
  finite _ := rfl

instance : ExactPower Powered where
  eval_constPow _ _ := rfl
  pow_zero := power_zero
  pow_one := power_one
  pow_two := power_two

end Powered

end Fluxion
