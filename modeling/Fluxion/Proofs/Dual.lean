import Mathlib.Algebra.DualNumber
import Mathlib.Tactic.Ring
import Fluxion.Proofs.Exact

/-!
Dual numbers. A dual number is a number with a first-order part, so the value of an expression over dual
numbers carries a derivative, and its value over dual numbers of dual numbers a second one.
-/
set_option autoImplicit false

namespace Fluxion

section Dual

open TrivSqZeroExt

variable {K : Type} [CommRing K] [Inv K] [Number K]

/-- Rational operations are those of the ring. The others get no first-order part. -/
instance : Number (DualNumber K) where
  ofInt n := inl (Number.ofInt n)
  half := inl Number.half
  eval
    | .add, x, y => x+y
    | .sub, x, y => x-y
    | .mul, x, y => x*y
    | .div, x, y => x*y⁻¹
    | .neg, x, _ => -x
    | .recip, x, _ => x⁻¹
    | .sq, x, _ => x*x
    | op, x, y => inl (Number.eval op x.fst y.fst)
  equal x y := Number.equal x.fst y.fst && Number.equal x.snd y.snd
  less x y := Number.less x.fst y.fst
  finite x := Number.finite x.fst && Number.finite x.snd

theorem eval_div_dual (x y : DualNumber K) : Number.eval .div x y = x*y⁻¹ := rfl

theorem eval_recip_dual (x y : DualNumber K) : Number.eval .recip x y = x⁻¹ := rfl

theorem eval_sq_dual (x y : DualNumber K) : Number.eval .sq x y = x*x := rfl

instance [ExactRing K] : ExactRing (DualNumber K) where
  ofInt_eq n := by
    change (inl (Number.ofInt n) : DualNumber K) = n
    rw [ExactRing.ofInt_eq]
    rfl
  eval_add _ _ := rfl
  eval_sub _ _ := rfl
  eval_mul _ _ := rfl
  eval_neg _ _ := rfl
  equal_iff x y := by
    change (Number.equal x.fst y.fst && Number.equal x.snd y.snd) = true ↔ x = y
    rw [Bool.and_eq_true, ExactRing.equal_iff, ExactRing.equal_iff, TrivSqZeroExt.ext_iff]

instance [ExactDivision K] : ExactDivision (DualNumber K) where
  eval_div := eval_div_dual
  eval_recip := eval_recip_dual
  eval_sq := eval_sq_dual
  inv_one := by
    refine TrivSqZeroExt.ext ?_ ?_ <;> simp [ExactDivision.inv_one]

omit [Number K] in
theorem inl_inv (x : K) : (inl x⁻¹ : DualNumber K) = (inl x)⁻¹ := by
  refine TrivSqZeroExt.ext ?_ ?_ <;> simp

end Dual

end Fluxion
