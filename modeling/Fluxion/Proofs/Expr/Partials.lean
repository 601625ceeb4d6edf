import Fluxion.Proofs.Dual
import Fluxion.Proofs.Expr.Meaning
import Fluxion.Proofs.Tape.Sensitivities

/-!
Partial derivatives by dual numbers. The first-order part of the value of a rational expression is its
derivative along the first-order parts of its symbols. Two orders, one in each of two symbols, give a second
partial derivative, and the two orders may be exchanged.
-/
set_option autoImplicit false

namespace Fluxion

open TrivSqZeroExt

section Numbers

variable {K : Type} [CommRing K]

/-- A number with a first-order part. -/
def dual (x d : K) : DualNumber K := inl x + inr d

@[simp] theorem fst_dual (x d : K) : (dual x d).fst = x := by simp [dual]

@[simp] theorem snd_dual (x d : K) : (dual x d).snd = d := by simp [dual]

theorem dual_zero (x : K) : dual x 0 = inl x := by simp [dual]

variable [Inv K] [Number K] [ExactDivision K]

/-- The derivatives of a rational operation in its operands `x` and `y`, where its result is `r`. -/
def rationalSlopes (op : Op) (x y r : K) : K × K :=
  match op with
  | .add => (1,1)
  | .sub => (1,-1)
  | .mul => (y,x)
  | .div => (Number.eval .div 1 y, -Number.eval .div r y)
  | .neg => (-1,0)
  | .recip => (-(r*r),0)
  | .sq => (x+x,0)
  | _ => (0,0)

omit [Inv K] [ExactDivision K] in
theorem partials_rational [ExactRing K] {op : Op} (hop : op.isRational = true) (x y r : K) :
    ((Arithmetic.numeric : Arithmetic K K Id).partials op x y r).run = some (rationalSlopes op x y r) := by
  have hzero : (Number.ofInt 0 : K) = 0 := by rw [ExactRing.ofInt_eq, Int.cast_zero]
  have hone : (Number.ofInt 1 : K) = 1 := by rw [ExactRing.ofInt_eq, Int.cast_one]
  have htwo : (Number.ofInt 2 : K) = 2 := by rw [ExactRing.ofInt_eq, Int.cast_ofNat]
  cases op
  case add => exact congrArg some (Prod.ext hone hone)
  case sub => exact congrArg some (Prod.ext hone ((ExactRing.eval_neg _ _).trans (congrArg _ hone)))
  case mul => rfl
  case div =>
    refine congrArg some (Prod.ext ?_ (ExactRing.eval_neg _ _))
    exact congrArg (Number.eval .div · y) hone
  case neg => exact congrArg some (Prod.ext ((ExactRing.eval_neg _ _).trans (congrArg _ hone)) hzero)
  case recip =>
    exact congrArg some (Prod.ext ((ExactRing.eval_neg _ _).trans (congrArg _ (ExactRing.eval_mul r r))) hzero)
  case sq =>
    exact congrArg some (Prod.ext ((ExactRing.eval_mul _ _).trans ((congrArg (· * x) htwo).trans (two_mul x))) hzero)
  all_goals cases hop

/-- The operation on `x` and `y` is that of a ring with inverses. -/
def Op.ExactAt (op : Op) (x y : K) : Prop :=
  match op with
  | .div => ∀ r : K, Number.eval .div r y = r*y⁻¹
  | .recip => Number.eval .recip x y = x⁻¹
  | .sq => Number.eval .sq x y = x*x
  | _ => True

theorem Op.exactAt (op : Op) (x y : K) : op.ExactAt x y := by
  cases op
  case div => exact fun r => ExactDivision.eval_div r y
  case recip => exact ExactDivision.eval_recip x y
  case sq => exact ExactDivision.eval_sq x y
  all_goals trivial

omit [ExactDivision K] in
/-- The first-order part of a result follows from the derivatives of the operation. -/
theorem eval_dual [ExactRing K] {op : Op} (hop : op.isRational = true) {x y : K} (hat : op.ExactAt x y)
    (d e : K) : Number.eval op (dual x d) (dual y e) = dual (Number.eval op x y)
      ((rationalSlopes op x y (Number.eval op x y)).1*d +
        (rationalSlopes op x y (Number.eval op x y)).2*e) := by
  cases op
  case add => refine TrivSqZeroExt.ext ?_ ?_ <;> simp [ExactRing.eval_add, rationalSlopes]
  case sub => refine TrivSqZeroExt.ext ?_ ?_ <;> simp [ExactRing.eval_sub, rationalSlopes, sub_eq_add_neg]
  case mul => refine TrivSqZeroExt.ext ?_ ?_ <;> simp [ExactRing.eval_mul, rationalSlopes, mul_comm, add_comm]
  case div =>
    have hdiv : ∀ r : K, Number.eval .div r y = r*y⁻¹ := hat
    refine TrivSqZeroExt.ext ?_ ?_ <;> simp [hdiv, eval_div_dual, rationalSlopes]
    ring
  case neg => refine TrivSqZeroExt.ext ?_ ?_ <;> simp [ExactRing.eval_neg, rationalSlopes]
  case recip =>
    have hrecip : Number.eval .recip x y = x⁻¹ := hat
    refine TrivSqZeroExt.ext ?_ ?_ <;> simp [hrecip, eval_recip_dual, rationalSlopes]
    ring
  case sq =>
    have hsq : Number.eval .sq x y = x*x := hat
    refine TrivSqZeroExt.ext ?_ ?_ <;> simp [hsq, eval_sq_dual, rationalSlopes]
    ring
  all_goals cases hop

end Numbers

namespace Expr

/-- All operations of the expression are `ok`. -/
def Within {K : Type} (ok : Op → Prop) (e : Expr K) : Prop :=
  ∀ d, Reaches d e → d.op.isStructural = false → ok d.op

section Within

variable {K : Type} {ok : Op → Prop} {e : Expr K}

theorem Within.operand (h : e.Within ok) {a : Expr K} (ha : a ∈ e.operands) : a.Within ok :=
  fun d hd => h d (hd.trans (.operand ha))

theorem Within.map {R : Type} (h : e.Within ok) (f : K → R) : (e.map f).Within ok := by
  intro d hd hs
  obtain ⟨a, ha, rfl⟩ := reaches_map.mp hd
  rw [op_map] at hs ⊢
  exact h a ha hs

end Within

section Natural

variable {K R : Type} [CommRing K] [Number K] [CommRing R] [Number R] {ok : Op → Prop} {f : K →+* R}

omit [Number K] [Number R] in
theorem indicator_map (f : K →+* R) (x : Expr K) (s : Symbol) :
    (x.map f).indicator s = f (x.indicator s) := by
  rw [indicator, indicator, id_map]
  split <;> simp

/-- A reading of numbers carries values to values. -/
theorem map_value (hf : Reading ok f) {e : Expr K} (hp : e.Proper) (hop : e.Within ok) (ρ : Symbol → K) :
    f (e.value ρ) = e.meaning f fun s => f (ρ s) := by
  induction e with
  | symbol s | const i v => rfl
  | unary i op a ih =>
    rw [meaning_unary, ← ih hp.2.2 (hop.operand (by simp [operands])), value,
      hf.eval op (hop _ (.refl _) hp.1)]
  | binary i op a b iha ihb =>
    have hs := Op.isStructural_of_arity hp.1
    rw [meaning_binary, ← iha hp.2.1 (hop.operand (by simp [operands])),
      ← ihb hp.2.2 (hop.operand (by simp [operands])), value, hf.eval op (hop _ (.refl _) hs)]

end Natural

variable {K : Type} [CommRing K] [Inv K] [Number K] [ExactDivision K]

/-- Rational operations over dual numbers read those over numbers. -/
theorem reading_inl : Reading (fun op => op.isRational = true) (inlHom K K) :=
  .rational _ inl_inv

omit [Inv K] [ExactDivision K] in
theorem slopes_unary_rational [ExactRing K] (ρ : Symbol → K) (i : Nat) {op : Op}
    (hop : op.isRational = true) (a : Expr K) : (unary i op a).slopes ρ =
      rationalSlopes op (a.value ρ) (a.value ρ) (Number.eval op (a.value ρ) (a.value ρ)) :=
  congrArg (Option.getD · _) (partials_rational hop _ _ _)

omit [Inv K] [ExactDivision K] in
theorem slopes_binary_rational [ExactRing K] (ρ : Symbol → K) (i : Nat) {op : Op}
    (hop : op.isRational = true) (a b : Expr K) : (binary i op a b).slopes ρ =
      rationalSlopes op (a.value ρ) (b.value ρ) (Number.eval op (a.value ρ) (b.value ρ)) :=
  congrArg (Option.getD · _) (partials_rational hop _ _ _)

section Natural

variable {R : Type} [CommRing R] [Inv R] [Number R] [ExactDivision R] {f : K →+* R}

omit [Inv K] [Inv R] [ExactDivision K] [ExactDivision R] in
theorem map_rationalSlopes (hf : Reading (fun op => op.isRational = true) f) (op : Op) (x y r : K) :
    Prod.map f f (rationalSlopes op x y r) = rationalSlopes op (f x) (f y) (f r) := by
  have hdiv (x y : K) : f (Number.eval .div x y) = Number.eval .div (f x) (f y) := hf.eval .div rfl x y
  cases op
  case div => simp [rationalSlopes, hdiv]
  all_goals simp [rationalSlopes]

omit [Inv K] [Inv R] [ExactDivision K] [ExactDivision R] in
theorem map_derivative [ExactRing K] [ExactRing R] (hf : Reading (fun op => op.isRational = true) f)
    {e : Expr K} (hp : e.Proper) (hop : e.Within (·.isRational = true)) (ρ δ : Symbol → K) :
    f (e.derivative ρ δ) = (e.map f).derivative (fun s => f (ρ s)) fun s => f (δ s) := by
  induction e with
  | symbol s => rfl
  | const i v => exact map_zero f
  | unary i op a ih =>
    have hr : op.isRational = true := hop _ (.refl _) hp.1
    have hv := map_value hf hp.2.2 (hop.operand (by simp [operands])) ρ
    have hslopes := map_rationalSlopes hf op (a.value ρ) (a.value ρ) (Number.eval op (a.value ρ) (a.value ρ))
    rw [hf.eval op hr, hv] at hslopes
    rw [derivative, map_mul, ih hp.2.2 (hop.operand (by simp [operands])), slopes_unary_rational ρ i hr]
    change _ = ((unary i op (a.map f)).slopes _).1 * _
    rw [slopes_unary_rational _ i hr]
    exact congrArg (· * _) (congrArg Prod.fst hslopes)
  | binary i op a b iha ihb =>
    have hs := Op.isStructural_of_arity hp.1
    have hr : op.isRational = true := hop _ (.refl _) hs
    have hva := map_value hf hp.2.1 (hop.operand (by simp [operands])) ρ
    have hvb := map_value hf hp.2.2 (hop.operand (by simp [operands])) ρ
    have hslopes := map_rationalSlopes hf op (a.value ρ) (b.value ρ) (Number.eval op (a.value ρ) (b.value ρ))
    rw [hf.eval op hr, hva, hvb] at hslopes
    rw [derivative, map_add, map_mul, map_mul, iha hp.2.1 (hop.operand (by simp [operands])),
      ihb hp.2.2 (hop.operand (by simp [operands])), slopes_binary_rational ρ i hr]
    change _ = ((binary i op (a.map f) (b.map f)).slopes _).1 * _ +
      ((binary i op (a.map f) (b.map f)).slopes _).2 * _
    rw [slopes_binary_rational _ i hr]
    exact congrArg₂ (fun x y => x * _ + y * _) (congrArg Prod.fst hslopes) (congrArg Prod.snd hslopes)

end Natural

/-- Every operation of the expression is exact at the values of its operands. -/
def ExactAt (ρ : Symbol → K) : Expr K → Prop
  | symbol _ | const _ _ => True
  | unary _ op a => op.ExactAt (a.value ρ) (a.value ρ) ∧ a.ExactAt ρ
  | binary _ op a b => op.ExactAt (a.value ρ) (b.value ρ) ∧ a.ExactAt ρ ∧ b.ExactAt ρ

theorem exactAt (ρ : Symbol → K) (e : Expr K) : e.ExactAt ρ := by
  induction e with
  | symbol _ | const _ _ => trivial
  | unary i op a ih => exact ⟨op.exactAt _ _, ih⟩
  | binary i op a b iha ihb => exact ⟨op.exactAt _ _, iha, ihb⟩

omit [ExactDivision K] in
/-- The value over dual numbers has the derivative for its first-order part. -/
theorem meaning_dual_of_exactAt [ExactRing K] {e : Expr K} (hp : e.Proper)
    (hop : e.Within (·.isRational = true)) (ρ δ : Symbol → K) (hat : e.ExactAt ρ) :
    e.meaning (inlHom K K) (fun s => dual (ρ s) (δ s)) = dual (e.value ρ) (e.derivative ρ δ) := by
  induction e with
  | symbol s => rfl
  | const i v => exact (dual_zero v).symm
  | unary i op a ih =>
    have hr : op.isRational = true := hop _ (.refl _) hp.1
    have hslopes := slopes_unary_rational ρ i hr a
    have hzero := slopes_unary ρ i hp.2.1 a
    rw [hslopes, Number.zero_eq] at hzero
    rw [meaning_unary, ih hp.2.2 (hop.operand (by simp [operands])) hat.2, eval_dual hr hat.1, hzero,
      zero_mul, add_zero, derivative, hslopes, value]
  | binary i op a b iha ihb =>
    have hs := Op.isStructural_of_arity hp.1
    have hr : op.isRational = true := hop _ (.refl _) hs
    rw [meaning_binary, iha hp.2.1 (hop.operand (by simp [operands])) hat.2.1,
      ihb hp.2.2 (hop.operand (by simp [operands])) hat.2.2, eval_dual hr hat.1, derivative,
      slopes_binary_rational ρ i hr, value]

theorem meaning_dual {e : Expr K} (hp : e.Proper) (hop : e.Within (·.isRational = true))
    (ρ δ : Symbol → K) :
    e.meaning (inlHom K K) (fun s => dual (ρ s) (δ s)) = dual (e.value ρ) (e.derivative ρ δ) :=
  meaning_dual_of_exactAt hp hop ρ δ (e.exactAt ρ)

/-- The partial derivative in `x`: the first-order part where `x` has one. -/
def partialAt (ρ : Symbol → K) (x e : Expr K) : K :=
  (e.meaning (inlHom K K) fun s => dual (ρ s) (x.indicator s)).snd

/-- Symbols with a part of first order for `x` and another one for `y`. -/
def twofold (ρ : Symbol → K) (x y : Expr K) (s : Symbol) : DualNumber (DualNumber K) :=
  dual (dual (ρ s) (x.indicator s)) (dual (y.indicator s) 0)

/-- The second partial derivative in `x` and `y`: the part of both orders. -/
def secondPartialAt (ρ : Symbol → K) (x y e : Expr K) : K :=
  ((e.map (inlHom K K)).meaning (inlHom (DualNumber K) (DualNumber K)) (twofold ρ x y)).snd.snd

theorem partialAt_eq {e : Expr K} (hp : e.Proper) (hop : e.Within (·.isRational = true)) (ρ : Symbol → K)
    (x : Expr K) : partialAt ρ x e = e.derivative ρ x.indicator := by
  rw [partialAt, meaning_dual hp hop, snd_dual]

/-- The second partial derivative is the partial derivative in `x` of the derivative in `y`. -/
theorem secondPartialAt_eq {e : Expr K} (hp : e.Proper) (hop : e.Within (·.isRational = true))
    (ρ : Symbol → K) (x y : Expr K) :
    secondPartialAt ρ x y e = ((e.map (inlHom K K)).derivative (fun s => dual (ρ s) (x.indicator s))
      (y.map (inlHom K K)).indicator).snd := by
  have hind : (y.map (inlHom K K)).indicator = fun s => dual (y.indicator s) 0 := by
    funext s
    rw [indicator_map, dual_zero]
    rfl
  have h := meaning_dual (hp.map (inlHom K K)) (hop.map (inlHom K K))
    (fun s => dual (ρ s) (x.indicator s)) (y.map (inlHom K K)).indicator
  rw [secondPartialAt, ← snd_dual ((e.map (inlHom K K)).value fun s => dual (ρ s) (x.indicator s))
    ((e.map (inlHom K K)).derivative _ _), ← h, hind]
  rfl

/-- The exchange of the two orders. -/
def exchange (K : Type) [CommRing K] : DualNumber (DualNumber K) →+* DualNumber (DualNumber K) where
  toFun x := dual (dual x.fst.fst x.snd.fst) (dual x.fst.snd x.snd.snd)
  map_one' := by refine TrivSqZeroExt.ext ?_ ?_ <;> refine TrivSqZeroExt.ext ?_ ?_ <;> simp
  map_zero' := by refine TrivSqZeroExt.ext ?_ ?_ <;> refine TrivSqZeroExt.ext ?_ ?_ <;> simp
  map_add' x y := by refine TrivSqZeroExt.ext ?_ ?_ <;> refine TrivSqZeroExt.ext ?_ ?_ <;> simp
  map_mul' x y := by
    refine TrivSqZeroExt.ext ?_ ?_ <;> refine TrivSqZeroExt.ext ?_ ?_ <;> simp
    ring

omit [Inv K] [Number K] [ExactDivision K] in
theorem exchange_apply (x : DualNumber (DualNumber K)) :
    exchange K x = dual (dual x.fst.fst x.snd.fst) (dual x.fst.snd x.snd.snd) := rfl

omit [Number K] [ExactDivision K] in
theorem exchange_inv (x : DualNumber (DualNumber K)) : exchange K x⁻¹ = (exchange K x)⁻¹ := by
  simp only [exchange_apply]
  refine TrivSqZeroExt.ext ?_ ?_ <;> refine TrivSqZeroExt.ext ?_ ?_ <;> simp
  ring

theorem secondPartialAt_comm {e : Expr K} (hp : e.Proper) (hop : e.Within (·.isRational = true))
    (ρ : Symbol → K) (x y : Expr K) : secondPartialAt ρ x y e = secondPartialAt ρ y x e := by
  have hread : Reading (K := DualNumber (DualNumber K)) (R := DualNumber (DualNumber K))
      (fun op => op.isRational = true) (exchange K) := .rational _ exchange_inv
  have hconst (d : Expr K) : ((d.map (inlHom K K)).map (inlHom (DualNumber K) (DualNumber K))).map
      (exchange K) = (d.map (inlHom K K)).map (inlHom (DualNumber K) (DualNumber K)) := by
    induction d with
    | symbol s => rfl
    | const i v =>
      refine congrArg (const i) ?_
      rw [exchange_apply]
      refine TrivSqZeroExt.ext ?_ ?_ <;> refine TrivSqZeroExt.ext ?_ ?_ <;> simp
    | unary i op a ih => exact congrArg (unary i op) ih
    | binary i op a b iha ihb => exact congrArg₂ (binary i op) iha ihb
  have hpoint : (fun s => exchange K (twofold ρ x y s)) = twofold ρ y x := by
    funext s
    simp [exchange_apply, twofold]
  have h := map_value hread ((hp.map (inlHom K K)).map (inlHom (DualNumber K) (DualNumber K)))
    ((hop.map (inlHom K K)).map (inlHom (DualNumber K) (DualNumber K))) (twofold ρ x y)
  rw [meaning, hconst, hpoint] at h
  rw [secondPartialAt, secondPartialAt, meaning, meaning, ← h, exchange_apply, snd_dual, snd_dual]

end Expr

end Fluxion
