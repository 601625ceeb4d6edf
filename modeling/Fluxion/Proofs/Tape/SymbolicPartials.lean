import Fluxion.Proofs.Tape.SymbolicReplay

/-!
Derivatives of all operations that have some. Whatever the functions are that an operation stands for, its
symbolic derivatives have the values of the numeric ones, if powers are exact where builders simplify them.
-/
set_option autoImplicit false

namespace Fluxion

variable {K R : Type}

/-- Operations with those that builders make of them, where constants stand for themselves. -/
theorem reading_exact [Field K] [Number K] [ExactField K] [ExactPower K] {ok : Op → Prop} (add : ok .add)
    (mul : ok .mul) (neg : ok .neg) (sq : ok .sq) (constPow : ok .constPow) : Reading ok (RingHom.id K) where
  eval _ _ _ _ := rfl
  add := add
  mul := mul
  neg := neg
  sq _ := sq
  constPow _ := constPow
  div_one x _ := by rw [ExactField.eval_div, div_one]
  zero_div x _ := by rw [ExactField.eval_div, zero_div]
  pow_const x y _ := (ExactPower.eval_constPow x y).symm
  constPow_zero x _ := by rw [ExactPower.eval_constPow, ExactPower.pow_zero]
  constPow_one x _ := by rw [ExactPower.eval_constPow, ExactPower.pow_one]
  constPow_two x _ := by rw [ExactPower.eval_constPow, ExactPower.pow_two, ExactField.eval_sq]

/-- All operations but the remainder. -/
theorem reading_total [Field K] [Number K] [ExactField K] [ExactPower K] :
    Reading (fun op => op ≠ .rem) (RingHom.id K) :=
  reading_exact (by simp) (by simp) (by simp) (by simp) (by simp)

namespace Expr

variable [CommRing K] [Number K] [ExactRing K] [CommRing R] [Number R] [ExactRing R] {ok : Op → Prop}
  {symbols roots : List (Expr K)} {f : K →+* R} {ρ : Symbol → R} {a b : Expr K} {x y : R}

omit [ExactRing K] [ExactRing R] in
theorem yields_half (hhalf : f Number.half = Number.half) :
    Yields ok symbols roots (Arithmetic.symbolic : Arithmetic K _ _).half
      (Denotes (meaning f ρ) Number.half) := by
  rw [← hhalf]
  exact yields_newConst _

theorem yields_sub (hf : Reading ok f) (hok : ok .sub) (ha : Denotes (meaning f ρ) x roots a)
    (hb : Denotes (meaning f ρ) y roots b) :
    Yields ok symbols roots (Arithmetic.symbolic.sub a b) (Denotes (meaning f ρ) (x-y)) := by
  rw [← ha.2, ← hb.2, ← ExactRing.eval_sub]
  exact yields_apply hf rfl hok ha.1 hb.1 (by simp [Op.arity])

theorem yields_binary (hf : Reading ok f) {op : Op} (hop : op.arity = 2) (hok : ok op)
    (ha : Denotes (meaning f ρ) x roots a) (hb : Denotes (meaning f ρ) y roots b) :
    Yields ok symbols roots ((Arithmetic.symbolic : Arithmetic K _ _).apply op a b)
      (Denotes (meaning f ρ) (Number.eval op x y)) := by
  rw [← ha.2, ← hb.2]
  exact yields_apply hf (Op.isStructural_of_arity hop) hok ha.1 hb.1 (by simp [hop])

theorem yields_unary (hf : Reading ok f) {op : Op} (hs : op.isStructural = false) (hok : ok op)
    (ha : Denotes (meaning f ρ) x roots a) :
    Yields ok symbols roots ((Arithmetic.symbolic : Arithmetic K _ _).unary op a)
      (Denotes (meaning f ρ) (Number.eval op x x)) := by
  rw [← ha.2]
  exact yields_apply hf hs hok ha.1 ha.1 fun _ => rfl

theorem yields_oneMinusSq (hf : Reading ok f) (hok : ok .sub) (ha : Denotes (meaning f ρ) x roots a) :
    Yields ok symbols roots ((Arithmetic.symbolic : Arithmetic K _ _).oneMinusSq a)
      (Denotes (meaning f ρ) (1-x*x)) :=
  .bind (yields_one f ρ) fun _ _ h₁ hone => .bind (yields_mul hf (ha.subset h₁) (ha.subset h₁))
    fun _ _ h₂ hsq => yields_sub hf hok (hone.subset h₂) hsq

theorem yields_onePlusSq (hf : Reading ok f) (ha : Denotes (meaning f ρ) x roots a) :
    Yields ok symbols roots ((Arithmetic.symbolic : Arithmetic K _ _).onePlusSq a)
      (Denotes (meaning f ρ) (1+x*x)) :=
  .bind (yields_one f ρ) fun _ _ h₁ hone => .bind (yields_mul hf (ha.subset h₁) (ha.subset h₁))
    fun _ _ h₂ hsq => yields_add hf (hone.subset h₂) hsq

end Expr

namespace Arithmetic

variable [CommRing R] [Number R] [ExactRing R]

omit [CommRing R] [ExactRing R] in
theorem numeric_half : (numeric : Arithmetic R R Id).half = pure Number.half := rfl

theorem numeric_oneMinusSq (x : R) : (numeric : Arithmetic R R Id).oneMinusSq x = pure (1-x*x) := by
  simp [oneMinusSq, numeric_one, numeric_mul, numeric_sub]

theorem numeric_onePlusSq (x : R) : (numeric : Arithmetic R R Id).onePlusSq x = pure (1+x*x) := by
  simp [onePlusSq, numeric_one, numeric_mul, numeric_add]

/-- Halves of one minus and one plus the sign of a difference. -/
def halves (x y : R) : R × R :=
  let s := Number.eval .sign (x-y) (x-y)
  (Number.half*(1-s), Number.half*(1+s))

theorem numeric_lesser (x y : R) : (numeric : Arithmetic R R Id).lesser x y = pure (halves x y) := by
  have hsign (z : R) : (numeric : Arithmetic R R Id).unary .sign z = pure (Number.eval .sign z z) := rfl
  simp [lesser, numeric_sub, numeric_one, numeric_add, numeric_mul, numeric_half, hsign, halves]

end Arithmetic

namespace Tape

open Fluxion.Expr

variable [CommRing K] [Number K] [ExactRing K] [CommRing R] [Number R] [ExactRing R]
  {symbols roots : List (Expr K)} {f : K →+* R} {ρ : Symbol → R}

omit [ExactRing R] in
/-- A unary operation has a slope, and no derivative in a second operand. -/
theorem yields_slope_zero {ok : Op → Prop} {x : Expr K} {d : R} (hx : Denotes (meaning f ρ) d roots x)
    {pq : Id (Option (R × R))} (hpq : pq = pure (some (d,0))) :
    Yields ok symbols roots (do
      let z ← (Arithmetic.symbolic : Arithmetic K _ _).zero
      return some (x,z)) fun roots' p? =>
        ∃ p, p? = some p ∧ ReachedFrom roots' p.1 ∧ ReachedFrom roots' p.2 ∧
          pq = pure (some (Prod.map (meaning f ρ) (meaning f ρ) p)) :=
  .bind (yields_zero f ρ) fun _ z h hz => .pure ⟨(x,z), rfl, hx.1.subset h, hz.1, by
    rw [hpq, Prod.map, hx.2, hz.2]⟩

variable (hf : Reading (fun op => op ≠ .rem) f) (hhalf : f Number.half = Number.half)
include hf hhalf

theorem yields_lesser {a b : Expr K} {x y : R} (ha : Denotes (meaning f ρ) x roots a)
    (hb : Denotes (meaning f ρ) y roots b) :
    Yields (fun op => op ≠ .rem) symbols roots ((Arithmetic.symbolic : Arithmetic K _ _).lesser a b)
      fun roots' p => Denotes (meaning f ρ) (Arithmetic.halves x y).1 roots' p.1 ∧
        Denotes (meaning f ρ) (Arithmetic.halves x y).2 roots' p.2 := by
  unfold Arithmetic.lesser
  refine .bind (yields_sub hf (by simp) ha hb) fun _ d h₁ hd => .bind (yields_unary hf rfl (by simp) hd)
    fun _ s h₂ hs => .bind (yields_half hhalf) fun _ c h₃ hc => .bind (yields_one f ρ) fun _ w h₄ hw =>
    .bind (yields_sub hf (by simp) hw ((hs.subset h₃).subset h₄)) fun _ u h₅ hu =>
    .bind (yields_mul hf ((hc.subset h₄).subset h₅) hu) fun _ p h₆ hp => ?_
  have hs' := (((hs.subset h₃).subset h₄).subset h₅).subset h₆
  exact .bind (yields_half hhalf) fun _ c' h₇ hc' => .bind (yields_one f ρ) fun _ w' h₈ hw' =>
    .bind (yields_add hf hw' ((hs'.subset h₇).subset h₈)) fun _ v h₉ hv =>
    .bind (yields_mul hf ((hc'.subset h₈).subset h₉) hv) fun _ q h₁₀ hq =>
      .pure ⟨(((hp.subset h₇).subset h₈).subset h₉).subset h₁₀, hq⟩

/-- The derivatives of the operations on two operands that are no quotients, products or sums. -/
theorem derives_binary {op : Op} (hop : op.arity = 2) (hrat : op.isRational = false) (hrem : op ≠ .rem) :
    Derives (fun op => op ≠ .rem) symbols f ρ op := by
  intro roots a b r ha hb hr
  have ha : Denotes (meaning f ρ) (a.meaning f ρ) roots a := ⟨ha, rfl⟩
  have hb : Denotes (meaning f ρ) (b.meaning f ρ) roots b := ⟨hb, rfl⟩
  have hr : Denotes (meaning f ρ) (r.meaning f ρ) roots r := ⟨hr, rfl⟩
  cases op
  case pow =>
    refine .bind (yields_one f ρ) fun _ w h₁ hw => .bind (yields_sub hf (by simp) (hb.subset h₁) hw)
      fun _ c h₂ hc => .bind (yields_binary hf rfl (by simp) ((ha.subset h₁).subset h₂) hc) fun _ d h₃ hd =>
      .bind (yields_mul hf (((hb.subset h₁).subset h₂).subset h₃) hd) fun _ p h₄ hp => ?_
    have ha' := (((ha.subset h₁).subset h₂).subset h₃).subset h₄
    have hr' := (((hr.subset h₁).subset h₂).subset h₃).subset h₄
    refine .bind (yields_unary hf rfl (by simp) ha') fun _ l h₅ hl => .bind (yields_mul hf (hr'.subset h₅) hl)
      fun _ q h₆ hq => .pure ⟨(p,q), rfl, (hp.1.subset h₅).subset h₆, hq.1, ?_⟩
    rw [Prod.map, hp.2, hq.2]
    simp [Arithmetic.partials, Arithmetic.numeric_one, Arithmetic.numeric_sub, Arithmetic.numeric_mul]
    rfl
  -- The exponent is a constant, so there is no slope in it.
  case constPow =>
    refine .bind (yields_one f ρ) fun _ w h₁ hw => .bind (yields_sub hf (by simp) (hb.subset h₁) hw)
      fun _ c h₂ hc => .bind (yields_binary hf rfl (by simp) ((ha.subset h₁).subset h₂) hc) fun _ d h₃ hd =>
      .bind (yields_mul hf (((hb.subset h₁).subset h₂).subset h₃) hd) fun _ p h₄ hp =>
      yields_slope_zero hp ?_
    simp [Arithmetic.partials, Arithmetic.numeric_one, Arithmetic.numeric_sub, Arithmetic.numeric_mul,
      Arithmetic.numeric_zero]
    rfl
  -- Both slopes share the sum of squares.
  case atan2 =>
    refine .bind (yields_mul hf ha ha) fun _ u h₁ hu => .bind (yields_mul hf (hb.subset h₁) (hb.subset h₁))
      fun _ v h₂ hv => .bind (yields_add hf (hu.subset h₂) hv) fun _ d h₃ hd =>
      .bind (yields_div hf (by simp) (((hb.subset h₁).subset h₂).subset h₃) hd) fun _ p h₄ hp =>
      .bind (yields_div hf (by simp) ((((ha.subset h₁).subset h₂).subset h₃).subset h₄) (hd.subset h₄))
      fun _ w h₅ hw => .bind (yields_neg hf hw) fun _ q h₆ hq =>
      .pure ⟨(p,q), rfl, (hp.1.subset h₅).subset h₆, hq.1, ?_⟩
    rw [Prod.map, hp.2, hq.2]
    simp [Arithmetic.partials, Arithmetic.numeric_mul, Arithmetic.numeric_add, Arithmetic.numeric_div,
      Arithmetic.numeric_neg]
  case fmin =>
    refine .bind (yields_lesser hf hhalf ha hb) fun _ p _ hp => .pure ⟨p, rfl, hp.1.1, hp.2.1, ?_⟩
    rw [Prod.map, hp.1.2, hp.2.2]
    simp [Arithmetic.partials, Arithmetic.numeric_lesser]
  case fmax =>
    refine .bind (yields_lesser hf hhalf ha hb) fun _ p _ hp => .pure ⟨p.swap, rfl, hp.2.1, hp.1.1, ?_⟩
    rw [Prod.map, Prod.fst_swap, Prod.snd_swap, hp.1.2, hp.2.2]
    simp only [Arithmetic.partials, Arithmetic.numeric_lesser]
    rfl
  case rem => exact absurd rfl hrem
  all_goals first
    | exact absurd hop (by decide)
    | exact absurd hrat (by decide)

theorem derives_function {op : Op} (hs : op.isStructural = false) (hop : op.arity = 1)
    (hrat : op.isRational = false) : Derives (fun op => op ≠ .rem) symbols f ρ op := by
  intro roots a b r ha hb hr
  have ha : Denotes (meaning f ρ) (a.meaning f ρ) roots a := ⟨ha, rfl⟩
  have hr : Denotes (meaning f ρ) (r.meaning f ρ) roots r := ⟨hr, rfl⟩
  have hone (roots : List (Expr K)) : Yields (fun op => op ≠ .rem) symbols roots Arithmetic.symbolic.one
      (Denotes (meaning f ρ) 1) := yields_one f ρ
  have hunary (op : Op) (x : R) : (Arithmetic.numeric : Arithmetic R R Id).unary op x =
      pure (Number.eval op x x) := rfl
  cases op
  case sqrt =>
    refine .bind (yields_half hhalf) fun _ c h₁ hc => .bind (yields_div hf (by simp) hc (hr.subset h₁))
      fun _ x _ hx => yields_slope_zero hx ?_
    simp [Arithmetic.partials, Arithmetic.numeric_half, Arithmetic.numeric_div, Arithmetic.numeric_zero]
  case exp => exact yields_slope_zero hr (by simp [Arithmetic.partials, Arithmetic.numeric_zero])
  case log =>
    refine .bind (hone _) fun _ w h₁ hw => .bind (yields_div hf (by simp) hw (ha.subset h₁))
      fun _ x _ hx => yields_slope_zero hx ?_
    simp [Arithmetic.partials, Arithmetic.numeric_one, Arithmetic.numeric_div, Arithmetic.numeric_zero]
  case sin | sinh | cosh | abs =>
    refine .bind (yields_unary hf rfl (by simp) ha) fun _ x _ hx => yields_slope_zero hx ?_
    simp [Arithmetic.partials, hunary, Arithmetic.numeric_zero]
  case cos =>
    refine .bind (yields_unary hf rfl (by simp) ha) fun _ w _ hw => .bind (yields_neg hf hw)
      fun _ x _ hx => yields_slope_zero hx ?_
    simp [Arithmetic.partials, hunary, Arithmetic.numeric_neg, Arithmetic.numeric_zero]
  case tan =>
    refine .bind (yields_onePlusSq hf hr) fun _ x _ hx => yields_slope_zero hx ?_
    simp [Arithmetic.partials, Arithmetic.numeric_onePlusSq, Arithmetic.numeric_zero]
  case tanh =>
    refine .bind (yields_oneMinusSq hf (by simp) hr) fun _ x _ hx => yields_slope_zero hx ?_
    simp [Arithmetic.partials, Arithmetic.numeric_oneMinusSq, Arithmetic.numeric_zero]
  case atan =>
    refine .bind (hone _) fun _ w h₁ hw => .bind (yields_onePlusSq hf (ha.subset h₁)) fun _ d h₂ hd =>
      .bind (yields_div hf (by simp) (hw.subset h₂) hd) fun _ x _ hx => yields_slope_zero hx ?_
    simp [Arithmetic.partials, Arithmetic.numeric_one, Arithmetic.numeric_onePlusSq, Arithmetic.numeric_div,
      Arithmetic.numeric_zero]
  case asin =>
    refine .bind (hone _) fun _ w h₁ hw => .bind (yields_oneMinusSq hf (by simp) (ha.subset h₁))
      fun _ u h₂ hu => .bind (yields_unary hf rfl (by simp) hu) fun _ d h₃ hd =>
      .bind (yields_div hf (by simp) ((hw.subset h₂).subset h₃) hd) fun _ x _ hx => yields_slope_zero hx ?_
    simp [Arithmetic.partials, Arithmetic.numeric_one, Arithmetic.numeric_oneMinusSq, hunary,
      Arithmetic.numeric_div, Arithmetic.numeric_zero]
  case acos =>
    refine .bind (hone _) fun _ w h₁ hw => .bind (yields_oneMinusSq hf (by simp) (ha.subset h₁))
      fun _ u h₂ hu => .bind (yields_unary hf rfl (by simp) hu) fun _ d h₃ hd =>
      .bind (yields_div hf (by simp) ((hw.subset h₂).subset h₃) hd) fun _ v _ hv =>
      .bind (yields_neg hf hv) fun _ x _ hx => yields_slope_zero hx ?_
    simp [Arithmetic.partials, Arithmetic.numeric_one, Arithmetic.numeric_oneMinusSq, hunary,
      Arithmetic.numeric_div, Arithmetic.numeric_neg, Arithmetic.numeric_zero]
  -- Steps, whose slope is zero.
  case sign | floor | ceil =>
    refine .bind (yields_zero f ρ) fun _ x _ hx => yields_slope_zero hx ?_
    simp [Arithmetic.partials, Arithmetic.numeric_zero]
  all_goals first
    | exact absurd hop (by decide)
    | exact absurd hrat (by decide)
    | exact absurd hs (by decide)

theorem derives_total {op : Op} (hs : op.isStructural = false) (hrem : op ≠ .rem) :
    Derives (fun op => op ≠ .rem) symbols f ρ op := by
  cases hrat : op.isRational with
  | true => exact derives_rational hf hrat hrem
  | false =>
    obtain hop | hop := Op.arity_one_or_two hs
    · exact derives_function hf hhalf hs hop hrat
    · exact derives_binary hf hhalf hop hrat hrem

end Tape

end Fluxion
