import Mathlib.Tactic.SplitIfs
import Fluxion.Expr.Build
import Fluxion.Proofs.Sharing

/-!
What an operation on operands comes to. It may be an operand, or part of one, or a constant, and else one new node
over the operands, to which no rule applies any more.
-/
set_option autoImplicit false

namespace Fluxion

/-- The operations of the nodes that an operation may end in. -/
def Op.forms : Op → List Op
  | .sub => [.sub, .neg]
  | .mul => [.mul, .neg]
  | .pow => [.pow, .constPow, .sq]
  | .constPow => [.constPow, .sq]
  | op => [op]

theorem Op.mem_forms (op : Op) : op ∈ op.forms := by cases op <;> decide

namespace Expr

variable {K : Type}

def isNegation : Expr K → Bool
  | unary _ .neg _ => true
  | _ => false

variable [Number K]

/-- Whether a rule takes the place of a node over these operands. -/
def reduces (op : Op) (a b : Expr K) : Bool :=
  a.constant?.isSome && b.constant?.isSome ||
    match op with
    | .add | .sub => a.isZero || b.isZero
    | .mul => a.isZero || b.isZero || a.isOne || b.isOne || a.isConst (Number.ofInt (-1))
    | .div => a.isZero || b.isOne
    | .neg => a.isNegation
    | .pow => b.constant?.isSome
    | .constPow => b.isOne || b.isZero || b.isConst Number.two
    | _ => false

/-- What comes of an operation where `n` is the next number, with the next number then. -/
inductive Applied (op : Op) (a b : Expr K) (n : Nat) : Expr K × Nat → Prop
  | operand {e : Expr K} (h : Reaches e a ∨ Reaches e b) : Applied op a b n (e,n)
  | const (v : K) : Applied op a b n (.const n v, n+1)
  | unary {form : Op} {x : Expr K} (hform : form ∈ op.forms) (hs : form.isStructural = false)
    (harity : form.arity = 1) (hx : x = a ∨ x = b) (hr : reduces form x x = false) :
    Applied op a b n (.unary n form x, n+1)
  | binary {form : Op} (hform : form ∈ op.forms) (harity : form.arity = 2) (hr : reduces form a b = false) :
    Applied op a b n (.binary n form a b, n+1)

section Rules

variable {op form : Op} {a b x : Expr K} {n : Nat}

theorem reduces_unary_eq_false (hconst : ∀ i v, x = .const i v → False)
    (hneg : ∀ i y, form = .neg → x = .unary i .neg y → False) (harity : form.arity = 1) :
    reduces form x x = false := by
  have hconstant : x.constant? = none := by
    cases x with
    | const i v => exact (hconst i v rfl).elim
    | _ => rfl
  have hnegation : form = .neg → x.isNegation = false := fun hform => by
    unfold isNegation
    split
    · next i y => exact (hneg i y hform rfl).elim
    · rfl
  cases form <;> simp_all [reduces, Op.arity]

theorem applied_unary (hform : form ∈ op.forms) (hs : form.isStructural = false) (harity : form.arity = 1)
    (hx : x = a ∨ x = b) : Applied op a b n ((applyUnary form x).run n) := by
  unfold applyUnary
  split
  · exact .const _
  · next y =>
    refine .operand (hx.imp (fun h => ?_) fun h => ?_) <;>
      exact h ▸ .operand (by simp [operands])
  · next hconst hneg => exact .unary hform hs harity hx (reduces_unary_eq_false hconst hneg harity)

theorem applied_constPow (hform : .constPow ∈ op.forms) (hsq : .sq ∈ op.forms)
    (hab : (a.constant?.isSome && b.constant?.isSome) = false) : Applied op a b n ((applyConstPow a b).run n) := by
  unfold applyConstPow
  split_ifs with hone hzero htwo
  · exact .operand (.inl (.refl a))
  · exact .const _
  · exact applied_unary hsq rfl rfl (.inl rfl)
  · exact .binary hform rfl (by simp [reduces, hab, hone, hzero, htwo])

theorem applied_binary (harity : op.arity = 2) (hab : (a.constant?.isSome && b.constant?.isSome) = false) :
    Applied op a b n ((applyBinary op a b).run n) := by
  unfold applyBinary
  split
  · split_ifs with ha hb
    · exact .operand (.inr (.refl b))
    · exact .operand (.inl (.refl a))
    · exact .binary (Op.mem_forms _) rfl (by simp [reduces, hab, ha, hb])
  · split_ifs with hb ha
    · exact .operand (.inl (.refl a))
    · exact applied_unary (by decide) rfl rfl (.inr rfl)
    · exact .binary (Op.mem_forms _) rfl (by simp [reduces, hab, ha, hb])
  · split_ifs with hzero ha hb hneg
    · exact .const _
    · exact .operand (.inr (.refl b))
    · exact .operand (.inl (.refl a))
    · exact applied_unary (by decide) rfl rfl (.inr rfl)
    · exact .binary (Op.mem_forms _) rfl (by simp_all [reduces])
  · split_ifs with hb ha
    · exact .operand (.inl (.refl a))
    · exact .const _
    · exact .binary (Op.mem_forms _) rfl (by simp [reduces, hab, ha, hb])
  · split_ifs with hb
    · exact applied_constPow (by decide) (by decide) hab
    · exact .binary (Op.mem_forms _) rfl (by simp [reduces, hb])
  · exact applied_constPow (by decide) (by decide) hab
  · next hadd hsub hmul hdiv hpow hconstPow =>
    refine .binary (Op.mem_forms op) harity ?_
    cases op <;> simp_all [reduces, Op.arity]

theorem applied_apply (hs : op.isStructural = false) (a b : Expr K) (n : Nat) :
    Applied op a b n ((apply op a b).run n) := by
  unfold apply
  split
  · next harity => exact applied_unary (Op.mem_forms op) hs harity (.inl rfl)
  · next harity =>
    split
    · exact .const _
    · next hconst =>
      refine applied_binary ((Op.arity_one_or_two hs).resolve_left harity) ?_
      cases a <;> cases b <;> first
        | rfl
        | exact (hconst _ _ _ _ rfl rfl).elim

/-- Where no rule applies the operation makes a node. -/
theorem apply_of_unary (hr : reduces op a a = false) (harity : op.arity = 1) (b : Expr K) :
    apply op a b = newUnary op a := by
  unfold apply applyUnary
  rw [if_pos harity]
  split
  · simp [reduces, constant?] at hr
  · simp [reduces, isNegation] at hr
  · rfl

theorem apply_of_not_const (harity : op.arity = 2) (hab : (a.constant?.isSome && b.constant?.isSome) = false) :
    apply op a b = applyBinary op a b := by
  unfold apply
  rw [if_neg (by omega)]
  split
  · simp [constant?] at hab
  · rfl

theorem apply_of_binary (hr : reduces op a b = false) (harity : op.arity = 2) :
    apply op a b = newBinary op a b := by
  obtain ⟨hab, hrule⟩ := Bool.or_eq_false_iff.mp hr
  rw [apply_of_not_const harity hab]
  cases op <;> simp_all [applyBinary, applyConstPow, Op.arity]

end Rules

end Expr

end Fluxion
