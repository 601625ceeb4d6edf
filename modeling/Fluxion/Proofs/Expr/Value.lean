import Mathlib.Algebra.Field.Basic
import Fluxion.Proofs.Expr.Meaning

/-!
The value of what is built. Over a field whose first three powers are those of the field, an operation has the value
that it has at the values of the operands, whatever the other operations are. The rules that begin again with another
operation come to an end, with one new node at most.
-/
set_option autoImplicit false

namespace Fluxion

/-- How often rules may begin again. -/
def Op.rank : Op → Nat
  | .pow => 2
  | .sub | .mul | .constPow => 1
  | _ => 0

namespace Expr

variable {K : Type}

section Again

variable [Number K]

/-- The operation and the operands with which a rule begins again, where one does. -/
def again? (op : Op) (a b : Expr K) : Option (Op × Expr K × Expr K) :=
  if a.constant?.isSome && b.constant?.isSome then none
  else match op with
    | .sub => if !b.isZero && a.isZero then some (.neg, b, b) else none
    | .mul =>
      if !(a.isZero || b.isZero || a.isOne || b.isOne) && a.isConst (Number.ofInt (-1)) then some (.neg, b, b)
      else none
    | .pow => if b.constant?.isSome then some (.constPow, a, b) else none
    | .constPow => if !(b.isOne || b.isZero) && b.isConst Number.two then some (.sq, a, a) else none
    | _ => none

/-- The rules begin again with an operation of lower rank, which gives the result. -/
theorem apply_again {op form : Op} {a b x y : Expr K} (h : again? op a b = some (form,x,y)) :
    form.isStructural = false ∧ form.rank < op.rank ∧ apply op a b = apply form x y := by
  unfold again? at h
  split at h
  · cases h
  next hab =>
  have hab := Bool.eq_false_of_not_eq_true hab
  split at h
  · split at h
    · next hrule =>
      cases h
      obtain ⟨hb, ha⟩ := by simpa using hrule
      refine ⟨rfl, by decide, ?_⟩
      rw [apply_of_not_const rfl hab]
      simp [applyBinary, hb, ha, apply, Op.arity]
    · cases h
  · split at h
    · next hrule =>
      cases h
      obtain ⟨⟨⟨⟨ha, hb⟩, ha'⟩, hb'⟩, hneg⟩ := by simpa using hrule
      refine ⟨rfl, by decide, ?_⟩
      rw [apply_of_not_const rfl hab]
      simp [applyBinary, ha, hb, ha', hb', hneg, apply, Op.arity]
    · cases h
  · split at h
    · next hb =>
      cases h
      refine ⟨rfl, by decide, ?_⟩
      rw [apply_of_not_const rfl hab, apply_of_not_const rfl hab]
      simp [applyBinary, hb]
    · cases h
  · split at h
    · next hrule =>
      cases h
      obtain ⟨⟨hb, hb'⟩, htwo⟩ := by simpa using hrule
      refine ⟨rfl, by decide, ?_⟩
      rw [apply_of_not_const rfl hab]
      simp [applyBinary, applyConstPow, hb, hb', htwo, apply, Op.arity]
    · cases h
  · cases h

theorem build_of_not_structural {op : Op} (hs : op.isStructural = false) (a b : Expr K) :
    build op a b = liftM (apply op a b) := by
  unfold build
  rw [hs]
  rfl

/-- A unary operation looks at its first operand only. -/
theorem apply_eq_first (op : Op) (a b : Expr K) : apply op a b = apply op a (if op.arity = 1 then a else b) := by
  unfold apply
  split
  · rfl
  · rfl

theorem Applied.next_le {op : Op} {a b : Expr K} {n : Nat} {r : Expr K × Nat} (h : Applied op a b n r) :
    r.2 ≤ n+1 := by
  cases h with
  | operand _ => exact Nat.le_succ n
  | const _ | unary _ _ _ _ _ | binary _ _ _ => exact Nat.le_refl _

end Again

section Field

variable [Field K] [Number K] [ExactPower K]

/-- In a field all rules hold, but for a quotient by zero. -/
theorem simplifies_id (hdiv : ∀ x y : K, y ≠ 0 → Number.eval .div x y = x/y)
    (hsq : ∀ x y : K, Number.eval .sq x y = x*x) {op : Op} {y : K} (hy : op = .div → y ≠ 0) :
    Simplifies (RingHom.id K) op y where
  eval _ _ _ _ := rfl
  div_one x _ := by rw [hdiv x 1 one_ne_zero, div_one]
  zero_div he := by rw [hdiv 0 y (hy he), zero_div]
  pow_const x k _ := (ExactPower.eval_constPow x k).symm
  constPow_zero x _ := by rw [ExactPower.eval_constPow, ExactPower.pow_zero]
  constPow_one x _ := by rw [ExactPower.eval_constPow, ExactPower.pow_one]
  constPow_two x _ := by rw [ExactPower.eval_constPow, ExactPower.pow_two, hsq]

variable [ExactRing K]

/-- An operation on any operands gives an expression, with one new node at most and where rules begin again with
operations of ever lower rank. Its value is that of the operation at the values of the operands, for all symbols by
which no divisor is zero. -/
theorem build_value (hdiv : ∀ x y : K, y ≠ 0 → Number.eval .div x y = x/y)
    (hsq : ∀ x y : K, Number.eval .sq x y = x*x) {op : Op} (hs : op.isStructural = false) (a b : Expr K) (n : Nat) :
    (∀ form x y, again? op a b = some (form,x,y) → form.rank < op.rank ∧ build op a b = build form x y) ∧
    ∃ e m, (build op a b).run n = (.ok e, m) ∧ m ≤ n+1 ∧ ∀ ρ, (op = .div → b.value ρ ≠ 0) →
      e.value ρ = Number.eval op (a.value ρ) ((if op.arity = 1 then a else b).value ρ) := by
  constructor
  · intro form x y h
    obtain ⟨hform, hrank, happly⟩ := apply_again h
    refine ⟨hrank, ?_⟩
    rw [build_of_not_structural hs, build_of_not_structural hform, happly]
  · refine ⟨((apply op a b).run n).1, _, ?_, (applied_apply hs a b n).next_le, fun ρ hy => ?_⟩
    · rw [build_of_not_structural hs]
      rfl
    · rw [apply_eq_first, ← meaning_id, ← meaning_id, ← meaning_id]
      refine meaning_apply (simplifies_id hdiv hsq ?_) (fun harity => (if_pos harity).symm) n
      rintro rfl
      rw [meaning_id]
      exact hy rfl

end Field

theorem build_value_square : Op.pow.isStructural = false ∧ (∀ x y : Powered, y ≠ 0 → Number.eval .div x y = x/y) ∧
    (∀ x y : Powered, Number.eval .sq x y = x*x) ∧
    ∃ (e : Expr Powered) (m : Nat), (build .pow (.symbol ⟨0,"x"⟩) (.const 1 2)).run 2 = (.ok e, m) ∧ m ≤ 3 ∧
      ∀ ρ, e.value ρ = ρ ⟨0,"x"⟩ * ρ ⟨0,"x"⟩ := by
  have hs : Op.pow.isStructural = false := rfl
  have hdiv (x y : Powered) (_ : y ≠ 0) : Number.eval .div x y = x/y := ExactField.eval_div x y
  have hsq (x y : Powered) : Number.eval .sq x y = x*x := ExactField.eval_sq x y
  obtain ⟨-, e, m, hrun, hm, hvalue⟩ := build_value hdiv hsq hs (.symbol ⟨0,"x"⟩) (.const 1 2) 2
  refine ⟨hs, hdiv, hsq, e, m, hrun, hm, fun ρ => ?_⟩
  rw [hvalue ρ (by simp)]
  exact ExactPower.pow_two (ρ ⟨0,"x"⟩)

end Expr

end Fluxion
