import Fluxion.Arithmetic
import Fluxion.Proofs.Expr.Simplified

/-!
Actions whatever the numbers of the nodes. An action that makes nodes gives them the numbers that come next and looks
at none, so it comes to the same from every number on, apart from the numbers.
-/
set_option autoImplicit false

namespace Fluxion

open Fluxion.Expr

variable {K T U α β γ δ σ τ ε : Type}

/-- Whatever number comes next, the action comes to what `act'` comes to, as `g` sees it. -/
def Fresh.Repeats (g : α → β) (act : Fresh α) (act' : Id β) : Prop := ∀ n, g (act.run n).1 = act'.run

namespace Fresh.Repeats

variable {g : α → β} {h : γ → δ} {act : Fresh α} {act' : Id β}

protected theorem pure {a : α} {b : β} (hab : g a = b) : Repeats g (pure a) (pure b) := fun _ => hab

protected theorem bind {next : α → Fresh γ} {next' : β → Id δ} (ha : Repeats g act act')
    (hnext : ∀ a, Repeats h (next a) (next' (g a))) : Repeats h (act >>= next) (act' >>= next') := by
  intro n
  change h ((next (act.run n).1).run (act.run n).2).1 = (next' act'.run).run
  rw [hnext, ha]

theorem foldlM {f : σ → τ} {step : σ → ε → Fresh σ} {step' : τ → ε → Id τ}
    (hstep : ∀ s x, Repeats f (step s x) (step' (f s) x)) (xs : List ε) (s : σ) :
    Repeats f (xs.foldlM step s) (xs.foldlM step' (f s)) := by
  induction xs generalizing s with
  | nil => exact .pure rfl
  | cons x xs ih =>
    rw [List.foldlM_cons, List.foldlM_cons]
    exact .bind (hstep s x) fun t => ih t

theorem foldrM {f : σ → τ} {step : ε → σ → Fresh σ} {step' : ε → τ → Id τ}
    (hstep : ∀ s x, Repeats f (step x s) (step' x (f s))) (xs : List ε) (s : σ) :
    Repeats f (xs.foldrM step s) (xs.foldrM step' (f s)) := by
  rw [← List.foldlM_reverse, ← List.foldlM_reverse]
  exact foldlM (fun s x => hstep s x) xs.reverse s

theorem mapM {f : σ → τ} {step : σ → Fresh α} {step' : τ → Id β} (hstep : ∀ x, Repeats g (step x) (step' (f x)))
    (xs : Array σ) : Repeats (Array.map g) (xs.mapM step) ((xs.map f).mapM step') := by
  have hlist (l : List σ) : Repeats (List.map g) (l.mapM step) ((l.map f).mapM step') := by
    induction l with
    | nil => exact .pure rfl
    | cons x l ih =>
      rw [List.mapM_cons, List.map_cons, List.mapM_cons]
      exact .bind (hstep x) fun y => .bind ih fun ys => .pure rfl
  rw [Array.mapM_eq_mapM_toList, Array.mapM_eq_mapM_toList, ← bind_pure_comp, ← bind_pure_comp, Array.toList_map]
  exact .bind (hlist xs.toList) fun ys => .pure (by simp)

end Fresh.Repeats

/-- As `Repeats`, for actions that may fail. -/
def Make.Repeats {F F' : Type} (e : F → F') (g : α → β) (act : ExceptT F Fresh α) (act' : ExceptT F' Id β) : Prop :=
  Fresh.Repeats (fun r => (r.mapError e).map g) act.run act'.run

namespace Make.Repeats

variable {F F' : Type} {e : F → F'} {g : α → β} {h : γ → δ} {act : ExceptT F Fresh α} {act' : ExceptT F' Id β}

protected theorem pure {a : α} {b : β} (hab : g a = b) :
    Repeats e g (pure a : ExceptT F Fresh α) (pure b : ExceptT F' Id β) :=
  Fresh.Repeats.pure (congrArg Except.ok hab)

protected theorem throw {x : F} {y : F'} (hxy : e x = y) :
    Repeats e g (throw x : ExceptT F Fresh α) (throw y : ExceptT F' Id β) :=
  Fresh.Repeats.pure (congrArg Except.error hxy)

protected theorem bind {next : α → ExceptT F Fresh γ} {next' : β → ExceptT F' Id δ} (ha : Repeats e g act act')
    (hnext : ∀ a, Repeats e h (next a) (next' (g a))) : Repeats e h (act >>= next) (act' >>= next') := by
  rw [Repeats, ExceptT.run_bind, ExceptT.run_bind]
  refine Fresh.Repeats.bind ha fun r => ?_
  cases r with
  | ok a => exact hnext a
  | error x => exact .pure rfl

theorem lift {act : Fresh α} {act' : Id β} (ha : Fresh.Repeats g act act') :
    Repeats e g (liftM act : ExceptT F Fresh α) (liftM act' : ExceptT F' Id β) := by
  change Fresh.Repeats _ (Except.ok <$> act) (Except.ok <$> act')
  rw [map_eq_pure_bind, map_eq_pure_bind]
  exact .bind ha fun _ => .pure rfl

theorem foldlM {f : σ → τ} {step : σ → ε → ExceptT F Fresh σ} {step' : τ → ε → ExceptT F' Id τ}
    (hstep : ∀ s x, Repeats e f (step s x) (step' (f s) x)) (xs : List ε) (s : σ) :
    Repeats e f (xs.foldlM step s) (xs.foldlM step' (f s)) := by
  induction xs generalizing s with
  | nil => exact .pure rfl
  | cons x xs ih =>
    rw [List.foldlM_cons, List.foldlM_cons]
    exact .bind (hstep s x) fun t => ih t

end Make.Repeats

/-! ### Arithmetics -/

namespace Arithmetic

/-- `g` takes what `A` makes to what `B` makes, whatever number comes next. -/
structure Repeats (g : T → U) (A : Arithmetic K T Fresh) (B : Arithmetic K U Id) : Prop where
  lift : ∀ v, Fresh.Repeats g (A.lift v) (B.lift v)
  apply : ∀ op x y, Fresh.Repeats g (A.apply op x y) (B.apply op (g x) (g y))
  isZero : ∀ x, B.isZero (g x) = A.isZero x
  free : ∀ s, B.free s = (A.free s).map g

namespace Repeats

variable [Number K] {g : T → U} {A : Arithmetic K T Fresh} {B : Arithmetic K U Id} (h : A.Repeats g B)
include h

theorem zero : Fresh.Repeats g A.zero B.zero := h.lift Number.zero

omit [Number K] in
theorem add (x y : T) : Fresh.Repeats g (A.add x y) (B.add (g x) (g y)) := h.apply .add x y

omit [Number K] in
theorem mul (x y : T) : Fresh.Repeats g (A.mul x y) (B.mul (g x) (g y)) := h.apply .mul x y

omit [Number K] in
theorem constant {v : K} {next : T → Fresh α} {next' : U → Id β} {f : α → β}
    (hnext : ∀ x, Fresh.Repeats f (next x) (next' (g x))) :
    Fresh.Repeats f (A.lift v >>= next) (B.lift v >>= next') := .bind (h.lift v) hnext

omit [Number K] in
theorem operation {op : Op} {x y : T} {next : T → Fresh α} {next' : U → Id β} {f : α → β}
    (hnext : ∀ z, Fresh.Repeats f (next z) (next' (g z))) :
    Fresh.Repeats f (A.apply op x y >>= next) (B.apply op (g x) (g y) >>= next') := .bind (h.apply op x y) hnext

/-- The rules of derivatives only lift constants and apply operations. -/
theorem partials (op : Op) (a b r : T) : Fresh.Repeats (Option.map (Prod.map g g)) (A.partials op a b r)
    (B.partials op (g a) (g b) (g r)) := by
  cases op <;> simp only [Arithmetic.partials, Arithmetic.lesser, Arithmetic.oneMinusSq, Arithmetic.onePlusSq,
    Arithmetic.one, Arithmetic.zero, Arithmetic.two, Arithmetic.half, Arithmetic.add, Arithmetic.sub, Arithmetic.mul,
    Arithmetic.div, Arithmetic.neg, Arithmetic.unary, bind_assoc, pure_bind]
  all_goals
    repeat' first
      | exact .pure rfl
      | refine h.constant fun _ => ?_
      | refine h.operation fun _ => ?_

end Repeats

/-- Builds expressions whose nodes have no numbers. -/
def bare [Number K] : Arithmetic K (Expr K) Id where
  lift v := .const 0 v
  apply op x y := ((Expr.apply op x y).run 0).1.bare
  isZero := Expr.isZero
  free s := some (.symbol s)

end Arithmetic

namespace Expr

variable [Number K]

omit [Number K] in
@[simp] theorem bare_bare (e : Expr K) : e.bare.bare = e.bare := by
  induction e with
  | symbol | const => rfl
  | unary _ op a ih => exact congrArg (unary 0 op) ih
  | binary _ op a b iha ihb => exact congrArg₂ (binary 0 op) iha ihb

@[simp] theorem isConst_bare (e : Expr K) (k : K) : e.bare.isConst k = e.isConst k := by simp [isConst]

@[simp] theorem isZero_bare (e : Expr K) : e.bare.isZero = e.isZero := isConst_bare e _

@[simp] theorem isOne_bare (e : Expr K) : e.bare.isOne = e.isOne := isConst_bare e _

@[simp] theorem value_bare (ρ : Symbol → K) (e : Expr K) : e.bare.value ρ = e.value ρ := by
  induction e with
  | symbol | const => rfl
  | unary _ op a ih => simp only [bare, value, ih]
  | binary _ op a b iha ihb => simp only [bare, value, iha, ihb]

omit [Number K] in
/-- The symbols of an expression stay. -/
@[simp] theorem reaches_symbol_bare {s : Symbol} {e : Expr K} :
    Reaches (.symbol s) e.bare ↔ Reaches (.symbol s) e := by
  induction e with
  | symbol | const => simp [bare, Reaches]
  | unary _ op a ih => simp [bare, Reaches, ih]
  | binary _ op a b iha ihb => simp [bare, Reaches, iha, ihb]

/-- The actions come to the same apart from the numbers, wherever the numbers start. -/
def Likewise (act act' : Fresh (Expr K)) : Prop := ∀ n n', (act.run n).1.bare = (act'.run n').1.bare

omit [Number K] in
theorem likewise_newBinary (op : Op) (a b : Expr K) : Likewise (newBinary op a b) (newBinary op a.bare b.bare) :=
  fun _ _ => congrArg₂ (binary 0 op) a.bare_bare.symm b.bare_bare.symm

theorem likewise_unary (op : Op) (a : Expr K) : Likewise (applyUnary op a) (applyUnary op a.bare) := by
  have hnew : Likewise (newUnary op a) (newUnary op a.bare) := fun _ _ => congrArg (unary 0 op) a.bare_bare.symm
  unfold applyUnary
  split
  · exact fun _ _ => rfl
  · next x => exact fun _ _ => x.bare_bare.symm
  -- Bare operands match the same rule.
  · next hconst hneg =>
    split
    · next hbare => cases a <;> cases hbare; exact (hconst _ _ rfl).elim
    · next hbare => cases a <;> cases hbare; exact (hneg _ _ rfl rfl).elim
    · exact hnew

theorem likewise_constPow (a b : Expr K) : Likewise (applyConstPow a b) (applyConstPow a.bare b.bare) := by
  simp only [applyConstPow, isOne_bare, isZero_bare, isConst_bare]
  split_ifs
  · exact fun _ _ => a.bare_bare.symm
  · exact fun _ _ => rfl
  · exact likewise_unary .sq a
  · exact likewise_newBinary .constPow a b

theorem likewise_binary (op : Op) (a b : Expr K) : Likewise (applyBinary op a b) (applyBinary op a.bare b.bare) := by
  have hpure (x : Expr K) : Likewise (pure x) (pure x.bare) := fun _ _ => x.bare_bare.symm
  have hzero : Likewise (newConst (Number.zero : K)) (newConst Number.zero) := fun _ _ => rfl
  cases op <;> simp only [applyBinary, isZero_bare, isOne_bare, isConst_bare, constant?_bare] <;> try split_ifs
  all_goals first
    | exact hpure _
    | exact hzero
    | exact likewise_newBinary _ a b
    | exact likewise_unary .neg b
    | exact likewise_constPow a b

theorem likewise_apply (op : Op) (a b : Expr K) : Likewise (apply op a b) (apply op a.bare b.bare) := by
  unfold apply
  split
  · exact likewise_unary op a
  · split
    · exact fun _ _ => rfl
    · next hconst =>
      split
      · next ha hb =>
        cases a <;> cases ha
        cases b <;> cases hb
        exact (hconst _ _ _ _ rfl rfl).elim
      · exact likewise_binary op a b

/-- Rules look at constants and operations only, so they come to the like. -/
theorem repeats_symbolic : (Arithmetic.symbolic : Arithmetic K (Expr K) Fresh).Repeats bare Arithmetic.bare where
  lift _ _ := rfl
  apply op x y n := likewise_apply op x y n 0
  isZero := isZero_bare
  free _ := rfl

end Expr

end Fluxion
