import Fluxion.Arithmetic
import Fluxion.Proofs.Expr.Meaning

/-!
Actions that add nodes, over any numbers. The nodes that were there stay, the new ones take the next numbers,
and the results refer to nodes that are there then.
-/
set_option autoImplicit false

namespace Fluxion.Expr

variable {K σ ε α β : Type} {roots roots' : List (Expr K)}

/-- From numbered roots the action comes to more of them, and to a result of which `P` holds. -/
def Grows (roots : List (Expr K)) (act : Fresh α) (P : List (Expr K) → α → Prop) : Prop :=
  ∀ n, Numbered n roots → ∃ roots', roots ⊆ roots' ∧ Numbered (act.run n).2 roots' ∧ P roots' (act.run n).1

namespace Grows

variable {act : Fresh α} {P Q : List (Expr K) → α → Prop}

protected theorem pure {a : α} (h : P roots a) : Grows roots (pure a) P :=
  Advances.pure (S := Numbered) h

protected theorem bind {next : α → Fresh β} {Q : List (Expr K) → β → Prop} (h : Grows roots act P)
    (hnext : ∀ roots' a, roots ⊆ roots' → P roots' a → Grows roots' (next a) Q) :
    Grows roots (act >>= next) Q :=
  Advances.bind (S := Numbered) h hnext

theorem mono (h : Grows roots act P) (hpq : ∀ roots' a, roots ⊆ roots' → P roots' a → Q roots' a) :
    Grows roots act Q :=
  Advances.mono (S := Numbered) h hpq

/-- A node that is made is a root of what follows. -/
theorem node {x : Fresh (Expr K)} {next : Expr K → Fresh β} {Q : List (Expr K) → β → Prop} (h : Makes roots x)
    (hnext : ∀ a, Grows (a :: roots) (next a) Q) : Grows roots (x >>= next) Q := by
  intro n hn
  obtain ⟨roots', hsub, hend, hq⟩ := hnext _ _ (h n hn)
  exact ⟨roots', List.Subset.trans (List.subset_cons_self _ _) hsub, hend, hq⟩

theorem of_makes {x : Fresh (Expr K)} (h : Makes roots x) : Grows roots x ReachedFrom :=
  fun n hn => ⟨_, List.subset_cons_self _ _, h n hn, .root List.mem_cons_self⟩

/-- Nodes that are there already may be named first. -/
theorem name {a : Expr K} (ha : ReachedFrom roots a) (h : Grows (a :: roots) act P) : Grows roots act P := by
  intro n hn
  obtain ⟨roots', hsub, hend, hp⟩ := h n (hn.again ha)
  exact ⟨roots', List.Subset.trans (List.subset_cons_self _ _) hsub, hend, hp⟩

/-! ### Loops -/

variable {I : List (Expr K) → σ → Prop}

theorem foldlM {step : σ → ε → Fresh σ} {xs : List ε}
    (hstep : ∀ roots' s x, roots ⊆ roots' → x ∈ xs → I roots' s → Grows roots' (step s x) I) {s : σ}
    (hs : I roots s) : Grows roots (xs.foldlM step s) I :=
  Advances.foldlM (S := Numbered) (J := fun _ => I) (fun roots' s x _ => hstep roots' s x) hs

theorem foldrM {step : ε → σ → Fresh σ} {xs : List ε}
    (hstep : ∀ roots' s x, roots ⊆ roots' → x ∈ xs → I roots' s → Grows roots' (step x s) I) {s : σ}
    (hs : I roots s) : Grows roots (xs.foldrM step s) I := by
  have hloop : Grows roots (xs.reverse.foldlM (fun s x => step x s) s) I :=
    foldlM (fun roots' s x hr hx => hstep roots' s x hr (List.mem_reverse.mp hx)) hs
  rwa [List.foldlM_reverse] at hloop

theorem mapM {γ : Type} {P : List (Expr K) → β → Prop} {step : α → Fresh β} {g : β → γ} {h : α → γ} {xs : Array α}
    (hmono : ∀ roots roots' y, roots ⊆ roots' → P roots y → P roots' y)
    (hstep : ∀ roots' x, roots ⊆ roots' → x ∈ xs → Grows roots' (step x) fun roots'' y => P roots'' y ∧ g y = h x) :
    Grows roots (xs.mapM step) fun roots' ys => (∀ y ∈ ys, P roots' y) ∧ ys.map g = xs.map h :=
  Advances.mapM (S := Numbered) hmono hstep

end Grows

/-- As `Grows`, for an action that may fail. -/
def Attempts {F : Type} (roots : List (Expr K)) (act : ExceptT F Fresh α) (P : List (Expr K) → α → Prop) : Prop :=
  Grows roots act.run fun roots' r => ∀ a, r = .ok a → P roots' a

namespace Attempts

variable {F : Type} {act : ExceptT F Fresh α} {P Q : List (Expr K) → α → Prop}

protected theorem pure {a : α} (h : P roots a) : Attempts roots (pure a : ExceptT F Fresh α) P :=
  Grows.pure fun _ hb => Except.ok.inj hb ▸ h

protected theorem throw {e : F} : Attempts roots (throw e : ExceptT F Fresh α) P :=
  Grows.pure fun _ hb => by cases hb

protected theorem bind {next : α → ExceptT F Fresh β} {Q : List (Expr K) → β → Prop} (h : Attempts roots act P)
    (hnext : ∀ roots' a, roots ⊆ roots' → P roots' a → Attempts roots' (next a) Q) :
    Attempts roots (act >>= next) Q := by
  rw [Attempts, ExceptT.run_bind]
  refine Grows.bind h fun roots' r hr hp => ?_
  cases r with
  | ok a => exact hnext roots' a hr (hp a rfl)
  | error e => exact Grows.pure fun _ hb => by cases hb

theorem mono (h : Attempts roots act P) (hpq : ∀ roots' a, roots ⊆ roots' → P roots' a → Q roots' a) :
    Attempts roots act Q :=
  Grows.mono h fun roots' _ hr hp a ha => hpq roots' a hr (hp a ha)

theorem lift {act : Fresh α} (h : Grows roots act P) : Attempts roots (liftM act : ExceptT F Fresh α) P := by
  change Grows roots (Except.ok <$> act) _
  rw [map_eq_pure_bind]
  exact .bind h fun _ a _ hp => .pure fun _ hb => Except.ok.inj hb ▸ hp

/-- What only looks. -/
theorem look {e : Except F α} (h : ∀ a, e = .ok a → P roots a) : Attempts roots (liftM e : ExceptT F Fresh α) P :=
  Grows.pure h

/-- Where each step that does not fail shows something of its item, a loop shows it of all. -/
theorem foldlM {I : List (Expr K) → σ → Prop} {J : ε → Prop} {step : σ → ε → ExceptT F Fresh σ} {xs : List ε}
    (hstep : ∀ roots' s x, roots ⊆ roots' → x ∈ xs → I roots' s →
      Attempts roots' (step s x) fun roots'' t => I roots'' t ∧ J x) {s : σ} (hs : I roots s) :
    Attempts roots (xs.foldlM step s) fun roots' t => I roots' t ∧ ∀ x ∈ xs, J x := by
  induction xs generalizing roots s with
  | nil => exact .pure ⟨hs, by simp⟩
  | cons x xs ih =>
    rw [List.foldlM_cons]
    refine .bind (hstep roots s x (List.Subset.refl _) List.mem_cons_self hs) fun roots' t hr ht => ?_
    exact (ih (fun roots'' u y hr' hy => hstep roots'' u y (List.Subset.trans hr hr') (List.mem_cons_of_mem _ hy))
      ht.1).mono fun _ _ _ h => ⟨h.1, List.forall_mem_cons.mpr ⟨ht.2, h.2⟩⟩

/-- The roots at the start are numbered. -/
theorem assume (h : ∀ n, Numbered n roots → Attempts roots act P) : Attempts roots act P :=
  fun n hn => h n hn n hn

/-- What a run that does not fail comes to. -/
theorem exists_roots (h : Attempts roots act P) {n n' : Nat} {a : α} (hn : Numbered n roots)
    (hrun : act.run n = (.ok a, n')) : ∃ roots', roots ⊆ roots' ∧ Numbered n' roots' ∧ P roots' a := by
  obtain ⟨roots', hsub, hend, hp⟩ := h n hn
  have hpair : StateT.run (m := Id) act.run n = (.ok a, n') := hrun
  rw [hpair] at hend hp
  exact ⟨roots', hsub, hend, hp a rfl⟩

end Attempts

/-! ### Derivatives -/

section Partials

theorem grows_const (v : K) : Grows roots (newConst v) ReachedFrom := .of_makes (makes_newConst roots v)

variable [Number K]

theorem grows_apply (op : Op) (hs : op.isStructural = false) {a b : Expr K} (ha : ReachedFrom roots a)
    (hb : ReachedFrom roots b) : Grows roots (apply op a b) ReachedFrom :=
  .of_makes (makes_apply hs ha hb)

/-- Both derivatives of an operation are there, if it has any. -/
def BothReached (roots : List (Expr K)) (p? : Option (Expr K × Expr K)) : Prop :=
  ∀ p ∈ p?, ReachedFrom roots p.1 ∧ ReachedFrom roots p.2

section Rules

variable {next : Expr K → Fresh α} {P : List (Expr K) → α → Prop} {a b r x y : Expr K}

theorem Grows.constant {v : K} (h : ∀ c, Grows (c :: roots) (next c) P) :
    Grows roots ((Arithmetic.symbolic : Arithmetic K (Expr K) Fresh).lift v >>= next) P :=
  .node (makes_newConst roots v) h

theorem Grows.operation {op : Op} (hs : op.isStructural = false) (hx : x ∈ roots) (hy : y ∈ roots)
    (h : ∀ c, Grows (c :: roots) (next c) P) :
    Grows roots ((Arithmetic.symbolic : Arithmetic K (Expr K) Fresh).apply op x y >>= next) P :=
  .node (makes_apply hs (.root hx) (.root hy)) h

omit [Number K] in
theorem grows_some (hx : x ∈ roots) (hy : y ∈ roots) : Grows roots (pure (some (x,y))) BothReached :=
  .pure fun _ hp => Option.some.inj hp ▸ ⟨.root hx, .root hy⟩

/-- The rules of binary operations only lift constants and apply operations to what is there by then. -/
theorem grows_partials_binary {op : Op} (hop : op.arity = 2) (ha : a ∈ roots) (hb : b ∈ roots) (hr : r ∈ roots) :
    Grows roots ((Arithmetic.symbolic : Arithmetic K (Expr K) Fresh).partials op a b r) BothReached := by
  cases op <;> first
    | exact absurd hop (by decide)
    | simp only [Arithmetic.partials, Arithmetic.lesser, Arithmetic.one, Arithmetic.zero, Arithmetic.half,
        Arithmetic.add, Arithmetic.sub, Arithmetic.mul, Arithmetic.div, Arithmetic.neg, Arithmetic.unary, bind_assoc,
        pure_bind]
  all_goals
    repeat' first
      | exact grows_some (by simp [*]) (by simp [*])
      | exact .pure fun _ hp => by cases hp
      | refine .constant fun _ => ?_
      | refine .operation rfl (by simp [*]) (by simp [*]) fun _ => ?_

/-- So do those of the operations with one operand or none. -/
theorem grows_partials_unary {op : Op} (hop : op.arity ≠ 2) (ha : a ∈ roots) (hr : r ∈ roots) :
    Grows roots ((Arithmetic.symbolic : Arithmetic K (Expr K) Fresh).partials op a b r) BothReached := by
  cases op <;> first
    | exact absurd rfl hop
    | simp only [Arithmetic.partials, Arithmetic.oneMinusSq, Arithmetic.onePlusSq, Arithmetic.one, Arithmetic.zero,
        Arithmetic.two, Arithmetic.half, Arithmetic.add, Arithmetic.sub, Arithmetic.mul, Arithmetic.div, Arithmetic.neg,
        Arithmetic.unary, bind_assoc]
  all_goals
    repeat' first
      | exact grows_some (by simp [*]) (by simp [*])
      | exact .pure fun _ hp => by cases hp
      | refine .constant fun _ => ?_
      | refine .operation rfl (by simp [*]) (by simp [*]) fun _ => ?_

end Rules

/-- The derivatives of an operation refer to what is there by then. -/
theorem grows_partials (op : Op) {a b r : Expr K} (ha : ReachedFrom roots a) (hb : ReachedFrom roots b)
    (hr : ReachedFrom roots r) : Grows roots ((Arithmetic.symbolic : Arithmetic K (Expr K) Fresh).partials op a b r)
      BothReached := by
  refine .name ha (.name (hb.cons a) (.name ((hr.cons a).cons b) ?_))
  by_cases hop : op.arity = 2
  · exact grows_partials_binary hop (by simp) (by simp) (by simp)
  · exact grows_partials_unary hop (by simp) (by simp)

end Partials

end Fluxion.Expr
