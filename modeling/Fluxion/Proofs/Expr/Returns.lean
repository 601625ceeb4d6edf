import Fluxion.Proofs.Expr.Meaning

/-!
Loops of actions that make expressions, and actions that must not fail.
-/
set_option autoImplicit false

namespace Fluxion.Expr

variable {K : Type} {ok : Op → Prop} {symbols roots : List (Expr K)} {σ σ' ε ε' : Type} {m : Type → Type} [Monad m]
  [LawfulMonad m] {I : List (Expr K) → σ → Prop} {g : σ → σ'} {h : ε → ε'}

/-- A loop whose steps follow those of another loop. -/
theorem yields_foldlM {step : σ → ε → Fresh σ} {step' : σ' → ε' → m σ'} {xs : List ε}
    (hstep : ∀ roots' s x, roots ⊆ roots' → x ∈ xs → I roots' s →
      Yields ok symbols roots' (step s x) fun roots'' t => I roots'' t ∧ step' (g s) (h x) = pure (g t))
    {s : σ} (hs : I roots s) :
    Yields ok symbols roots (xs.foldlM step s) fun roots' t =>
      I roots' t ∧ (xs.map h).foldlM step' (g s) = pure (g t) := by
  -- The other loop is where it would be if it started from here with the items that are left.
  refine Advances.foldlM (S := Stock ok symbols) (J := fun rest roots' t => I roots' t ∧
    (xs.map h).foldlM step' (g s) = (rest.map h).foldlM step' (g t)) ?_ ⟨hs, rfl⟩
  intro roots' t x rest hr hx ht
  refine (hstep roots' t x hr hx ht.1).advances.mono fun roots'' u _ hu => ⟨hu.1, ?_⟩
  rw [ht.2, List.map_cons, List.foldlM_cons, hu.2, pure_bind]

theorem yields_range {step : σ → Nat → Fresh σ} {step' : σ' → Nat → m σ'} {n : Nat}
    (hstep : ∀ roots' s d, roots ⊆ roots' → I roots' s →
      Yields ok symbols roots' (step s d) fun roots'' t => I roots'' t ∧ step' (g s) d = pure (g t))
    {s : σ} (hs : I roots s) :
    Yields ok symbols roots ((List.range n).foldlM step s) fun roots' t =>
      I roots' t ∧ (List.range n).foldlM step' (g s) = pure (g t) := by
  have hloop : Yields ok symbols roots ((List.range n).foldlM step s) fun roots' t =>
      I roots' t ∧ ((List.range n).map fun d => d).foldlM step' (g s) = pure (g t) :=
    yields_foldlM (fun roots' s d hr _ => hstep roots' s d hr) hs
  simpa using hloop

theorem yields_foldrM {step : ε → σ → Fresh σ} {step' : ε' → σ' → m σ'} {xs : List ε}
    (hstep : ∀ roots' s x, roots ⊆ roots' → x ∈ xs → I roots' s →
      Yields ok symbols roots' (step x s) fun roots'' t => I roots'' t ∧ step' (h x) (g s) = pure (g t))
    {s : σ} (hs : I roots s) :
    Yields ok symbols roots (xs.foldrM step s) fun roots' t =>
      I roots' t ∧ (xs.map h).foldrM step' (g s) = pure (g t) := by
  have hloop : Yields ok symbols roots (xs.reverse.foldlM (fun s x => step x s) s) fun roots' t =>
      I roots' t ∧ (xs.reverse.map h).foldlM (fun s x => step' x s) (g s) = pure (g t) :=
    yields_foldlM (fun roots' s x hr hx => hstep roots' s x hr (List.mem_reverse.mp hx)) hs
  rw [List.foldlM_reverse] at hloop
  refine hloop.mono fun roots' t _ ht => ⟨ht.1, ?_⟩
  rw [← ht.2, List.map_reverse, List.foldlM_reverse]

theorem yields_mapM {T U V : Type} {step : T → Fresh U} {P : List (Expr K) → U → Prop} {g : U → V}
    {h : T → V} {xs : Array T} (hmono : ∀ roots roots' x, roots ⊆ roots' → P roots x → P roots' x)
    (hstep : ∀ roots' x, roots ⊆ roots' → x ∈ xs →
      Yields ok symbols roots' (step x) fun roots'' y => P roots'' y ∧ g y = h x) :
    Yields ok symbols roots (xs.mapM step) fun roots' ys =>
      (∀ y ∈ ys, P roots' y) ∧ ys.map g = xs.map h :=
  Advances.mapM (S := Stock ok symbols) hmono hstep

/-- As `Yields`, for an action that must not fail. -/
def Returns (ok : Op → Prop) (symbols : List (Expr K)) {F α : Type} (roots : List (Expr K))
    (act : ExceptT F Fresh α) (P : List (Expr K) → α → Prop) : Prop :=
  Yields ok symbols roots act.run fun roots' r => ∃ a, r = .ok a ∧ P roots' a

namespace Returns

variable {F α β : Type} {P Q : List (Expr K) → α → Prop} {act : ExceptT F Fresh α}

protected theorem pure {a : α} (h : P roots a) :
    Returns ok symbols roots (pure a : ExceptT F Fresh α) P :=
  Yields.pure ⟨a, rfl, h⟩

protected theorem bind {next : α → ExceptT F Fresh β} {Q : List (Expr K) → β → Prop}
    (h : Returns ok symbols roots act P)
    (hnext : ∀ roots' a, roots ⊆ roots' → P roots' a → Returns ok symbols roots' (next a) Q) :
    Returns ok symbols roots (act >>= next) Q := by
  rw [Returns, ExceptT.run_bind]
  refine .bind h fun roots' r hr ⟨a, ha, hp⟩ => ?_
  subst ha
  exact hnext roots' a hr hp

theorem lift {act : Fresh α} (h : Yields ok symbols roots act P) :
    Returns ok symbols roots (liftM act : ExceptT F Fresh α) P := by
  change Yields ok symbols roots (Except.ok <$> act) _
  rw [map_eq_pure_bind]
  exact Yields.bind h fun _ a _ hp => .pure ⟨a, rfl, hp⟩

theorem mono (h : Returns ok symbols roots act P)
    (hpq : ∀ roots' a, roots ⊆ roots' → P roots' a → Q roots' a) : Returns ok symbols roots act Q :=
  Yields.mono h fun roots' _ hr ⟨a, ha, hp⟩ => ⟨a, ha, hpq roots' a hr hp⟩

theorem all {ι : Sort*} [Nonempty ι] {Q : ι → α → Prop}
    (h : ∀ i, Returns ok symbols roots act fun roots' a => P roots' a ∧ Q i a) :
    Returns ok symbols roots act fun roots' a => P roots' a ∧ ∀ i, Q i a := by
  intro n hn
  obtain ⟨i⟩ := ‹Nonempty ι›
  obtain ⟨roots', hsub, hend, a, ha, hp, -⟩ := h i n hn
  refine ⟨roots', hsub, hend, a, ha, hp, fun j => ?_⟩
  obtain ⟨-, -, -, b, hb, -, hq⟩ := h j n hn
  rwa [Except.ok.inj (ha.symm.trans hb)]

theorem exists_run (h : Returns ok symbols roots act P) {n : Nat} (hn : Stock ok symbols n roots) :
    ∃ a n' roots', act.run n = (.ok a, n') ∧ roots ⊆ roots' ∧ Stock ok symbols n' roots' ∧ P roots' a := by
  obtain ⟨roots', hr, hend, a, ha, hp⟩ := h n hn
  exact ⟨a, _, roots', Prod.ext ha rfl, hr, hend, hp⟩

end Returns

/-- What returns at the end returned at every step. -/
theorem exists_of_bind_eq_pure {F α β : Type} {x : ExceptT F Id α} {next : α → ExceptT F Id β} {b : β}
    (h : x >>= next = pure b) : ∃ a, x = pure a ∧ next a = pure b := by
  cases hx : x.run with
  | ok a =>
    obtain rfl : x = pure a := hx
    exact ⟨a, rfl, by rwa [pure_bind] at h⟩
  | error e =>
    obtain rfl : x = throw e := hx
    cases h

/-- As `yields_foldlM`, where the other loop returns. -/
theorem returns_foldlM {F F' : Type} {step : σ → ε → ExceptT F Fresh σ}
    {step' : σ' → ε' → ExceptT F' Id σ'} {xs : List ε}
    (hstep : ∀ roots' s x s', roots ⊆ roots' → x ∈ xs → I roots' s → step' (g s) (h x) = pure s' →
      Returns ok symbols roots' (step s x) fun roots'' t => I roots'' t ∧ g t = s')
    {s : σ} (hs : I roots s) {s' : σ'} (hnum : (xs.map h).foldlM step' (g s) = pure s') :
    Returns ok symbols roots (xs.foldlM step s) fun roots' t => I roots' t ∧ g t = s' := by
  induction xs generalizing roots s with
  | nil => exact .pure ⟨hs, Except.ok.inj hnum⟩
  | cons x xs ih =>
    rw [List.map_cons, List.foldlM_cons] at hnum
    obtain ⟨mid, hmid, hnum⟩ := exists_of_bind_eq_pure hnum
    rw [List.foldlM_cons]
    refine .bind (hstep roots s x mid (List.Subset.refl _) List.mem_cons_self hs hmid)
      fun roots' t hr ht => ?_
    obtain ⟨ht, rfl⟩ := ht
    exact ih (fun roots'' u y u' hr' hy => hstep roots'' u y u' (List.Subset.trans hr hr')
      (List.mem_cons_of_mem _ hy)) ht hnum

end Fluxion.Expr
