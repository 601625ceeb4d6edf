import Fluxion.Expr.Basic

/-!
Actions that only enlarge a stock of expressions. What a stock is, a property of the roots and of the next
number says: the loops of such actions are the same for each.
-/
set_option autoImplicit false

namespace Fluxion.Expr

variable {K α β γ σ ε : Type}

/-- From roots that are a stock the action comes to more of them, and to a result of which `P` holds. -/
def Advances (S : Nat → List (Expr K) → Prop) (roots : List (Expr K)) (act : Fresh α)
    (P : List (Expr K) → α → Prop) : Prop :=
  ∀ n, S n roots → ∃ roots', roots ⊆ roots' ∧ S (act.run n).2 roots' ∧ P roots' (act.run n).1

namespace Advances

variable {S : Nat → List (Expr K) → Prop} {roots : List (Expr K)} {act : Fresh α} {P Q : List (Expr K) → α → Prop}

protected theorem pure {a : α} (h : P roots a) : Advances S roots (pure a) P :=
  fun _ hn => ⟨roots, List.Subset.refl _, hn, h⟩

protected theorem bind {next : α → Fresh β} {Q : List (Expr K) → β → Prop} (h : Advances S roots act P)
    (hnext : ∀ roots' a, roots ⊆ roots' → P roots' a → Advances S roots' (next a) Q) :
    Advances S roots (act >>= next) Q := by
  intro n hn
  obtain ⟨roots', hsub, hmid, hp⟩ := h n hn
  obtain ⟨roots'', hsub', hend, hq⟩ := hnext roots' _ hsub hp _ hmid
  exact ⟨roots'', List.Subset.trans hsub hsub', hend, hq⟩

theorem mono (h : Advances S roots act P) (hpq : ∀ roots' a, roots ⊆ roots' → P roots' a → Q roots' a) :
    Advances S roots act Q := by
  intro n hn
  obtain ⟨roots', hsub, hend, hp⟩ := h n hn
  exact ⟨roots', hsub, hend, hpq roots' _ hsub hp⟩

/-- The invariant may speak of the items that are still to come. -/
theorem foldlM {J : List ε → List (Expr K) → σ → Prop} {step : σ → ε → Fresh σ} {xs : List ε}
    (hstep : ∀ roots' s x rest, roots ⊆ roots' → x ∈ xs → J (x :: rest) roots' s →
      Advances S roots' (step s x) (J rest)) {s : σ} (hs : J xs roots s) :
    Advances S roots (xs.foldlM step s) (J []) := by
  induction xs generalizing roots s with
  | nil => exact .pure hs
  | cons x xs ih =>
    rw [List.foldlM_cons]
    exact .bind (hstep roots s x xs (List.Subset.refl _) List.mem_cons_self hs) fun roots' t hr ht =>
      ih (fun roots'' u y rest hr' hy => hstep roots'' u y rest (List.Subset.trans hr hr')
        (List.mem_cons_of_mem _ hy)) ht

/-- What `P` says of a result must still hold when more has been made. -/
theorem mapM_list {P : List (Expr K) → β → Prop} {step : α → Fresh β} {g : β → γ} {h : α → γ} {xs : List α}
    (hmono : ∀ roots roots' y, roots ⊆ roots' → P roots y → P roots' y)
    (hstep : ∀ roots' x, roots ⊆ roots' → x ∈ xs →
      Advances S roots' (step x) fun roots'' y => P roots'' y ∧ g y = h x) :
    Advances S roots (xs.mapM step) fun roots' ys => (∀ y ∈ ys, P roots' y) ∧ ys.map g = xs.map h := by
  induction xs generalizing roots with
  | nil => exact .pure ⟨by simp, rfl⟩
  | cons x xs ih =>
    rw [List.mapM_cons]
    refine .bind (hstep roots x (List.Subset.refl _) List.mem_cons_self) fun roots' y hr hy => ?_
    refine .bind (ih fun roots'' z hr' hz => hstep roots'' z (List.Subset.trans hr hr')
      (List.mem_cons_of_mem _ hz)) fun roots'' ys hr' hys => .pure ⟨?_, ?_⟩
    · exact List.forall_mem_cons.mpr ⟨hmono _ _ _ hr' hy.1, hys.1⟩
    · rw [List.map_cons, List.map_cons, hy.2, hys.2]

theorem mapM {P : List (Expr K) → β → Prop} {step : α → Fresh β} {g : β → γ} {h : α → γ} {xs : Array α}
    (hmono : ∀ roots roots' y, roots ⊆ roots' → P roots y → P roots' y)
    (hstep : ∀ roots' x, roots ⊆ roots' → x ∈ xs →
      Advances S roots' (step x) fun roots'' y => P roots'' y ∧ g y = h x) :
    Advances S roots (xs.mapM step) fun roots' ys => (∀ y ∈ ys, P roots' y) ∧ ys.map g = xs.map h := by
  rw [Array.mapM_eq_mapM_toList, ← bind_pure_comp]
  refine .bind (mapM_list hmono fun roots' x hr hx => hstep roots' x hr (by simpa using hx))
    fun roots' ys _ hys => .pure ⟨by simpa using hys.1, ?_⟩
  rw [← Array.toList_inj]
  simpa using hys.2

end Advances

end Fluxion.Expr
