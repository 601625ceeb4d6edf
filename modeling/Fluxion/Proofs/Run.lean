/-!
Computations that keep a state and may end with a fault. A run is followed step by step: a step that
returns hands its value and its state to the next one.
-/
set_option autoImplicit false

namespace Fluxion

section Steps

variable {ε σ α β : Type} {x : ExceptT ε (StateM σ) α} {f : α → ExceptT ε (StateM σ) β} {s t : σ}

theorem run_bind_ok {a : α} (h : x.run s = (.ok a, t)) : (x >>= f).run s = (f a).run t := by
  change (ExceptT.bind x f) s = f a t
  unfold ExceptT.bind ExceptT.mk
  change ExceptT.bindCont f (x s).1 (x s).2 = f a t
  change x s = (.ok a, t) at h
  rw [h]
  rfl

theorem run_bind_error {e : ε} (h : x.run s = (.error e, t)) : (x >>= f).run s = (.error e, t) := by
  change (ExceptT.bind x f) s = (.error e, t)
  unfold ExceptT.bind ExceptT.mk
  change ExceptT.bindCont f (x s).1 (x s).2 = (.error e, t)
  change x s = (.error e, t) at h
  rw [h]
  rfl

/-- A computation that returns has returned at its first step. -/
theorem exists_of_run_bind {b : β} (h : (x >>= f).run s = (.ok b, t)) :
    ∃ a u, x.run s = (.ok a, u) ∧ (f a).run u = (.ok b, t) := by
  cases hx : x.run s with
  | mk r u =>
    cases r with
    | ok a => exact ⟨a, u, rfl, (run_bind_ok hx).symm.trans h⟩
    | error e => cases (run_bind_error hx).symm.trans h

@[simp] theorem run_pure (a : α) : (pure a : ExceptT ε (StateM σ) α).run s = (.ok a, s) := rfl

theorem run_liftState (m : StateM σ α) :
    (liftM m : ExceptT ε (StateM σ) α).run s = (.ok (m s).1, (m s).2) := rfl

theorem run_liftExcept (r : Except ε α) : (liftM r : ExceptT ε (StateM σ) α).run s = (r, s) := rfl

/-- A loop whose steps return, and keep an invariant, returns with the invariant. -/
theorem run_foldlM {γ : Type} {f : β → γ → ExceptT ε (StateM σ) β} (I : List γ → β → Prop)
    (step : ∀ done x b s, I done b → ∃ b' t, (f b x).run s = (.ok b', t) ∧ I (done ++ [x]) b')
    (xs done : List γ) (b : β) (s : σ) (h : I done b) :
    ∃ b' t, (xs.foldlM f b).run s = (.ok b', t) ∧ I (done ++ xs) b' := by
  induction xs generalizing done b s with
  | nil => exact ⟨b, s, rfl, by rwa [List.append_nil]⟩
  | cons x xs ih =>
    obtain ⟨b', t, he, hb⟩ := step done x b s h
    obtain ⟨b'', t', he', hb'⟩ := ih (done ++ [x]) b' t hb
    refine ⟨b'', t', ?_, by simpa using hb'⟩
    rw [List.foldlM_cons, run_bind_ok he]
    exact he'

/-- As `run_foldlM`, over the numbers below `n`, where the invariant may say something about the state. -/
theorem run_foldlM_range {f : β → Nat → ExceptT ε (StateM σ) β} (I : Nat → β → σ → Prop) {n : Nat}
    (step : ∀ k b s, k < n → I k b s → ∃ b' t, (f b k).run s = (.ok b', t) ∧ I (k+1) b' t)
    {b : β} (h : I 0 b s) : ∃ b' t, ((List.range n).foldlM f b).run s = (.ok b', t) ∧ I n b' t := by
  induction n with
  | zero => exact ⟨b, s, rfl, h⟩
  | succ n ih =>
    obtain ⟨b', t, he, hb⟩ := ih fun k b s hk => step k b s (by omega)
    obtain ⟨b'', t', he', hb'⟩ := step n b' t (by omega) hb
    refine ⟨b'', t', ?_, hb'⟩
    rw [List.range_succ, List.foldlM_append, run_bind_ok he]
    simpa using he'

/-- Where a loop over the numbers below `n` returns, an invariant holds that its steps keep where they return. -/
theorem holds_of_run_foldlM_range {f : β → Nat → ExceptT ε (StateM σ) β} (I : Nat → β → σ → Prop) {n : Nat}
    (step : ∀ k b b' s t, k < n → I k b s → (f b k).run s = (.ok b', t) → I (k+1) b' t) {b r : β} (h : I 0 b s)
    (hrun : ((List.range n).foldlM f b).run s = (.ok r, t)) : I n r t := by
  induction n generalizing r t with
  | zero =>
    cases hrun
    exact h
  | succ n ih =>
    rw [List.range_succ, List.foldlM_append] at hrun
    obtain ⟨mid, u, hmid, hlast⟩ := exists_of_run_bind hrun
    rw [List.foldlM_cons] at hlast
    obtain ⟨r', u', hstep, hend⟩ := exists_of_run_bind hlast
    cases hend
    exact step n mid r u t (Nat.lt_succ_self n) (ih (fun k b b' s t hk => step k b b' s t (by omega)) hmid) hstep

/-- What the steps of a loop without a state keep. -/
theorem foldlM_id {P : β → Prop} {f : β → α → Id β} (hf : ∀ b x, P b → P (f b x)) (xs : List α) {b : β}
    (h : P b) : P (xs.foldlM f b) := by
  induction xs generalizing b with
  | nil => exact h
  | cons x xs ih => exact ih (hf b x h)

end Steps

theorem ok_bind {ε α β : Type} (a : α) (f : α → Except ε β) : (Except.ok a >>= f) = f a := rfl

/-- What returns at the end returned at every step. -/
theorem exists_of_bind_eq_ok {ε α β : Type} {x : Except ε α} {f : α → Except ε β} {b : β} (h : x >>= f = .ok b) :
    ∃ a, x = .ok a ∧ f a = .ok b := by
  cases x with
  | ok a => exact ⟨a, rfl, h⟩
  | error e => cases h

theorem ok_of_guard {ε α β : Type} {c : Prop} [Decidable c] {e : ε} {f : β → Except ε α}
    {x : Except ε α} {a : α} (h : (if c then throw e >>= f else x) = .ok a) : ¬c ∧ x = .ok a := by
  by_cases hc : c
  · rw [if_pos hc] at h
    cases h
  · rw [if_neg hc] at h
    exact ⟨hc, h⟩

end Fluxion
