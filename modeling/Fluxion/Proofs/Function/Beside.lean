import Fluxion.Proofs.Function.Restore

/-!
Two runs side by side. Machines that are alike where it matters run an action to alike ends: both return, or
both end with the same fault. What is shown of two runs holds of one run beside itself.
-/
set_option autoImplicit false

namespace Fluxion

variable {K α β γ : Type}

/-- The machine in which the instance of the parent runs. -/
def Machine.inside (m : Machine K) (fresh : Frame K) : Machine K :=
  match m.inner with
  | [] => ⟨fresh, [], m.journal⟩
  | f :: rest => ⟨f, rest, m.journal⟩

/-- The machine after the instance of the parent ran to `n`. -/
def Machine.outside (m n : Machine K) : Machine K :=
  {m with inner := n.frame :: n.inner, journal := n.journal}

namespace Run

theorem run_inParent (fresh : Frame K) (act : Run K α) (m : Machine K) :
    (inParent fresh act).run m =
      ((act.run (m.inside fresh)).1, m.outside (act.run (m.inside fresh)).2) := by
  obtain ⟨frame, inner, journal⟩ := m
  cases inner <;> rfl

/-- A relation between two machines. -/
abbrev Link (K : Type) := Machine K → Machine K → Prop

/-- A fault that is no violation, unless `W` allows for one. -/
def Tame (W : Prop) (e : Fault) : Prop := W ∨ ∀ c, e ≠ .violation c

/-- Two runs that return, or end with the same fault. `G` holds in any case. -/
def Ends (W : Prop) (G : Link K) (Q : α → α → Link K) :
    Except Fault α × Machine K → Except Fault α × Machine K → Prop
  | (.ok a, n), (.ok a', n') => G n n' ∧ Q a a' n n'
  | (.error e, n), (.error e', n') => G n n' ∧ e = e' ∧ Tame W e
  | _, _ => False

/-- Two actions on machines related by `P` have the same outcome, and values and machines related by `Q`
where they return. Before and after, whatever happens, `G` holds. -/
def Beside (W : Prop) (G P : Link K) (act act' : Run K α) (Q : α → α → Link K) : Prop :=
  ∀ m m', G m m' → P m m' → Ends W G Q (act.run m) (act'.run m')

/-- One action keeps a property of the machine, and ends with a violation only if `W` allows for it. -/
def Safe (W : Prop) (F : Machine K → Prop) (act : Run K α) : Prop :=
  ∀ m, F m → F (act.run m).2 ∧ ∀ e, (act.run m).1 = .error e → Tame W e

variable {W : Prop} {G P R : Link K} {act act' : Run K α} {Q Q' : α → α → Link K}

namespace Beside

theorem pure {a a' : α} (h : ∀ m m', G m m' → P m m' → Q a a' m m') :
    Beside W G P (Pure.pure a) (Pure.pure a') Q := fun m m' hg hp => ⟨hg, h m m' hg hp⟩

theorem throw {e : Fault} (he : Tame W e) :
    Beside W G P (MonadExcept.throw e : Run K α) (MonadExcept.throw e) Q := fun _ _ hg _ => ⟨hg, rfl, he⟩

/-- What comes after a fault does not matter. -/
theorem throw_bind {e : Fault} {f f' : β → Run K α} (he : Tame W e) :
    Beside W G P (MonadExcept.throw e >>= f) (MonadExcept.throw e >>= f') Q := fun _ _ hg _ => ⟨hg, rfl, he⟩

theorem weaken (h : Beside W G P act act' Q) (hp : ∀ m m', G m m' → R m m' → P m m')
    (hq : ∀ a a' n n', G n n' → Q a a' n n' → Q' a a' n n') : Beside W G R act act' Q' := by
  intro m m' hg hp'
  have hends := h m m' hg (hp m m' hg hp')
  generalize act.run m = r at hends ⊢
  generalize act'.run m' = r' at hends ⊢
  obtain ⟨r, n⟩ := r
  obtain ⟨r', n'⟩ := r'
  cases r with
  | ok a =>
    cases r' with
    | ok a' => exact ⟨hends.1, hq a a' n n' hends.1 hends.2⟩
    | error e' => exact hends
  | error e =>
    cases r' with
    | ok a' => exact hends
    | error e' => exact hends

theorem before (h : Beside W G P act act' Q) (hp : ∀ m m', G m m' → R m m' → P m m') :
    Beside W G R act act' Q := h.weaken hp fun _ _ _ _ _ hq => hq

theorem after (h : Beside W G P act act' Q) (hq : ∀ a a' n n', G n n' → Q a a' n n' → Q' a a' n n') :
    Beside W G P act act' Q' := h.weaken (fun _ _ _ hp => hp) hq

/-- What the machines tell about values may be used. -/
theorem assume {p : Prop} (hp : ∀ m m', G m m' → P m m' → p) (h : p → Beside W G P act act' Q) :
    Beside W G P act act' Q := fun m m' hg hpm => h (hp m m' hg hpm) m m' hg hpm

theorem bind {R : β → β → Link K} {first first' : Run K β} {f f' : β → Run K α}
    (h : Beside W G P first first' R) (hf : ∀ b b', Beside W G (R b b') (f b) (f' b') Q) :
    Beside W G P (first >>= f) (first' >>= f') Q := by
  intro m m' hg hp
  have hends := h m m' hg hp
  cases hr : first.run m with
  | mk r n =>
    cases hr' : first'.run m' with
    | mk r' n' =>
      rw [hr, hr'] at hends
      cases r with
      | ok b =>
        cases r' with
        | ok b' =>
          rw [run_bind_ok hr, run_bind_ok hr']
          exact hf b b' n n' hends.1 hends.2
        | error e' => exact hends.elim
      | error e =>
        cases r' with
        | ok b' => exact hends.elim
        | error e' =>
          rw [run_bind_error hr, run_bind_error hr']
          exact hends

/-- As `bind`, where nothing is known of the value of the first action. -/
theorem next {R : Link K} {first first' : Run K β} {f f' : β → Run K α}
    (h : Beside W G P first first' fun _ _ => R) (hf : ∀ b b', Beside W G R (f b) (f' b') Q) :
    Beside W G P (first >>= f) (first' >>= f') Q := h.bind hf

theorem buffers : Beside W G P Run.buffers Run.buffers fun b b' m m' =>
    b = m.frame.buffers ∧ b' = m'.frame.buffers ∧ P m m' :=
  fun _ _ hg hp => ⟨hg, rfl, rfl, hp⟩

/-- Values that the machines do not decide. -/
theorem lift (r : Except Fault α) (hr : ∀ e, r = .error e → Tame W e) :
    Beside W G P (liftM r) (liftM r) fun a a' m m' => a' = a ∧ r = .ok a ∧ P m m' := by
  intro m m' hg hp
  cases r with
  | ok a => exact ⟨hg, rfl, rfl, hp⟩
  | error e => exact ⟨hg, rfl, hr e rfl⟩

theorem modifyBuffers {f f' : Buffers K → Buffers K} {R : Link K}
    (h : ∀ m m', G m m' → P m m' → G (m.withBuffers (f m.frame.buffers)) (m'.withBuffers (f' m'.frame.buffers)) ∧
      R (m.withBuffers (f m.frame.buffers)) (m'.withBuffers (f' m'.frame.buffers))) :
    Beside W G P (Run.modifyBuffers f) (Run.modifyBuffers f') fun _ _ => R :=
  fun m m' hg hp => h m m' hg hp

theorem modify {f f' : Machine K → Machine K} {R : Link K}
    (h : ∀ m m', G m m' → P m m' → G (f m) (f' m') ∧ R (f m) (f' m')) :
    Beside W G P (MonadState.modifyGet fun m => (PUnit.unit, f m))
      (MonadState.modifyGet fun m => (PUnit.unit, f' m)) fun _ _ => R :=
  fun m m' hg hp => h m m' hg hp

/-- What both actions do to the frames besides, where they return. -/
theorem keeps {I I' : Frame K → Prop} (h : Beside W G P act act' Q) (hk : Keeps I act) (hk' : Keeps I' act')
    (hp : ∀ m m', P m m' → I m.frame ∧ I' m'.frame) :
    Beside W G P act act' fun a a' n n' => Q a a' n n' ∧ I n.frame ∧ I' n'.frame := by
  intro m m' hg hpm
  have hends := h m m' hg hpm
  have hkept := hk m (hp m m' hpm).1
  have hkept' := hk' m' (hp m m' hpm).2
  generalize act.run m = r at hends hkept ⊢
  generalize act'.run m' = r' at hends hkept' ⊢
  obtain ⟨r, n⟩ := r
  obtain ⟨r', n'⟩ := r'
  cases r with
  | ok a =>
    cases r' with
    | ok a' => exact ⟨hends.1, hends.2, hkept, hkept'⟩
    | error e' => exact hends
  | error e =>
    cases r' with
    | ok a' => exact hends
    | error e' => exact hends

theorem ite {c : Prop} [Decidable c] {other other' : Run K α} (h : c → Beside W G P act act' Q)
    (ho : ¬c → Beside W G P other other' Q) :
    Beside W G P (if c then act else other) (if c then act' else other') Q := by
  split
  · next hc => exact h hc
  · next hc => exact ho hc

/-- A loop whose steps keep an invariant, which may speak of the items that are done. -/
theorem foldlM {f g : β → γ → Run K β} (J : List γ → β → β → Link K) (xs : List γ)
    (step : ∀ done x rest, xs = done ++ x :: rest → ∀ b b',
      Beside W G (J done b b') (f b x) (g b' x) (J (done ++ [x]))) (b b' : β) :
    Beside W G (J [] b b') (xs.foldlM f b) (xs.foldlM g b') (J xs) := by
  have general (rest done : List γ) (h : xs = done ++ rest) (b b' : β) :
      Beside W G (J done b b') (rest.foldlM f b) (rest.foldlM g b') (J xs) := by
    induction rest generalizing done b b' with
    | nil =>
      rw [List.append_nil] at h
      subst h
      exact .pure fun _ _ _ hj => hj
    | cons x rest ih =>
      rw [List.foldlM_cons, List.foldlM_cons]
      exact (step done x rest h b b').bind fun c c' => ih (done ++ [x]) (by simp [h]) c c'
  exact general xs [] rfl b b'

theorem forM {f g : γ → Run K PUnit} (J : List γ → Link K) (xs : List γ)
    (step : ∀ done x rest, xs = done ++ x :: rest →
      Beside W G (J done) (f x) (g x) fun _ _ => J (done ++ [x])) :
    Beside W G (J []) (xs.forM f) (xs.forM g) fun _ _ => J xs := by
  have general (rest done : List γ) (h : xs = done ++ rest) :
      Beside W G (J done) (rest.forM f) (rest.forM g) fun _ _ => J xs := by
    induction rest generalizing done with
    | nil =>
      rw [List.append_nil] at h
      subst h
      exact .pure fun _ _ _ hj => hj
    | cons x rest ih => exact (step done x rest h).bind fun _ _ => ih (done ++ [x]) (by simp [h])
  exact general xs [] rfl

theorem range_split {n k : Nat} {done rest : List Nat} (h : List.range n = done ++ k :: rest) :
    k < n ∧ done = List.range k := by
  have hlen := congrArg List.length h
  simp only [List.length_range, List.length_append, List.length_cons] at hlen
  have hk := congrArg (fun l : List Nat => l[done.length]?) h
  simp only [List.getElem?_append_right (Nat.le_refl _), Nat.sub_self, List.getElem?_cons_zero] at hk
  obtain ⟨hlt, hk⟩ := List.getElem?_eq_some_iff.mp hk
  rw [List.getElem_range] at hk
  subst hk
  refine ⟨by simpa using hlt, List.ext_getElem? fun i => ?_⟩
  by_cases hi : i < done.length
  · have hget := congrArg (fun l : List Nat => l[i]?) h
    simp only [List.getElem?_append_left hi] at hget
    rw [← hget]
    simp only [List.length_range] at hlt
    simp [hi, Nat.lt_trans hi hlt]
  · simp [hi]

/-- As `foldlM`, over the numbers below `n`. -/
theorem foldlM_range {f g : β → Nat → Run K β} (J : Nat → β → β → Link K) (n : Nat)
    (step : ∀ k, k < n → ∀ b b', Beside W G (J k b b') (f b k) (g b' k) (J (k+1))) (b b' : β) :
    Beside W G (J 0 b b') ((List.range n).foldlM f b) ((List.range n).foldlM g b') (J n) := by
  have hloop := foldlM (W := W) (G := G) (fun done => J done.length) (List.range n)
    (fun done k rest h c c' => by
      obtain ⟨hk, rfl⟩ := range_split h
      simpa using step k hk c c') b b'
  simpa using hloop

end Beside

/-- Outcomes that were observed: related values, or the same fault. -/
def Observed (E : Fault → Prop) (Q : α → α → Link K) : Except Fault α → Except Fault α → Link K
  | .ok a, .ok a', n, n' => Q a a' n n'
  | .error e, .error e', _, _ => e' = e ∧ E e
  | _, _, _, _ => False

namespace Beside

theorem observe (h : Beside W G P act act' Q) :
    Beside W G P (Run.observe act) (Run.observe act') (Observed (Tame W) Q) := by
  intro m m' hg hp
  have hends := h m m' hg hp
  have hrun (act : Run K α) (m : Machine K) :
      (Run.observe act).run m = (.ok (act.run m).1, (act.run m).2) := rfl
  rw [hrun, hrun]
  generalize act.run m = r at hends ⊢
  generalize act'.run m' = r' at hends ⊢
  obtain ⟨r, n⟩ := r
  obtain ⟨r', n'⟩ := r'
  cases r with
  | ok a =>
    cases r' with
    | ok a' => exact hends
    | error e' => exact hends.elim
  | error e =>
    cases r' with
    | ok a' => exact hends.elim
    | error e' => exact ⟨hends.1, hends.2.1.symm, hends.2.2⟩

/-- What comes after an outcome that was observed. -/
theorem observed {E : Fault → Prop} {f f' : Except Fault α → Run K β} {S : β → β → Link K}
    (hok : ∀ a a', Beside W G (Q a a') (f (.ok a)) (f' (.ok a')) S)
    (herror : ∀ e, E e → Beside W G (fun _ _ => True) (f (.error e)) (f' (.error e)) S)
    (r r' : Except Fault α) : Beside W G (Observed E Q r r') (f r) (f' r') S := by
  intro m m' hg hr
  cases r with
  | ok a =>
    cases r' with
    | ok a' => exact hok a a' m m' hg hr
    | error e' => exact hr.elim
  | error e =>
    cases r' with
    | ok a' => exact hr.elim
    | error e' =>
      obtain ⟨rfl, he⟩ := hr
      exact herror _ he m m' hg trivial

theorem outcome (h : Beside W G P act act' Q) :
    Beside W G P (Run.outcome act) (Run.outcome act') (Observed (fun e => ∀ c, e ≠ .violation c) Q) := by
  refine h.observe.bind (observed (fun a a' => .pure fun _ _ _ hq => hq) fun e he => ?_)
  split
  · next c hc =>
    cases hc
    exact .throw he
  · next hne => exact .pure fun _ _ _ _ => ⟨rfl, fun c hc => hne c (by rw [hc])⟩

/-- A run in the instance of the parent. -/
theorem inParent {fresh : Frame K} {inner innerP : Link K} {innerQ : α → α → Link K}
    (h : Beside W inner innerP act act' innerQ)
    (hin : ∀ m m', G m m' → P m m' → inner (m.inside fresh) (m'.inside fresh) ∧
      innerP (m.inside fresh) (m'.inside fresh))
    (hout : ∀ m m' n n', G m m' → P m m' → inner n n' → G (m.outside n) (m'.outside n'))
    (hq : ∀ m m' n n' a a', P m m' → inner n n' → innerQ a a' n n' → Q a a' (m.outside n) (m'.outside n')) :
    Beside W G P (Run.inParent fresh act) (Run.inParent fresh act') Q := by
  intro m m' hg hp
  obtain ⟨hi, hip⟩ := hin m m' hg hp
  have hends := h _ _ hi hip
  rw [run_inParent, run_inParent]
  generalize act.run (m.inside fresh) = r at hends ⊢
  generalize act'.run (m'.inside fresh) = r' at hends ⊢
  obtain ⟨r, n⟩ := r
  obtain ⟨r', n'⟩ := r'
  cases r with
  | ok a =>
    cases r' with
    | ok a' => exact ⟨hout m m' n n' hg hp hends.1, hq m m' n n' a a' hp hends.1 hends.2⟩
    | error e' => exact hends.elim
  | error e =>
    cases r' with
    | ok a' => exact hends.elim
    | error e' => exact ⟨hout m m' n n' hg hp hends.1, hends.2⟩

/-- One run beside itself. -/
theorem safe {F : Machine K → Prop} (h : Beside W G P act act Q) (hin : ∀ m, F m → G m m ∧ P m m)
    (hout : ∀ m, G m m → F m) : Safe W F act := by
  intro m hm
  have hends := h m m (hin m hm).1 (hin m hm).2
  generalize act.run m = r at hends ⊢
  obtain ⟨r, n⟩ := r
  cases r with
  | ok a => exact ⟨hout n hends.1, fun e he => by cases he⟩
  | error e =>
    refine ⟨hout n hends.1, fun e' he => ?_⟩
    cases he
    exact hends.2.2

/-- Two runs have the same outcome, if equal values are what they come to. -/
theorem outcome_eq (h : Beside W G P act act' fun a a' _ _ => a' = a) {m m' : Machine K} (hg : G m m')
    (hp : P m m') : (act'.run m').1 = (act.run m).1 := by
  have hends := h m m' hg hp
  generalize act.run m = r at hends ⊢
  generalize act'.run m' = r' at hends ⊢
  obtain ⟨r, n⟩ := r
  obtain ⟨r', n'⟩ := r'
  cases r with
  | ok a =>
    cases r' with
    | ok a' => exact congrArg Except.ok hends.2
    | error e' => exact hends.elim
  | error e =>
    cases r' with
    | ok a' => exact hends.elim
    | error e' => exact congrArg Except.error hends.2.1.symm

end Beside

namespace Safe

variable {F : Machine K → Prop}

theorem pure (a : α) : Safe W F (Pure.pure a) := fun _ hm => ⟨hm, fun e he => by cases he⟩

theorem throw {e : Fault} (he : Tame W e) : Safe W F (MonadExcept.throw e : Run K α) :=
  fun _ hm => ⟨hm, fun e' he' => by cases he'; exact he⟩

theorem bind {f : α → Run K β} (h : Safe W F act) (hf : ∀ a, Safe W F (f a)) : Safe W F (act >>= f) := by
  intro m hm
  have hact := h m hm
  cases hr : act.run m with
  | mk r n =>
    rw [hr] at hact
    cases r with
    | ok a =>
      rw [run_bind_ok hr]
      exact hf a n hact.1
    | error e =>
      rw [run_bind_error hr]
      exact ⟨hact.1, fun e' he => hact.2 e' (by cases he; rfl)⟩

theorem lift_bind {r : Except Fault α} {f : α → Run K β} (hr : ∀ e, r = .error e → Tame W e)
    (hf : ∀ a, r = .ok a → Safe W F (f a)) : Safe W F ((liftM r : Run K α) >>= f) := by
  intro m hm
  cases r with
  | ok a =>
    rw [run_bind_ok (run_liftExcept (.ok a))]
    exact hf a rfl m hm
  | error e =>
    rw [run_bind_error (run_liftExcept (.error e))]
    exact ⟨hm, fun e' he => by cases he; exact hr e rfl⟩

theorem outcome (h : Safe W F act) : Safe W F (Run.outcome act) := by
  intro m hm
  have hact := h m hm
  by_cases hv : ∃ c, (act.run m).1 = .error (.violation c)
  · obtain ⟨c, hc⟩ := hv
    rw [run_outcome_violation hc]
    exact ⟨hact.1, fun e he => by cases he; exact hact.2 _ hc⟩
  · rw [run_outcome_of fun c hc => hv ⟨c, hc⟩]
    exact ⟨hact.1, fun e he => by cases he⟩

end Safe

end Run

end Fluxion
