import Fluxion.Proofs.Function.Beside

/-!
What the success of a run hinges on. From a given machine an action returns exactly if a condition holds, and
then something is known of the value and of the machine; which fault it ends with otherwise is left open.
-/
set_option autoImplicit false

namespace Fluxion.Run

variable {K α β : Type}

/-- Whether the action returns from this machine hinges on `P`; where it returns, `Q` holds. It is opened by its lemmas
only, since whoever unfolds it runs the action. -/
@[irreducible] def Hinges (P : Prop) (m : Machine K) (act : Run K α) (Q : α → Machine K → Prop) : Prop :=
  match act.run m with
  | (.ok a, n) => P ∧ Q a n
  | (.error _, _) => ¬P

variable {P P' : Prop} {m n : Machine K} {act : Run K α} {a : α} {Q R : α → Machine K → Prop}

namespace Hinges

theorem of_ok (h : Hinges P m act Q) (hrun : act.run m = (.ok a, n)) : P ∧ Q a n := by
  rw [Hinges, hrun] at h
  exact h

theorem exists_ok (h : Hinges P m act Q) (hp : P) : ∃ a n, act.run m = (.ok a, n) ∧ Q a n := by
  rw [Hinges] at h
  cases hrun : act.run m with
  | mk r n =>
    rw [hrun] at h
    cases r with
    | ok a => exact ⟨a, n, rfl, h.2⟩
    | error e => exact absurd hp h

theorem exists_error (h : Hinges P m act Q) (hp : ¬P) : ∃ e n, act.run m = (.error e, n) := by
  rw [Hinges] at h
  cases hrun : act.run m with
  | mk r n =>
    rw [hrun] at h
    cases r with
    | ok a => exact absurd h.1 hp
    | error e => exact ⟨e, n, rfl⟩

theorem intro_ok (hrun : act.run m = (.ok a, n)) (hp : P) (hq : Q a n) : Hinges P m act Q := by
  rw [Hinges, hrun]
  exact ⟨hp, hq⟩

theorem intro_error {e : Fault} (hrun : act.run m = (.error e, n)) (hp : ¬P) : Hinges P m act Q := by
  rw [Hinges, hrun]
  exact hp

/-- A run that comes to the same hinges on the same. -/
theorem of_run {act' : Run K α} (hrun : act.run m = act'.run n) (h : Hinges P n act' Q) : Hinges P m act Q := by
  rw [Hinges] at h ⊢
  rw [hrun]
  exact h

theorem congr (h : Hinges P m act Q) (hp : P ↔ P') : Hinges P' m act Q := by
  rw [← propext hp]
  exact h

theorem mono (h : Hinges P m act Q) (hq : ∀ a n, P → Q a n → R a n) : Hinges P m act R := by
  rw [Hinges] at h ⊢
  split at h
  · exact ⟨h.1, hq _ _ h.1 h.2⟩
  · exact h

/-- What is known of every machine after the action is known of the one that it returns with. -/
theorem and_run (h : Hinges P m act Q) {F : Machine K → Prop} (hf : F (act.run m).2) :
    Hinges P m act fun a n => Q a n ∧ F n := by
  rw [Hinges] at h ⊢
  generalize act.run m = r at h hf ⊢
  obtain ⟨r, n⟩ := r
  cases r with
  | ok a => exact ⟨h.1, h.2, hf⟩
  | error e => exact h

theorem pure (hq : Q a m) : Hinges True m (Pure.pure a) Q := .intro_ok rfl trivial hq

theorem throw {e : Fault} : Hinges False m (MonadExcept.throw e : Run K α) Q := .intro_error rfl fun h => h

theorem bind {f : α → Run K β} {S : β → Machine K → Prop} (h : Hinges P m act Q)
    (hf : ∀ a n, P → Q a n → Hinges P' n (f a) S) : Hinges (P ∧ P') m (act >>= f) S := by
  by_cases hp : P
  · obtain ⟨a, n, hrun, hq⟩ := h.exists_ok hp
    have hnext := hf a n hp hq
    exact .of_run (run_bind_ok hrun) (hnext.congr (and_iff_right hp).symm)
  · obtain ⟨e, n, hrun⟩ := h.exists_error hp
    exact .intro_error (run_bind_error hrun) fun hboth => hp hboth.1

/-- As `bind`, where all that comes after the action returns. -/
theorem map {f : α → Run K β} {S : β → Machine K → Prop} (h : Hinges P m act Q)
    (hf : ∀ a n, P → Q a n → Hinges True n (f a) S) : Hinges P m (act >>= f) S :=
  (h.bind hf).congr (and_iff_left trivial)

/-- As `bind`, where the first action returns anyway. -/
theorem after {f : α → Run K β} {S : β → Machine K → Prop} (h : Hinges True m act Q)
    (hf : ∀ a n, Q a n → Hinges P n (f a) S) : Hinges P m (act >>= f) S :=
  (h.bind fun a n _ => hf a n).congr (and_iff_right trivial)

theorem lift (r : Except Fault α) : Hinges (∃ a, r = .ok a) m (liftM r) fun a n => r = .ok a ∧ n = m := by
  cases r with
  | ok a => exact .intro_ok (run_liftExcept _) ⟨a, rfl⟩ ⟨rfl, rfl⟩
  | error e => exact .intro_error (run_liftExcept _) fun ⟨a, ha⟩ => by cases ha

theorem reading {f : Buffers K → Run K α} (h : Hinges P m (f m.frame.buffers) Q) :
    Hinges P m (Run.buffers >>= f) Q := .of_run (run_bind_ok (run_buffers m)) h

theorem writing {g : Buffers K → Buffers K} {f : PUnit → Run K α}
    (h : Hinges P (m.withBuffers (g m.frame.buffers)) (f PUnit.unit) Q) :
    Hinges P m (Run.modifyBuffers g >>= f) Q := .of_run (run_bind_ok (run_modifyBuffers g m)) h

theorem modifying {g : Machine K → Machine K} {f : PUnit → Run K α} (h : Hinges P (g m) (f PUnit.unit) Q) :
    Hinges P m (modify g >>= f) Q := .of_run (run_bind_ok (run_modify g m)) h

theorem ite {c : Prop} [Decidable c] {other : Run K α} (h : c → Hinges P m act Q)
    (ho : ¬c → Hinges P m other Q) : Hinges P m (if c then act else other) Q := by
  split
  · next hc => exact h hc
  · next hc => exact ho hc

/-- A check that throws. -/
theorem guard {c : Prop} [Decidable c] {e : Fault} (h : Hinges P m act Q) :
    Hinges (¬c ∧ P) m
      (do
        if c then (MonadExcept.throw e : Run K PUnit)
        act) Q := by
  by_cases hc : c
  · rw [if_pos hc]
    exact .intro_error (run_bind_error rfl) fun hboth => hboth.1 hc
  · rw [if_neg hc]
    exact h.congr (and_iff_right hc).symm

/-- A loop over a list, whose invariant may speak of the items that are done. -/
theorem foldlM {γ : Type} {f : β → γ → Run K β} {C : γ → Prop} (I : List γ → β → Machine K → Prop) (xs : List γ)
    (step : ∀ done x rest b m, xs = done ++ x :: rest → I done b m → Hinges (C x) m (f b x) (I (done ++ [x]))) {b : β}
    (h : I [] b m) : Hinges (∀ x ∈ xs, C x) m (xs.foldlM f b) (I xs) := by
  have general (rest done : List γ) (hxs : xs = done ++ rest) {b : β} {m : Machine K} (h : I done b m) :
      Hinges (∀ x ∈ rest, C x) m (rest.foldlM f b) (I xs) := by
    induction rest generalizing done b m with
    | nil =>
      rw [List.append_nil] at hxs
      subst hxs
      exact .intro_ok rfl (by simp) h
    | cons x rest ih =>
      rw [List.foldlM_cons]
      exact ((step done x rest b m hxs h).bind fun _ n _ hn => ih (done ++ [x]) (by simp [hxs]) hn).congr
        (List.forall_mem_cons).symm
  exact general xs [] rfl h

/-- A loop returns if every step does. -/
theorem foldlM_range {f : β → Nat → Run K β} {C : Nat → Prop} (I : Nat → β → Machine K → Prop) {n : Nat}
    (step : ∀ k b m, k < n → I k b m → Hinges (C k) m (f b k) (I (k+1))) {b : β} (h : I 0 b m) :
    Hinges (∀ k < n, C k) m ((List.range n).foldlM f b) (I n) := by
  have hloop := foldlM (C := C) (fun done => I done.length) (List.range n) (fun done k rest b m hsplit hm => by
    obtain ⟨hk, rfl⟩ := Beside.range_split hsplit
    simpa using step k b m hk (by simpa using hm)) h
  simpa using hloop

/-- A loop over the items of an array and their places. -/
theorem foldlM_zipIdx {γ : Type} (xs : Array γ) {f : β → γ × Nat → Run K β} {C : Nat → γ → Prop}
    (I : Nat → β → Machine K → Prop)
    (step : ∀ k x b m, xs[k]? = some x → I k b m → Hinges (C k x) m (f b (x,k)) (I (k+1))) {b : β} (h : I 0 b m) :
    Hinges (∀ k x, xs[k]? = some x → C k x) m (xs.zipIdx.toList.foldlM f b) (I xs.size) := by
  have hloop := foldlM (C := fun e : γ × Nat => C e.2 e.1) (fun done => I done.length) xs.zipIdx.toList
    (fun done e rest b m hsplit hm => by
      obtain ⟨x, k⟩ := e
      have hget := congrArg (fun l : List (γ × Nat) => l[done.length]?) hsplit
      simp only [List.getElem?_append_right (Nat.le_refl _), Nat.sub_self, List.getElem?_cons_zero,
        Array.getElem?_toList, Array.getElem?_zipIdx, Option.map_eq_some_iff, Prod.mk.injEq, Nat.zero_add] at hget
      obtain ⟨_, hx, rfl, rfl⟩ := hget
      simpa using step _ _ b m hx hm) h
  refine (hloop.congr ?_).mono fun _ n _ hn => by simpa using hn
  simp only [Array.mem_toList_iff, Prod.forall, Array.mk_mem_zipIdx_iff_getElem?]
  exact forall_comm

theorem forM_zipIdx {γ : Type} (xs : Array γ) {f : γ × Nat → Run K PUnit} {C : Nat → γ → Prop}
    (I : Nat → Machine K → Prop)
    (step : ∀ k x m, xs[k]? = some x → I k m → Hinges (C k x) m (f (x,k)) fun _ => I (k+1)) (h : I 0 m) :
    Hinges (∀ k x, xs[k]? = some x → C k x) m (xs.zipIdx.toList.forM f) fun _ => I xs.size := by
  have hfold (es : List (γ × Nat)) : es.forM f = es.foldlM (fun _ e => f e) PUnit.unit := by
    induction es with
    | nil => rfl
    | cons e es ih =>
      rw [List.foldlM_cons]
      exact congrArg (f e >>= ·) (funext fun _ => ih)
  rw [hfold]
  exact foldlM_zipIdx xs (fun k _ => I k) (fun k x _ m => step k x m) h

/-- A run in the instance of the parent. -/
theorem inParent {fresh : Frame K} (h : Hinges P (m.inside fresh) act Q) :
    Hinges P m (Run.inParent fresh act) fun a n => ∃ n', Q a n' ∧ n = m.outside n' := by
  rw [Hinges, run_inParent]
  rw [Hinges] at h
  generalize act.run (m.inside fresh) = r at h ⊢
  obtain ⟨r, n⟩ := r
  cases r with
  | ok a => exact ⟨h.1, n, h.2, rfl⟩
  | error e => exact h

/-- The outcome as a value. -/
theorem observe (h : Hinges P m act Q) : Hinges True m (Run.observe act) fun r n =>
    (∃ a, r = .ok a ∧ P ∧ Q a n) ∨ ∃ e, r = .error e ∧ ¬P := by
  have hrun : (Run.observe act).run m = (.ok (act.run m).1, (act.run m).2) := rfl
  refine .intro_ok hrun trivial ?_
  by_cases hp : P
  · obtain ⟨a, n, hok, hq⟩ := h.exists_ok hp
    rw [hok]
    exact .inl ⟨a, rfl, hp, hq⟩
  · obtain ⟨e, n, herror⟩ := h.exists_error hp
    rw [herror]
    exact .inr ⟨e, rfl, hp⟩

/-- An outcome that is observed, where a fault is thrown again later on. -/
theorem observed {f : Except Fault α → Run K β} {S : β → Machine K → Prop} (h : Hinges P m act Q)
    (hok : ∀ a n, P → Q a n → Hinges P' n (f (.ok a)) S)
    (herror : ∀ e n, ∃ e' n', (f (.error e)).run n = (.error e', n')) :
    Hinges (P ∧ P') m (Run.observe act >>= f) S := by
  have hobserve : (Run.observe act).run m = (.ok (act.run m).1, (act.run m).2) := rfl
  by_cases hp : P
  · obtain ⟨a, n, hrun, hq⟩ := h.exists_ok hp
    rw [hrun] at hobserve
    exact .of_run (run_bind_ok hobserve) ((hok a n hp hq).congr (and_iff_right hp).symm)
  · obtain ⟨e, n, hrun⟩ := h.exists_error hp
    rw [hrun] at hobserve
    obtain ⟨e', n', hfault⟩ := herror e n
    exact .intro_error ((run_bind_ok hobserve).trans hfault) fun hboth => hp hboth.1

/-- As `observed`, where a violation is thrown at once. -/
theorem outcome {f : Except Fault α → Run K β} {S : β → Machine K → Prop} {R : Prop} (h : Hinges P m act Q)
    (hok : ∀ a n, P → Q a n → Hinges R n (f (.ok a)) S)
    (herror : ∀ e n, ∃ e' n', (f (.error e)).run n = (.error e', n')) :
    Hinges (P ∧ R) m (Run.outcome act >>= f) S := by
  rw [Run.outcome, bind_assoc]
  refine h.observed hok fun e n => ?_
  split
  · exact ⟨_, n, rfl⟩
  · exact herror e n

end Hinges

/-- The action yields what `o` tells: its value where there is one, and a fault elsewhere. -/
def Yields (o : Option α) (m : Machine K) (act : Run K α) (Q : α → Machine K → Prop) : Prop :=
  Hinges o.isSome m act fun a n => o = some a ∧ Q a n

namespace Yields

variable {o o' : Option α}

theorem congr (h : Yields o m act Q) (ho : o = o') : Yields o' m act Q := ho ▸ h

theorem mono (h : Yields o m act Q) (hq : ∀ a n, o = some a → Q a n → R a n) : Yields o m act R :=
  Hinges.mono h fun a n _ hn => ⟨hn.1, hq a n hn.1 hn.2⟩

/-- One value, where a condition holds. -/
theorem of_hinges [Decidable P] {v : α} (h : Hinges P m act fun a n => a = v ∧ Q a n) :
    Yields (if P then some v else none) m act Q := by
  have hiff : P ↔ (if P then some v else none).isSome = true := by
    split <;> simp [*]
  refine Hinges.mono (h.congr hiff) fun a n hp hn => ⟨?_, hn.2⟩
  rw [if_pos (hiff.mpr hp), hn.1]

theorem pure (hq : Q a m) : Yields (some a) m (Pure.pure a) Q := .intro_ok rfl rfl ⟨rfl, hq⟩

theorem lift (r : Except Fault α) : Yields r.toOption m (liftM r) fun _ n => n = m := by
  cases r with
  | ok a => exact .intro_ok (run_liftExcept _) rfl ⟨rfl, rfl⟩
  | error e => exact .intro_error (run_liftExcept _) (by simp [Except.toOption])

theorem throw {e : Fault} : Yields none m (MonadExcept.throw e : Run K α) Q := .intro_error rfl (by simp)

theorem of_ok (h : Yields o m act Q) (hrun : act.run m = (.ok a, n)) : o = some a ∧ Q a n :=
  (Hinges.of_ok h hrun).2

theorem iff_ok (h : Yields o m act Q) : o = some a ↔ (act.run m).1 = .ok a := by
  constructor
  · intro ho
    obtain ⟨b, n, hrun, hb, -⟩ := Hinges.exists_ok h (by rw [ho]; rfl)
    obtain rfl : a = b := Option.some.inj (ho.symm.trans hb)
    rw [hrun]
  · intro hrun
    exact (h.of_ok (n := (act.run m).2) (Prod.ext hrun rfl)).1

theorem bind {k : α → Option β} {f : α → Run K β} {S : β → Machine K → Prop} (h : Yields o m act Q)
    (hf : ∀ a n, o = some a → Q a n → Yields (k a) n (f a) S) : Yields (o >>= k) m (act >>= f) S := by
  cases o with
  | none =>
    obtain ⟨e, n, hrun⟩ := Hinges.exists_error h (by simp)
    exact .intro_error (run_bind_error hrun) (by simp)
  | some a =>
    obtain ⟨b, n, hrun, hb, hq⟩ := Hinges.exists_ok h rfl
    obtain rfl := Option.some.inj hb
    exact Hinges.of_run (run_bind_ok hrun) (hf a n rfl hq)

/-- As `bind`, where the first action always returns. -/
theorem after {f : α → Run K β} {S : β → Machine K → Prop} {o : Option β} (h : Hinges True m act Q)
    (hf : ∀ a n, Q a n → Yields o n (f a) S) : Yields o m (act >>= f) S := Hinges.after h hf

/-- As `bind`, where the value of the first action does not matter. -/
theorem next {γ : Type} {o : Option γ} {u : Option β} {f : α → Run K β} {S : β → Machine K → Prop}
    (h : Hinges o.isSome m act Q) (hf : ∀ a n, Q a n → Yields u n (f a) S) :
    Yields (o >>= fun _ => u) m (act >>= f) S := by
  cases o with
  | none =>
    obtain ⟨e, n, hrun⟩ := Hinges.exists_error h (by simp)
    exact .intro_error (run_bind_error hrun) (by simp)
  | some c =>
    obtain ⟨a, n, hrun, hq⟩ := Hinges.exists_ok h rfl
    exact Hinges.of_run (run_bind_ok hrun) (hf a n hq)

/-- A run in the instance of the parent. -/
theorem inParent {fresh : Frame K} (h : Yields o (m.inside fresh) act Q) :
    Yields o m (Run.inParent fresh act) fun a n => ∃ n', Q a n' ∧ n = m.outside n' :=
  (Hinges.inParent h).mono fun _ _ _ ⟨n', hn', hn⟩ => ⟨hn'.1, n', hn'.2, hn⟩

/-- The outcome as a value. -/
theorem observe (h : Yields o m act Q) : Hinges True m (Run.observe act) fun r n =>
    o = r.toOption ∧ ∀ a, r = .ok a → Q a n := by
  refine (Hinges.observe h).mono fun r n _ hr => ?_
  obtain ⟨a, rfl, -, ha, hq⟩ | ⟨e, rfl, hnone⟩ := hr
  · exact ⟨ha, fun b hb => Except.ok.inj hb ▸ hq⟩
  · exact ⟨(by simpa using hnone : o = none), fun b hb => by cases hb⟩

end Yields

end Fluxion.Run
