import Fluxion.Proofs.Function.Steps

/-!
Calls from any state. What a call answers depends on its inputs alone, so the points of a batch may be divided
among copies of the instance in any way.
-/
set_option autoImplicit false

namespace Fluxion

open Run

variable {K α : Type}

/-- What collecting outcomes may answer: all the values in order, or one of the faults. -/
inductive Collects (outcomes : List (Except Fault α)) : Except Fault (List α) → Prop
  | values (ys : List α) : outcomes = ys.map .ok → Collects outcomes (.ok ys)
  | fault (e : Fault) : .error e ∈ outcomes → Collects outcomes (.error e)

theorem collects_sequence (outcomes : List (Except Fault α)) : Collects outcomes (outcomes.mapM id) := by
  induction outcomes with
  | nil => exact .values [] rfl
  | cons r rest ih =>
    rw [List.mapM_cons]
    cases r with
    | error e => exact .fault e List.mem_cons_self
    | ok y =>
      cases hrest : rest.mapM id with
      | error e =>
        rw [hrest] at ih
        cases ih with
        | fault _ he => exact .fault e (List.mem_cons_of_mem _ he)
      | ok ys =>
        rw [hrest] at ih
        cases ih with
        | values _ hys => exact .values (y :: ys) (by rw [hys, List.map_cons])

/-- Values that are collected are the only ones, and then there is no fault to collect. -/
theorem Collects.ok_unique {outcomes : List (Except Fault α)} {ys : List α} {r : Except Fault (List α)}
    (h : Collects outcomes (.ok ys)) (hr : Collects outcomes r) : r = .ok ys := by
  cases h with
  | values _ hys =>
    subst hys
    cases hr with
    | values zs hzs => rw [List.map_injective_iff.mpr (fun _ _ h => Except.ok.inj h) hzs]
    | fault e he =>
      obtain ⟨y, -, hy⟩ := List.mem_map.mp he
      cases hy

/-- A list of actions, each of which has the same outcome in every state that all of them keep. -/
theorem run_mapM {β : Type} {F : Machine K → Prop} {act : β → Run K α} {g : β → Except Fault α}
    (h : ∀ x m, F m → ((act x).run m).1 = g x ∧ F ((act x).run m).2) (xs : List β) {m : Machine K} (hm : F m) :
    ((xs.mapM act).run m).1 = xs.mapM g := by
  induction xs generalizing m with
  | nil => rfl
  | cons x xs ih =>
    obtain ⟨hx, hkept⟩ := h x m hm
    rw [List.mapM_cons, List.mapM_cons]
    cases hg : g x with
    | error e => rw [run_bind_error (Prod.ext (hx.trans hg) rfl)]; rfl
    | ok y =>
      rw [run_bind_ok (Prod.ext (hx.trans hg) rfl), ok_bind, ← ih hkept]
      cases hrest : (xs.mapM act).run ((act x).run m).2 with
      | mk r n =>
        cases r with
        | error e => rw [run_bind_error hrest]; rfl
        | ok ys => rw [run_bind_ok hrest]; rfl

variable [Number K] {d : Definition K}

namespace Definition

/-- What a fresh instance answers to a point. -/
def answer (d : Definition K) (x : Block K) : Except Fault (Block K) := ((Instance.of d).run (d.call x)).1

end Definition

namespace Instance

/-- What an instance answers to the points of a list, one after the other, also after one has failed. -/
def outcomes (i : Instance K) : List (Block K) → List (Except Fault (Block K))
  | [] => []
  | x :: xs =>
    let (r, next, _) := i.run (i.definition.call x)
    r :: next.outcomes xs

end Instance

/-- A definition whose instances answer calls as if nothing had been asked before. -/
structure Definition.Oblivious (d : Definition K) : Prop where
  regular : d.Regular True False
  sturdy : d.Sturdy True

namespace Definition.Oblivious

variable {i : Instance K}

theorem run_call (h : d.Oblivious) {m : Machine K} (hm : m.Fits d d.sig.options.initial d.sig.options.limits)
    (x : Block K) : ((d.call x).run m).1 = d.answer x :=
  (h.regular.beside_call x).outcome_eq ⟨Instance.fits_of d, hm, False.elim⟩ trivial

theorem lives_call (h : d.Oblivious) (hi : i.Lives d) (x : Block K) : (i.run (d.call x)).2.1.Lives d :=
  ⟨hi.definition, (Instance.fits_run (h.sturdy.safe_call x _ _) hi.fits).1⟩

theorem outcomes_eq (h : d.Oblivious) (hi : i.Lives d) (points : List (Block K)) :
    i.outcomes points = points.map d.answer := by
  induction points generalizing i with
  | nil => rfl
  | cons x points ih =>
    rw [Instance.outcomes, hi.definition, List.map_cons]
    exact congrArg₂ List.cons (h.run_call hi.fits x) (ih (h.lives_call hi x))

theorem run_callBatch (h : d.Oblivious) (hi : i.Lives d) (points : List (Block K)) :
    (i.run (d.callBatch points)).1 = points.mapM d.answer :=
  run_mapM (fun x m hm => ⟨h.run_call hm x, (h.sturdy.safe_call x _ _ m hm).1⟩) points hi.fits

theorem run_callBatchOnCopies (h : d.Oblivious) (hi : i.Lives d) (points : List (Block K)) :
    (i.run (d.callBatchOnCopies points)).1 = points.mapM d.answer := by
  refine run_mapM (F := Machine.Fits d d.sig.options.initial d.sig.options.limits) (fun x m hm => ?_) points hi.fits
  exact ⟨h.run_call hm x, hm.frame, hm.inner⟩

end Definition.Oblivious

namespace Made

theorem oblivious {n : Nat} (h : Made Callable.Complete n d) (hroom : Room d.sig.options.initial) : d.Oblivious := by
  obtain ⟨roots, -, hs⟩ := h.sound
  exact ⟨hs.regular (fun _ hc => .inr hc) (.inl trivial) hroom.granted_one, h.sturdy hroom (.inl trivial)⟩

/-- Whatever was asked before, of callables that answer all outputs: two instances of a definition answer a call
alike. So the points of a batch may be divided among copies of an instance in any way; every point has the
answer that it has in its turn on one instance, and values are collected exactly where a batch has them. -/
theorem calls_agree {n : Nat} (h : Made Callable.Complete n d) {i j : Instance K} (hi : i.Reached d)
    (hj : j.Reached d) :
    (∀ x, (j.run (d.call x)).1 = (i.run (d.call x)).1) ∧
    ∀ parts : List (List (Block K)),
      parts.flatMap j.outcomes = parts.flatten.map (fun x => (i.run (d.call x)).1) ∧
      (j.run (d.callBatchOnCopies parts.flatten)).1 = (i.run (d.callBatch parts.flatten)).1 ∧
      Collects (parts.flatMap j.outcomes) (i.run (d.callBatch parts.flatten)).1 ∧
      ∀ r, Collects (parts.flatMap j.outcomes) r → ∀ ys, r = .ok ys ↔ (i.run (d.callBatch parts.flatten)).1 = .ok ys := by
  have ho := h.oblivious hi.room
  have hlives := hi.lives ho.sturdy
  have hlives' := hj.lives ho.sturdy
  have hcall (x : Block K) : (i.run (d.call x)).1 = d.answer x := ho.run_call hlives.fits x
  have hdivided (parts : List (List (Block K))) : parts.flatMap j.outcomes = parts.flatten.map d.answer := by
    rw [List.map_flatten, List.flatMap_def]
    exact congrArg List.flatten (List.map_congr_left fun points _ => ho.outcomes_eq hlives' points)
  refine ⟨fun x => (ho.run_call hlives'.fits x).trans (hcall x).symm, fun parts => ?_⟩
  have hbatch : (i.run (d.callBatch parts.flatten)).1 = (parts.flatMap j.outcomes).mapM id := by
    rw [hdivided, ho.run_callBatch hlives, List.mapM_map]
    rfl
  have hcollects := collects_sequence (parts.flatMap j.outcomes)
  refine ⟨?_, ?_, hbatch ▸ hcollects, fun r hr ys => ⟨fun h => ?_, fun h => ?_⟩⟩
  · rw [hdivided]
    exact List.map_congr_left fun x _ => (hcall x).symm
  · rw [ho.run_callBatchOnCopies hlives', ho.run_callBatch hlives]
  · rw [hbatch]
    exact (h ▸ hr : Collects _ (.ok ys)).ok_unique hcollects
  · rw [← hbatch, h] at hcollects
    exact hcollects.ok_unique hr

end Made

/-- The square of a number that is at most one, as a callable. -/
def cappedCallable : Callable ℚ :=
  ⟨#[.scalar], #[.scalar], fun x =>
    if 1 < (x.get? 0 0).getD 0 then .error (.message "above one")
    else .ok (x.map (·.map fun v => v * v)), fun _ _ => none, fun _ _ => none⟩

/-- The square with its derivative along a direction, which evaluates an instance of the square. -/
def cappedSlope : Definition ℚ :=
  .derivative ⟨1, cappedSquare.sig.derivedOptions "fwd1_adj0", #[.scalar, .scalar], #[.scalar, .scalar]⟩ 1 0
    cappedSquare

theorem cappedCallable_complete : cappedCallable.Complete := by
  intro x y hx hy
  rw [cappedCallable] at hy
  dsimp only at hy
  split at hy
  · cases hy
  · cases hy
    simpa [Block.sizes, Function.comp_def, cappedCallable] using hx

theorem cappedSlope_made : Made Callable.Complete 2 cappedSlope := by
  have hcapped : (Definition.ofCallable cappedCallable (.standard 1)).run 0 = (.ok cappedSquare, 1) := by cbv
  have hslope : (cappedSquare.derive (.derivative 1 0)).run 1 = (.ok cappedSlope, 2) := rfl
  exact .derived (.external cappedCallable_complete hcapped) le_rfl hslope

/-- A call, one that fails, and an evaluation that is refused. -/
def cappedHistory : List (Step ℚ) := [.call #[#[-3], #[1]], .call #[#[3], #[1]], .ask (.evaluate 5 0)]

/-- After the history the input is another one, and a call answers as the first one of a fresh instance. A batch
whose second point fails is divided between two copies. -/
theorem Made.calls_agree_after_fault :
    Made Callable.Complete 2 cappedSlope ∧ (Instance.of cappedSlope).Reached cappedSlope ∧
    ((Instance.of cappedSlope).through cappedHistory).Reached cappedSlope ∧
    ((Instance.of cappedSlope).through cappedHistory).frame.buffers.input = #[#[3], #[1]] ∧
    (((Instance.of cappedSlope).through cappedHistory).run (cappedSlope.call #[#[-2], #[2]])).1 =
      .ok #[#[4], #[-8]] ∧
    [[#[#[-2], #[2]], #[#[3], #[0]]], [#[#[-2], #[0]]]].flatMap
      ((Instance.of cappedSlope).through cappedHistory).outcomes =
        [.ok #[#[4], #[-8]], .error (.external "unnamed_function" "above one"), .ok #[#[4], #[0]]] := by
  have hof : Instance.of? cappedSlope = .ok (Instance.of cappedSlope) := by cbv
  have hfresh : (Instance.of cappedSlope).Reached cappedSlope := ⟨_, [], hof, rfl⟩
  have hused : ((Instance.of cappedSlope).through cappedHistory).Reached cappedSlope := ⟨_, _, hof, rfl⟩
  obtain ⟨hcall, hbatch⟩ := calls_agree cappedSlope_made hfresh hused
  refine ⟨cappedSlope_made, hfresh, hused, by cbv, (hcall _).trans (by cbv), (hbatch _).1.trans (by cbv)⟩

end Fluxion
