import Fluxion.Proofs.Function.Batches
import Fluxion.Proofs.Function.Call

/-!
A central difference moves one input twice and sets it back. However it ends, it leaves inputs and seeds as they
were.
-/
set_option autoImplicit false

namespace Fluxion

open Run

variable {K T : Type}

/-! ### One input -/

namespace Buffers

variable {b b' : Buffers T} {i : Nat}

/-- Buffers with other entries for one input. -/
def withInput (b : Buffers T) (i : Nat) (x : Array T) : Buffers T := {b with input := b.input.setIfInBounds i x}

@[simp] theorem withInput_withInput (b : Buffers T) (i : Nat) (x y : Array T) :
    (b.withInput i x).withInput i y = b.withInput i y := by
  simp [withInput]

theorem withInput_input (b : Buffers T) (i : Nat) : b.withInput i (b.input.getD i #[]) = b := by
  have hsame : b.input.setIfInBounds i (b.input.getD i #[]) = b.input := by
    refine Array.ext_getElem? fun k => ?_
    rw [Array.getElem?_setIfInBounds]
    split
    · next hk =>
      subst hk
      by_cases hi : i < b.input.size <;> simp [hi]
    · rfl
  rw [withInput, hsame]

theorem Undisturbed.withInput (h : b.Undisturbed b') (i : Nat) (x : Array T) :
    (b.withInput i x).Undisturbed (b'.withInput i x) :=
  ⟨congrArg (·.setIfInBounds i x) h.input, h.forwardSeed, h.adjointSeed, h.forward, h.adjoint⟩

/-- Buffers that differ in one input, in outputs and in sensitivities at most. -/
def Aside (b : Buffers T) (i : Nat) (b' : Buffers T) : Prop := ∃ x, (b.withInput i x).Undisturbed b'

theorem Aside.refl (b : Buffers T) (i : Nat) : b.Aside i b := by
  refine ⟨b.input.getD i #[], ?_⟩
  rw [withInput_input]
  exact .refl b

theorem Aside.withInput (h : b.Aside i b') (x : Array T) : (b.withInput i x).Undisturbed (b'.withInput i x) := by
  obtain ⟨y, hy⟩ := h
  simpa using hy.withInput i x

end Buffers

theorem Signature.size_input {sig : Signature K} {b : Buffers K} (hb : b.input.sizes = sig.inputSizes) {i : Nat}
    {p : Pattern} (hp : sig.checkInput i = .ok p) : sig.inputSizes[i]? = some (b.input.getD i #[]).size := by
  have hnnz := checkInput_ok hp
  rw [← hb, Block.sizes, Array.getElem?_map, Option.map_eq_some_iff] at hnnz
  obtain ⟨x, hx, -⟩ := hnnz
  rw [← hb, Block.sizes, Array.getElem?_map, Array.getD_eq_getD_getElem?, hx]
  rfl

/-! ### One difference -/

variable [Number K] {d : Definition K} {m : Machine K} {b : Buffers K} {iind oind : Nat}

namespace Definition

/-- Without directions no seed moves, so that inputs and seeds stay also where a violation breaks the evaluation off. -/
theorem keeps_evaluate_outputs (d : Definition K) (b : Buffers K) :
    Keeps (fun g => b.Undisturbed g.buffers) (d.evaluate 0 0) := by
  have hdispatch : Keeps (fun g => b.Undisturbed g.buffers) (d.dispatch 0 0) := fun m hm =>
    hm.trans (d.keeps_dispatch m.frame 0 0 m (.refl _)).buffers
  rw [evaluate_eq_around, Evaluate.around_eq, Evaluate.sweeping, if_neg (by simp)]
  refine keeps_buffers.bind fun b => keeps_when (keeps_throw _) (keeps_when (keeps_throw _) ?_)
  exact (hdispatch.bind fun _ => keeps_pure _).bind fun _ => Keeps.bind (fun _ hm => hm) fun _ =>
    Evaluate.keeps_regularity _ _ _

theorem outputWith_refuses {x : Array K} (hx : d.sig.inputSizes[iind]? ≠ some x.size) (oind : Nat) (m : Machine K) :
    ∃ e, (d.outputWith iind oind x).run m = (.error e, m) := by
  obtain ⟨e, he⟩ := Signature.setInput_refuses hx m
  exact ⟨e, run_bind_error he⟩

/-- Where an input of the right length takes the place of one, and an output is evaluated there: a violation ends it,
or it returns, and the other inputs and the seeds are as they were. -/
theorem outputWith_ends (hb : b.Aside iind m.frame.buffers) {x : Array K}
    (hx : d.sig.inputSizes[iind]? = some x.size) (oind : Nat) :
    (∃ v m', (d.outputWith iind oind x).run m = (.error (.violation v), m')) ∨
    ∃ r m', (d.outputWith iind oind x).run m = (.ok r, m') ∧ b.Aside iind m'.frame.buffers := by
  have hkept : Keeps (fun g => (b.withInput iind x).Undisturbed g.buffers)
      (d.evaluate 0 0 >>= fun _ => d.sig.output oind) :=
    (d.keeps_evaluate_outputs _).bind fun _ => keeps_lift_bind fun _ _ => keeps_buffers.bind fun _ => keeps_pure _
  rw [outputWith, run_bind_ok (Signature.run_setInput hx m)]
  have hend := hkept (m.withBuffers (m.frame.buffers.withInput iind x)) (hb.withInput x)
  by_cases hv : ∃ v, ((d.evaluate 0 0 >>= fun _ => d.sig.output oind).run
      (m.withBuffers (m.frame.buffers.withInput iind x))).1 = .error (.violation v)
  · obtain ⟨v, hv⟩ := hv
    exact .inl ⟨v, _, run_outcome_violation hv⟩
  · exact .inr ⟨_, _, run_outcome_of fun v h => hv ⟨v, h⟩, x, hend⟩

/-- However a central difference ends, unless by a violation: inputs and seeds are as before. -/
theorem undisturbed_centralDifference (hm : m.frame.buffers.input.sizes = d.sig.inputSizes) (dir : Array K) (step : K)
    (hv : ∀ v, ((d.centralDifference iind oind dir step).run m).1 ≠ .error (.violation v)) :
    m.frame.buffers.Undisturbed ((d.centralDifference iind oind dir step).run m).2.frame.buffers := by
  rw [centralDifference, Signature.input] at hv ⊢
  cases hp : d.sig.checkInput iind with
  | error e => exact .refl _
  | ok p =>
  have hsize := Signature.size_input hm hp
  simp only [hp, bind_assoc] at hv ⊢
  rw [run_bind_ok (run_liftExcept _), run_bind_ok (run_buffers m), pure_bind] at hv ⊢
  generalize hx : m.frame.buffers.input.getD iind #[] = x at *
  by_cases hdir : x.size ≤ dir.size
  · have hshift (h : K) : d.sig.inputSizes[iind]? =
        some (Array.zipWith (fun x d => Number.add x (Number.mul h d)) x dir).size := by
      rw [hsize, Array.size_zipWith, Nat.min_eq_left hdir]
    obtain ⟨v, m₁, hplus⟩ | ⟨plus, m₁, hplus, hm₁⟩ := outputWith_ends (.refl _ _) (hshift step) oind
    · exact absurd (congrArg Prod.fst (run_bind_error hplus)) (hv v)
    rw [run_bind_ok hplus] at hv ⊢
    obtain ⟨v, m₂, hminus⟩ | ⟨minus, m₂, hminus, hm₂⟩ := outputWith_ends hm₁ (hshift (Number.neg step)) oind
    · exact absurd (congrArg Prod.fst (run_bind_error hminus)) (hv v)
    rw [run_bind_ok hminus, run_bind_ok (Signature.run_setInput hsize m₂)]
    -- Only now do the outcomes decide how it ends.
    have hkept : Keeps (fun g => m.frame.buffers.Undisturbed g.buffers) (do
        let plus ← (liftM plus : Run K (Array K))
        let minus ← (liftM minus : Run K (Array K))
        pure (plus.zipWith (Differences.quotient step) minus)) :=
      keeps_lift_bind fun _ _ => keeps_lift_bind fun _ _ => keeps_pure _
    refine hkept _ ?_
    have hrestored := hm₂.withInput x
    rwa [← hx, Buffers.withInput_input, hx] at hrestored
  · have hshort : d.sig.inputSizes[iind]? ≠
        some (Array.zipWith (fun x d => Number.add x (Number.mul step d)) x dir).size := by
      rw [hsize, Array.size_zipWith]
      simp
      omega
    obtain ⟨e, he⟩ := outputWith_refuses hshort oind m
    rw [run_bind_error he]
    exact .refl _

end Definition

/-- Whatever an instance was asked before: a central difference leaves its inputs and its seeds as they were, whether it
returns, refuses its arguments or fails at one of the two points, and unless a violation ends it. Where all
directions that are allowed have room, all values of blocks have places and the callables break no precondition,
no violation does. -/
theorem Made.centralDifference_restores {A : Callable K → Prop} {n : Nat} {i : Instance K} (h : Made A n d)
    (hi : i.Reached d) (iind oind : Nat) (dir : Array K) (step : K) :
    ((∀ v, (i.run (d.centralDifference iind oind dir step)).1 ≠ .error (.violation v)) →
      i.frame.buffers.Undisturbed (i.run (d.centralDifference iind oind dir step)).2.1.frame.buffers) ∧
    (Room d.sig.options.limits → d.Entire → (∀ c, A c → c.Calm) →
      ∀ v, (i.run (d.centralDifference iind oind dir step)).1 ≠ .error (.violation v)) := by
  have hfits := (hi.lives (h.sturdy (W := True) hi.room (.inl trivial))).fits
  refine ⟨Definition.undisturbed_centralDifference (m := i.machine) hfits.frame.shaped.input dir step,
    fun hroom hentire hcalm v hv => ?_⟩
  have hstrict := h.sturdy (W := False) hi.room (.inr ⟨hentire, hroom, hcalm⟩)
  obtain hfalse | hno := (Instance.fits_run (hstrict.safe_centralDifference iind oind dir step _ _) hfits).2 _ hv
  · exact hfalse
  · exact hno v rfl

theorem cappedCallable_calm : cappedCallable.Calm where
  evaluate x _ v h := by
    rw [cappedCallable] at h
    dsimp only at h
    split at h <;> cases h
  jacobian i o inp out _ _ jac x h := by cases h

/-- A point, a direction at it, and a seed that is not zero. -/
def seededHistory : List (Step ℚ) :=
  [.ask (.setInput 0 #[-1]), .ask (.setInput 1 #[1]), .ask (.setForwardSeed 0 0 #[2])]

/-- The difference of the slope at two and at minus four. The square has no value at the first of the points. -/
theorem Made.centralDifference_restores_failed :
    Made (· = cappedCallable) 2 cappedSlope ∧
    ((Instance.of cappedSlope).through seededHistory).Reached cappedSlope ∧
    (((Instance.of cappedSlope).through seededHistory).run (cappedSlope.centralDifference 0 1 #[1] 3)).1 =
      .error (.external "unnamed_function" "above one") ∧
    (((Instance.of cappedSlope).through seededHistory).run
      (cappedSlope.centralDifference 0 1 #[1] 3)).2.1.frame.buffers.input = #[#[-1], #[1]] ∧
    (((Instance.of cappedSlope).through seededHistory).run
      (cappedSlope.centralDifference 0 1 #[1] 3)).2.1.frame.buffers.forwardSeed = #[#[#[2], #[0]]] ∧
    ∀ dir v, (((Instance.of cappedSlope).through seededHistory).run
      (cappedSlope.centralDifference 0 1 dir 3)).1 ≠ .error (.violation v) := by
  have hcapped : (Definition.ofCallable cappedCallable (.standard 1)).run 0 = (.ok cappedSquare, 1) := by cbv
  have hslope : (cappedSquare.derive (.derivative 1 0)).run 1 = (.ok cappedSlope, 2) := rfl
  have hmade : Made (· = cappedCallable) 2 cappedSlope := .derived (.external rfl hcapped) le_rfl hslope
  have hof : Instance.of? cappedSlope = .ok (Instance.of cappedSlope) := by cbv
  have hreached : ((Instance.of cappedSlope).through seededHistory).Reached cappedSlope := ⟨_, _, hof, rfl⟩
  have hfailed : (((Instance.of cappedSlope).through seededHistory).run
      (cappedSlope.centralDifference 0 1 #[1] 3)).1 = .error (.external "unnamed_function" "above one") := by cbv
  have hroom : Room cappedSlope.sig.options.limits := ⟨by cbv, by cbv⟩
  have hsafe (dir : Array ℚ) := (hmade.centralDifference_restores hreached 0 1 dir 3).2 hroom trivial
    fun c hc => hc ▸ cappedCallable_calm
  have hkept := (hmade.centralDifference_restores hreached 0 1 #[1] 3).1 (hsafe #[1])
  exact ⟨hmade, hreached, hfailed, hkept.input.trans (by cbv), hkept.forwardSeed.trans (by cbv), hsafe⟩

end Fluxion
