import Fluxion.Proofs.Function.Batches

/-!
What no history breaks. In every state of an instance its buffers have the sizes of its inputs and outputs, it
has no more directions than the options allow, and no step drops one; and steps break no precondition where there
is room for the directions and a place for every value.
-/
set_option autoImplicit false

namespace Fluxion

open Run

variable {K T : Type}

/-- Buffers with the same inputs and outputs, and with all directions that were there. -/
structure Buffers.Extends (b b' : Buffers T) : Prop where
  input : b'.input = b.input
  output : b'.output = b.output
  forwardSeed : b.forwardSeed.toList <+: b'.forwardSeed.toList
  forwardSens : b.forwardSens.toList <+: b'.forwardSens.toList
  adjointSeed : b.adjointSeed.toList <+: b'.adjointSeed.toList
  adjointSens : b.adjointSens.toList <+: b'.adjointSens.toList

namespace Buffers

variable {b c : Buffers T}

theorem prefix_extendTo (bs : Array (Block T)) (n : Nat) (x : Block T) : bs.toList <+: (extendTo bs n x).toList := by
  rw [extendTo, Array.toList_append]
  exact List.prefix_append _ _

theorem Extends.refl (b : Buffers T) : b.Extends b :=
  ⟨rfl, rfl, List.prefix_rfl, List.prefix_rfl, List.prefix_rfl, List.prefix_rfl⟩

theorem Extends.growForward (h : b.Extends c) (n : Nat) (x : T) : b.Extends (c.growForward n x) :=
  ⟨h.input, h.output, h.forwardSeed.trans (prefix_extendTo _ _ _), h.forwardSens.trans (prefix_extendTo _ _ _),
    h.adjointSeed, h.adjointSens⟩

theorem Extends.growAdjoint (h : b.Extends c) (n : Nat) (x : T) : b.Extends (c.growAdjoint n x) :=
  ⟨h.input, h.output, h.forwardSeed, h.forwardSens, h.adjointSeed.trans (prefix_extendTo _ _ _),
    h.adjointSens.trans (prefix_extendTo _ _ _)⟩

end Buffers

theorem Machine.Fits.from_here {d : Definition K} {low high : Nat × Nat} {m : Machine K} (h : m.Fits d low high) :
    m.Fits d m.frame.buffers.directions high :=
  ⟨⟨h.frame.shaped, ⟨Nat.le_refl _, h.frame.forward.2⟩, Nat.le_refl _, h.frame.adjoint.2⟩, h.inner⟩

variable [Number K] {d : Definition K}

/-- However a request for directions ends, those that were there keep what they hold. -/
theorem Signature.keeps_requestDirections (sig : Signature K) (b : Buffers K) (f a : Nat) :
    Keeps (fun g => b.Extends g.buffers) (sig.requestDirections f a) := by
  rw [requestDirections]
  dsimp only
  refine keeps_when (keeps_warn _) (keeps_when (keeps_warn _) (keeps_buffers.bind fun _ => ?_))
  exact keeps_lift_bind fun _ _ => (keeps_modifyBuffers fun _ h => h.growForward _ _).bind fun _ =>
    keeps_lift_bind fun _ _ => (keeps_modifyBuffers fun _ h => h.growAdjoint _ _).bind fun _ => keeps_pure _

namespace Made

variable {A : Callable K → Prop} {n : Nat} {i : Instance K}

/-- Whatever an instance was asked before: its buffers have the sizes of the inputs and outputs, and so have those of
the instances it runs through. However the next step ends, that stays so, with at least the directions that there
were and at most those that the options allow, and a request for directions leaves what they hold. Where all
directions that are allowed have room, all values of blocks have places and the callables break no precondition,
the step breaks none. -/
theorem intact (h : Made A n d) (hi : i.Reached d) (s : Step K) :
    i.machine.Fits d d.sig.options.initial d.sig.options.limits ∧
    (i.run (s.act d)).2.1.machine.Fits d i.frame.buffers.directions d.sig.options.limits ∧
    (∀ f a, i.frame.buffers.Extends (i.run (d.sig.requestDirections f a)).2.1.frame.buffers) ∧
    (Room d.sig.options.limits → d.Entire → (∀ c, A c → c.Calm) →
      ∀ v, (i.run (s.act d)).1 ≠ .error (.violation v)) := by
  have hsturdy := h.sturdy (W := True) hi.room (.inl trivial)
  have hlives := hi.lives hsturdy
  refine ⟨hlives.fits, (Instance.fits_run (hsturdy.safe s _) hlives.fits.from_here).1, fun f a => ?_,
    fun hroom hentire hcalm v hv => ?_⟩
  · exact d.sig.keeps_requestDirections i.frame.buffers f a i.machine (.refl _)
  · have hstrict := h.sturdy (W := False) hi.room (.inr ⟨hentire, hroom, hcalm⟩)
    obtain hfalse | hno := (Instance.fits_run (hstrict.safe s _) hlives.fits).2 _ hv
    · exact hfalse
    · exact hno v rfl

end Made

/-! ### Without room, or without places -/

/-- A pattern of two entries in one column. Their rows are so far apart that both have one element number. -/
def distantPattern : Pattern := ⟨3, 2^63, #[0, 1, 1, 2], #[5, 5]⟩

/-- The product of two numbers. -/
def productCallable : Callable ℚ :=
  ⟨#[distantPattern], #[.scalar], fun x => .ok #[#[(x.get? 0 0).getD 0 * (x.get? 0 1).getD 0]],
    fun _ _ => none, fun _ _ => none⟩

/-- The product, with so many forward directions at most. -/
def product (most : Nat) : Definition ℚ :=
  .external ⟨0, {Options.standard 1 with maxForward := most}, #[distantPattern], #[.scalar]⟩ productCallable

/-- The Jacobian of the product, over its entries or over all elements. -/
def productJacobian (most : Nat) (first : Pattern) : Definition ℚ :=
  .jacobian ⟨1, (product most).sig.derivedOptions "jac", #[distantPattern], #[first, .scalar]⟩
    ⟨0, 0, .jacobian, .dense 1 2, .sweeps (.forward (.diagonal 2))⟩ (product most)

theorem productCallable_calm : productCallable.Calm where
  evaluate x _ v h := by cases h
  jacobian i o inp out _ _ jac x h := by cases h

theorem product_made (most : Nat) : Made Callable.Calm 1 (product most) := by
  have hrun : (Definition.ofCallable productCallable {Options.standard 1 with maxForward := most}).run 0 =
      (.ok (product most), 1) := by cbv
  exact .external productCallable_calm hrun

/-- A request for directions that the options allow may have no room, and the Jacobian over all elements may have
fewer places than values. -/
theorem Made.not_intact :
    Made Callable.Calm 1 (product (2^62)) ∧
    ((Instance.of (product (2^62))).run ((product (2^62)).sig.requestDirections (2^60) 0)).1 =
      .error (.violation .noRoom) ∧
    Made Callable.Calm 2 (productJacobian 64 ⟨1, 2^63, #[0, 1], #[5]⟩) ∧
    ((Instance.of (productJacobian 64 ⟨1, 2^63, #[0, 1], #[5]⟩)).run
      ((productJacobian 64 ⟨1, 2^63, #[0, 1], #[5]⟩).call #[#[3, 4]])).1 = .error (.violation .valueLength) := by
  have hjacobian : ((product 64).derive (.jacobian 0 0 false false)).run 1 =
      (.ok (productJacobian 64 ⟨1, 2^63, #[0, 1], #[5]⟩), 2) := by cbv
  exact ⟨product_made _, by cbv, .derived (product_made 64) le_rfl hjacobian, by cbv⟩

/-- A call, an input of a wrong length, a request for directions, and an evaluation of more than there are. -/
def productHistory : List (Step ℚ) :=
  [.call #[#[3, 4]], .ask (.setInput 0 #[1]), .ask (.requestDirections 3 1), .ask (.evaluate 9 0)]

theorem Made.intact_product :
    Made Callable.Calm 2 (productJacobian 64 (.dense 1 2)) ∧
    ((Instance.of (productJacobian 64 (.dense 1 2))).through productHistory).Reached
      (productJacobian 64 (.dense 1 2)) ∧
    ((Instance.of (productJacobian 64 (.dense 1 2))).through productHistory).frame.buffers.directions = (3,1) ∧
    (((Instance.of (productJacobian 64 (.dense 1 2))).through productHistory).run
      ((Step.call #[#[5, 6]]).act (productJacobian 64 (.dense 1 2)))).2.1.machine.Fits
        (productJacobian 64 (.dense 1 2)) (3,1) (64,64) ∧
    ∀ v, (((Instance.of (productJacobian 64 (.dense 1 2))).through productHistory).run
      ((Step.call #[#[5, 6]]).act (productJacobian 64 (.dense 1 2)))).1 ≠ .error (.violation v) := by
  have hjacobian : ((product 64).derive (.jacobian 0 0 true false)).run 1 =
      (.ok (productJacobian 64 (.dense 1 2)), 2) := by cbv
  have hmade := Made.derived (product_made 64) le_rfl hjacobian
  have hof : Instance.of? (productJacobian 64 (.dense 1 2)) = .ok (.of (productJacobian 64 (.dense 1 2))) := by cbv
  have hreached : ((Instance.of (productJacobian 64 (.dense 1 2))).through productHistory).Reached
      (productJacobian 64 (.dense 1 2)) := ⟨_, _, hof, rfl⟩
  have hdirections :
      ((Instance.of (productJacobian 64 (.dense 1 2))).through productHistory).frame.buffers.directions = (3,1) := by
    cbv
  obtain ⟨-, hfits, -, hsafe⟩ := hmade.intact hreached (.call #[#[5, 6]])
  rw [hdirections] at hfits
  have hroom : Room (productJacobian 64 (.dense 1 2)).sig.options.limits := ⟨by cbv, by cbv⟩
  have hentire : (productJacobian 64 (.dense 1 2)).Entire := ⟨fun _ => by cbv, trivial⟩
  exact ⟨hmade, hreached, hdirections, hfits, hsafe hroom hentire fun _ hc => hc⟩

end Fluxion
