import Fluxion.Proofs.Function.Rounds

/-!
Regular definitions. What each of them has to be for its evaluations to depend on inputs and seeds alone and,
unless `W`, to break no precondition; and that it is enough.
-/
set_option autoImplicit false

namespace Fluxion

open Run

variable {K : Type} [Number K] {W E : Prop} {d : Definition K} {low high : Nat × Nat}

/-- Tapes that store all outputs, callables that answer all outputs unless the instances are the same, and
derivatives that have their places where those of the parent are. -/
inductive Definition.Regular (W E : Prop) : Definition K → Prop
  | expressions (sig : Signature K) (t : Tape K) (inputs : Array (Matrix (Expr K))) :
    Evaluate.Fitting W sig t → Regular W E (.expressions sig t inputs)
  | external (sig : Signature K) (c : Callable K) : sig.inputs = c.inputs → sig.outputs = c.outputs →
    (E ∨ c.Complete) → (W ∨ c.Calm) → Regular W E (.external sig c)
  | jacobian (sig : Signature K) (block : JacobianBlock) (p : Definition K) : block.Fits W sig p →
    Regular W E p → Regular W E (.jacobian sig block p)
  | derivative (sig : Signature K) (f a : Nat) (p : Definition K) : p.Spreads W sig f a →
    Regular W E p → Regular W E (.derivative sig f a p)

namespace Definition.Regular

/-- One induction over the parents: an evaluation comes to the same ends from buffers that are alike. -/
theorem settles (h : d.Regular W E) (low high : Nat × Nat) : d.evaluate.Settles W E d low high := by
  have haround {d : Definition K} {low high : Nat × Nat}
      (hd : ∀ f a, Beside W (Joint E d low high) (onBuffers (Buffers.Alike f a)) (d.dispatch f a) (d.dispatch f a)
        fun _ _ => onBuffers (Buffers.Settled f a)) : d.evaluate.Settles W E d low high := by
    rw [d.evaluate_eq_around]
    exact ⟨Evaluate.beside_around hd d.keeps_dispatch,
      fun n f a => Evaluate.keeps_directions d.keeps_dispatch d.sig n f a⟩
  induction h generalizing low high with
  | expressions sig t inputs ht => exact haround (Evaluate.beside_tape (d := .expressions sig t inputs) ht)
  | external sig c hin hout hc hw =>
    exact haround (Evaluate.beside_byDifferences (d := .external sig c) (Evaluate.settles_callable hin hout hc hw))
  | jacobian sig block p hblock _ ih =>
    exact haround (Evaluate.beside_byDifferences (d := .jacobian sig block p)
      (Evaluate.settles_jacobian (fun _ _ => Iff.rfl) hblock (ih _ _)))
  | derivative sig f a p hspreads _ ih =>
    exact haround (Evaluate.beside_byDifferences (d := .derivative sig f a p)
      (Evaluate.settles_derivative (fun _ _ => Iff.rfl) (ih _ _) hspreads))

/-- A call sets all inputs, so it answers the same from any state. -/
theorem beside_call (h : d.Regular W E) (x : Block K) :
    Beside W (Joint E d low high) (onBuffers fun _ _ => True) (d.call x) (d.call x) fun y y' _ _ => y' = y := by
  rw [Definition.call]
  refine (Beside.lift _ (Signature.tame_checkCount _)).bind fun _ _ => .assume (p := x.size = d.sig.inputs.size)
    (fun _ _ _ hm => ?_) fun hx => ?_
  · have hcount := hm.2.1
    rw [Signature.checkCount] at hcount
    split at hcount
    · assumption
    · cases hcount
  · refine Beside.next ((Beside.setInputs (R := fun _ _ => True) hx).before fun _ _ _ _ => trivial) fun _ _ => ?_
    refine Beside.next (R := onBuffers fun b b' => b'.output = b.output) ((((h.settles low high).beside 0 0).before
      fun _ _ _ hm => ⟨hm, .zero _ _, .zero _ _⟩).after fun _ _ _ _ _ hm => hm.2.output) fun _ _ => ?_
    refine .reading fun b b' _ _ _ hout => ?_
    exact .pure fun _ _ _ _ => hout

end Definition.Regular

end Fluxion
