import Fluxion.Proofs.Function.Directionwise
import Fluxion.Proofs.Function.Seedwise

/-!
What the evaluations of a definition compute. By induction on how the definition stands on its parents, every
evaluation of it is decided by the inputs and by one seed at a time.
-/
set_option autoImplicit false

namespace Fluxion

open Run

variable {K : Type} [Number K]

namespace Effect.Decides

variable {d p : Definition K} {E : Effect K} {sig : Signature K} {W : Prop}

theorem evaluate (h : E.Decides d d.dispatch) : ((E.skipping d.sig).checking d.sig).Decides d d.evaluate := by
  rw [d.evaluate_eq_around]
  exact h.around

/-- From the effect of the parent that of a Jacobian. -/
theorem jacobian (h : E.Decides p p.evaluate) {block : JacobianBlock} (hblock : block.Fits W sig p)
    (hp : p.Regular True True) :
    (ofBody sig (E.jacobian sig block p)).Decides (.jacobian sig block p) (Definition.jacobian sig block p).dispatch :=
  Evaluate.decides_byDifferences (d := .jacobian sig block p)
    (Evaluate.answers_jacobian h (fun _ _ => Iff.rfl) hblock (hp.settles _ _))

/-- From the effect of the parent that of a derivative. -/
theorem derivative (h : E.Decides p p.evaluate) {f a : Nat} (hspreads : p.Spreads W sig f a)
    (hp : p.Regular True True) :
    (ofBody sig (E.derivative p f a)).Decides (.derivative sig f a p) (Definition.derivative sig f a p).dispatch :=
  Evaluate.decides_byDifferences (d := .derivative sig f a p)
    (Evaluate.answers_derivative h (fun _ _ => Iff.rfl) hspreads (hp.settles _ _))

end Effect.Decides

namespace Definition

/-- What the evaluator of a definition tells, before zero seeds are skipped and values are checked. -/
def bareEffect : Definition K → Effect K
  | expressions s t _ => .ofTape t s.inputSizes s.outputSizes
  | external s c => .ofBody s c.answer
  | jacobian s block p => .ofBody s (((p.bareEffect.skipping p.sig).checking p.sig).jacobian s block p)
  | derivative s f a p => .ofBody s (((p.bareEffect.skipping p.sig).checking p.sig).derivative p f a)

/-- What an evaluation tells. -/
def effect (d : Definition K) : Effect K := (d.bareEffect.skipping d.sig).checking d.sig

variable {d : Definition K} {roots : List (Expr K)}

/-- One induction over the parents: evaluators are decided by inputs and single seeds. -/
theorem Sound.decides_dispatch (h : d.Sound Callable.Complete roots) (hroom : Room (d.sig.options.granted 1 1)) :
    d.bareEffect.Decides d d.dispatch := by
  have hregular {e : Definition K} (he : e.Sound Callable.Complete roots) (hr : Room (e.sig.options.granted 1 1)) :
      e.Regular True True := he.regular (fun _ _ => .inl trivial) (.inl trivial) hr
  induction h with
  | @expressions sig t inputs _ hd => exact Evaluate.decides_tape (d := .expressions sig t inputs) hd
  | @external sig c hin hout hc =>
    exact Evaluate.decides_byDifferences (d := .external sig c) (Evaluate.answers_callable hin hout hc)
  | @jacobian sig block p hblock hp ih =>
    have hdecides := ih (Options.granted_congr hblock.counts ▸ hroom)
    cases hregular (.jacobian hblock hp) hroom with
    | jacobian _ _ _ hfits hp => exact hdecides.evaluate.jacobian hfits hp
  | @derivative sig f a p hin hout hcounts hp ih =>
    have hdecides := ih (Options.granted_congr hcounts ▸ hroom)
    cases hregular (.derivative hin hout hcounts hp) hroom with
    | derivative _ _ _ _ hspreads hp => exact hdecides.evaluate.derivative hspreads hp

theorem Sound.decides (h : d.Sound Callable.Complete roots) (hroom : Room (d.sig.options.granted 1 1)) :
    d.effect.Decides d d.evaluate := (h.decides_dispatch hroom).evaluate

end Definition

end Fluxion
