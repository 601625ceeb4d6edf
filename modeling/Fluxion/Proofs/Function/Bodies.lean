import Fluxion.Proofs.Function.Call
import Fluxion.Proofs.Function.Colorwise

/-!
Answers of callables, and of Jacobians of functions whose evaluations are known. A fault of the parent is a fault of
the answer, and the outputs that were there before do not matter.
-/
set_option autoImplicit false

namespace Fluxion

open Run

variable {K : Type} {d p : Definition K} {low high : Nat × Nat} {m n : Machine K} {body : Body K}
  {g : Block K → Option (Block K)}

/-- A body that settles answers `g`, if its value does. -/
theorem Body.Answers.of_settles (hs : ∀ low high, body.Settles True True d low high)
    (hk : ∀ (I : Frame K → Prop) x y, Keeps I (body x y))
    (hg : ∀ low high m x y, m.Fits d low high → x.sizes = d.sig.inputSizes → y.sizes = d.sig.outputSizes →
      Hinges True m (body x y) fun r _ => g x = if r.2.isSome then none else some r.1) : body.Answers g d := by
  intro low high m x y hm hx hy
  obtain ⟨r, n, hrun, hvalue⟩ := (hg low high m x y hm hx hy).exists_ok trivial
  have hends := hs low high (fun _ _ => True) x y y hx hy hy (fun _ => rfl) m m ⟨hm, hm, fun _ => rfl⟩ trivial
  have hframe := hk (fun f => f = m.frame) x y m rfl
  rw [hrun] at hends hframe
  exact .intro_ok hrun trivial ⟨hvalue, hends.2.1.sizes, hframe, hends.1.left⟩

/-! ### Callables -/

/-- The outputs that a callable answers. -/
def Callable.answer (c : Callable K) (x : Block K) : Option (Block K) := (c.evaluate x).toOption

theorem Evaluate.answers_callable {c : Callable K} (hin : d.sig.inputs = c.inputs) (hout : d.sig.outputs = c.outputs)
    (hc : c.Complete) : (callable d.sig c).Answers c.answer d := by
  refine .of_settles (fun low high => settles_callable hin hout (.inl trivial) (.inl trivial))
    (fun I x y => keeps_callable d.sig c x y) fun low high m x y hm hx hy => .modifying ?_
  have hx' : Block.sizes x = c.inputs.map Pattern.nnz := by rw [hx, Signature.inputSizes, hin]
  rw [Callable.answer]
  cases hr : c.evaluate x with
  | ok new =>
    have hsizes : new.sizes = y.sizes := (hc x new hx' hr).trans (by rw [hy, Signature.outputSizes, hout])
    refine .pure ?_
    dsimp only
    rw [overlay_eq hsizes]
    rfl
  | error e => exact .pure rfl

/-! ### Jacobians -/

/-- The values of a block that a callable answers, if they are as many as the pattern has places. -/
def Callable.blockAnswer (c : Callable K) (block : JacobianBlock) (x : Block K) : Option (Array K) :=
  (c.jacobian block.iind block.oind).bind fun jac => (jac x).toOption.filter (·.size = block.pattern.nnz)

theorem Evaluate.yields_callableJacobian (sig : Signature K) (c : Callable K) (block : JacobianBlock) (x : Block K)
    (m : Machine K) :
    Yields (c.blockAnswer block x) m (callableJacobian sig c block x) fun _ n => n.frame = m.frame := by
  refine Hinges.modifying ?_
  rw [Callable.blockAnswer]
  cases c.jacobian block.iind block.oind with
  | none => exact Yields.throw
  | some jac =>
    rw [Option.bind_some]
    dsimp only
    cases jac x with
    | ok values =>
      dsimp only
      by_cases hsize : values.size = block.pattern.nnz
      · rw [if_pos hsize, Except.toOption, Option.filter_some, if_pos (decide_eq_true hsize)]
        exact Yields.pure rfl
      · rw [if_neg hsize, Except.toOption, Option.filter_some, if_neg (by simpa using hsize)]
        exact Yields.throw
    | error e => exact Yields.throw

variable [Number K] {E : Effect K} {eval : Evaluation K}

namespace Effect

/-- The values of a block of `p`, from sweeps or from the callable. -/
def blockValues (E : Effect K) (block : JacobianBlock) (p : Definition K) (x : Block K) : Option (Array K) :=
  match block.source, p.callable? with
  | .sweeps side, _ => E.values p.sig (.of block.iind block.oind block.pattern side false) x
  | .callable, some c => E.value x >>= fun _ => c.blockAnswer block x
  | .callable, none => none

/-- The values of a block, and the outputs of `p`. -/
def parts (E : Effect K) (block : JacobianBlock) (p : Definition K) (x : Block K) : Option (Array K × Block K) := do
  let values ← E.blockValues block p x
  let outputs ← E.value x
  return (values, outputs)

/-- The outputs of a Jacobian: the block, then the outputs of `p`. -/
def jacobian (E : Effect K) (sig : Signature K) (block : JacobianBlock) (p : Definition K) (x : Block K) :
    Option (Block K) := do
  let (values, outputs) ← E.parts block p x
  let size := sig.outputSizes.getD 0 0
  if block.layout = .jacobian && values.size ≠ size then none
  else some (#[Evaluate.firstOutput block values (.replicate size Number.zero)] ++ outputs)

omit [Number K] in
/-- Whether there are outputs, an evaluation without directions tells. -/
theorem has_zero_iff {b : Buffers K} : E.Has 0 0 b ↔ (E.value b.input).isSome :=
  ⟨fun h => h.value, fun h => ⟨h, fun _ hk => absurd hk (Nat.not_lt_zero _), fun _ hk => absurd hk (Nat.not_lt_zero _)⟩⟩

theorem Decides.yields_blockValues (h : E.Decides p eval) {W : Prop} {sig : Signature K} {block : JacobianBlock}
    (hblock : block.Fits W sig p) (hm : m.Fits p p.sig.options.initial (p.sig.options.granted 1 1)) :
    Yields (E.blockValues block p m.frame.buffers.input) m
      (Evaluate.blockValues block p eval m.frame.buffers.input) fun _ n =>
        E.value m.frame.buffers.input = some n.frame.buffers.output := by
  rw [Evaluate.blockValues, blockValues]
  cases hsource : block.source with
  | sweeps side =>
    have hlimited : Limited p.sig.options (p.sig.options.granted 1 1) :=
      ⟨p.sig.options.grants_granted (Nat.le_refl 1) (Nat.le_refl 1),
        Nat.max_le.mpr ⟨Nat.min_le_right _ _, Nat.min_le_right _ _⟩,
        Nat.max_le.mpr ⟨Nat.min_le_right _ _, Nat.min_le_right _ _⟩⟩
    exact (h.yields_run _ hm (hblock.room.mono hm.frame.forward.2 hm.frame.adjoint.2) hlimited).mono
      fun _ _ _ hn => hn.1
  | callable =>
    obtain ⟨c, hc, -, -⟩ := hblock.values hsource
    rw [hc]
    refine Yields.next ((h _ _ 0 0 m hm (Nat.zero_le _) (Nat.zero_le _)).congr has_zero_iff) fun _ n hn => ?_
    exact (Evaluate.yields_callableJacobian p.sig c block _ n).mono fun _ n' _ hframe => by
      rw [hframe]
      exact hn.gives.value

end Effect

/-- A Jacobian answers the values of its block with the outputs of the parent. -/
theorem Evaluate.answers_jacobian (h : E.Decides p eval) (hd : Over d p 1 1) {W : Prop} {block : JacobianBlock}
    (hblock : block.Fits W d.sig p)
    (hsettles : eval.Settles True True p p.sig.options.initial (p.sig.options.granted 1 1)) :
    (jacobian block p eval).Answers (E.jacobian d.sig block p) d := by
  have hblock' : block.Fits True d.sig p := by
    obtain ⟨first, hfirst, -⟩ := hblock.outputs
    refine ⟨hblock.inputs, ⟨first, hfirst, .inl trivial⟩, fun hs => ?_, hblock.room⟩
    obtain ⟨c, hc, hin, -⟩ := hblock.values hs
    exact ⟨c, hc, hin, .inl trivial⟩
  refine .of_settles (fun low high => settles_jacobian hd hblock' hsettles)
    (fun I x y => keeps_jacobian block p eval x y) fun low high m x y hm hx hy => ?_
  have hx : x.sizes = p.sig.inputSizes := by rw [hx, Signature.inputSizes, hblock.inputs, Signature.inputSizes]
  have hinside := fits_inside hd hm
  rw [jacobian_eq]
  refine (Yields.inParent (o := E.parts block p x) (Q := fun _ _ => True) ?_).observe.after fun r n hr => ?_
  · have hsize : (m.inside p.sig.frame).frame.buffers.input.size = x.size :=
      Block.size_eq (hinside.frame.shaped.input.trans hx.symm)
    rw [Yields, Hinges, run_bind_ok (Signature.run_setInputs hx hsize), ← Hinges, ← Yields]
    have hshaped := hinside.frame.shaped
    have hset : ((m.inside p.sig.frame).withBuffers {(m.inside p.sig.frame).frame.buffers with input := x}).Fits p
        p.sig.options.initial (p.sig.options.granted 1 1) :=
      ⟨⟨⟨hx, hshaped.output, hshaped.forwardSeed, hshaped.forwardSens, hshaped.adjointSeed, hshaped.adjointSens,
        hshaped.forward, hshaped.adjoint⟩, hinside.frame.forward, hinside.frame.adjoint⟩, hinside.inner⟩
    refine (h.yields_blockValues hblock hset).bind fun values n _ hn => Hinges.reading ?_
    change E.value x = some n.frame.buffers.output at hn
    rw [hn]
    exact Yields.pure trivial
  · have hold : (y.getD 0 #[]).size = d.sig.outputSizes.getD 0 0 := by
      obtain ⟨first, houts, -⟩ := hblock.outputs
      rw [← hy, Block.sizes, Array.getD_eq_getD_getElem?, Array.getD_eq_getD_getElem?, Array.getElem?_map]
      cases y[0]? <;> rfl
    rw [Effect.jacobian, hr.1, ← hold]
    cases r with
    | error e => exact .pure rfl
    | ok r =>
      obtain ⟨values, outputs⟩ := r
      have hfirst : firstOutput block values (.replicate (y.getD 0 #[]).size Number.zero) =
          firstOutput block values (y.getD 0 #[]) := firstOutput_congr block values Array.size_replicate
      rw [Except.toOption, Option.bind_eq_bind, Option.bind_some]
      dsimp only
      rw [hfirst]
      refine .ite (fun hc => .pure (if_pos hc)) fun hc => .pure (if_neg hc)

end Fluxion
