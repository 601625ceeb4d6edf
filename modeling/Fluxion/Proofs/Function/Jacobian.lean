import Fluxion.Proofs.Function.Assemble

/-!
Jacobian values. Whatever the options and whatever an instance was asked before, a block has the derivatives
at the inputs of the instance, each in the place of its entry, and all others are zero.
-/
set_option autoImplicit false

namespace Fluxion

variable {K : Type}

section Blocks

variable [Field K] [Number K] [ExactField K] {inputs outputs : Array (Matrix (Expr K))}
  {sig : Signature K} {t : Tape K} {m n : Matrix (Expr K)} {iind oind : Nat}

/-- The block of an instance that is ready. -/
theorem Expresses.run_jacobianValues (h : Expresses inputs outputs sig t)
    (hr : ∀ e, Expr.ReachedFrom (Matrix.entries outputs) e → e.op ≠ .rem)
    (hforward : 0 < sig.options.maxForward) (hadjoint : 0 < sig.options.maxAdjoint)
    (hm : inputs[iind]? = some m) (hn : outputs[oind]? = some n) {mach : Machine K}
    (hready : mach.frame.Ready sig) :
    ∃ mach', ((Definition.expressions sig t inputs).jacobianValues iind oind false).run mach =
      (.ok ⟨dependence m.values n.values, (dependence m.values n.values).entries.map
        (jacobianAt (Tape.valuation 0 inputs mach.frame.buffers.input) m.values n.values)⟩, mach') := by
  obtain ⟨side, hpartition, hside⟩ := h.partition hm hn
  obtain ⟨mach', hrun⟩ := Assemble.run_job h hr hm hn (hside.fills (valid_dependence _ _)) hready hforward hadjoint
  refine ⟨mach', ?_⟩
  rw [Definition.jacobianValues, h.jacSparsity hm hn, run_bind_ok (run_liftExcept _), hpartition,
    run_bind_ok (run_liftExcept _)]
  change ((Assemble.Job.of iind oind (dependence m.values n.values) side false).run sig
    (Evaluate.around sig (Evaluate.tape sig t)) >>= _).run mach = _
  rw [run_bind_ok hrun]
  rfl

end Blocks

/-- The values of a Jacobian block stand on its pattern, and no derivative is missing there. -/
theorem Definition.jacobianValues_correct [Field K] [Number K] [ExactField K]
    {inputs outputs : Array (Matrix (Expr K))} (h : Tape.Closed inputs outputs)
    (hin : ∀ m ∈ inputs, m.Sized) (hout : ∀ m ∈ outputs, m.Sized)
    (hr : ∀ e, Expr.ReachedFrom (Matrix.entries outputs) e → e.op ≠ .rem) {o : Options K}
    (hforward : 0 < o.maxForward) (hadjoint : 0 < o.maxAdjoint) (uid : Nat) :
    ∃ d, (ofExpressions inputs outputs o).run uid = (.ok d, uid+1) ∧
      ∀ iind oind m n, inputs[iind]? = some m → outputs[oind]? = some n →
        ∃ p, d.jacSparsity iind oind true false = .ok p ∧ p.Valid ∧ p.nrow = n.nnz ∧ p.ncol = m.nnz ∧
          (∀ ρ e, e ∉ p.entries → jacobianAt ρ m.values n.values e = 0) ∧
          ∀ i, Instance.of? d = .ok i → ∀ calls : List (Call K),
            ((i.after calls).run (d.jacobianValues iind oind false)).1 =
              .ok ⟨p, p.entries.map (jacobianAt
                (Tape.valuation 0 inputs (i.after calls).frame.buffers.input) m.values n.values)⟩ := by
  obtain ⟨sig, t, hd, rfl, hx⟩ := Expresses.exists_ofExpressions h hin hout o uid
  refine ⟨_, hd, fun iind oind m n hm hn => ⟨_, hx.jacSparsity hm hn, valid_dependence _ _,
    nrow_dependence, ncol_dependence, fun ρ e => jacobianAt_eq_zero ρ, fun i hi calls => ?_⟩⟩
  have hdef : i.definition = .expressions sig t inputs := (Instance.of?_eq_ok.mp hi).2.2 ▸ rfl
  obtain ⟨-, hready⟩ := hx.ready_after hr hdef (Frame.ready_of? hi) calls
  have hready' : (Machine.mk (i.after calls).frame (i.after calls).inner .empty).frame.Ready sig := hready
  obtain ⟨mach', hrun⟩ := hx.run_jacobianValues hr hforward hadjoint hm hn hready'
  exact congrArg Prod.fst hrun

/-- The block of the sample where both inputs are zero. -/
theorem Definition.jacobianValues_correct_sample : Tape.Closed Tape.sampleInputs Tape.sampleOutputs ∧
    (∀ m ∈ Tape.sampleInputs, m.Sized) ∧ (∀ m ∈ Tape.sampleOutputs, m.Sized) ∧
    (∀ e, Expr.ReachedFrom (Matrix.entries Tape.sampleOutputs) e → e.op ≠ .rem) ∧
    0 < (Options.standard (1 : ℚ)).maxForward ∧ 0 < (Options.standard (1 : ℚ)).maxAdjoint ∧
    ∃ d i, (ofExpressions Tape.sampleInputs Tape.sampleOutputs (.standard 1)).run 4 = (.ok d, 5) ∧
      Instance.of? d = .ok i ∧ ∃ p, d.jacSparsity 0 0 true false = .ok p ∧
        (i.run (d.jacobianValues 0 0 false)).1 = .ok ⟨p, #[1,0,0,0]⟩ := by
  have hsized := Tape.sample_sized
  refine ⟨Tape.sample_closed, hsized.1, hsized.2, Tape.sample_ne_rem, by decide, by decide, ?_⟩
  obtain ⟨d, hd, hblocks⟩ := jacobianValues_correct Tape.sample_closed hsized.1 hsized.2 Tape.sample_ne_rem
    (o := .standard 1) (by decide) (by decide) 4
  obtain ⟨sig, t, hd', ho, hx⟩ := Expresses.exists_ofExpressions Tape.sample_closed hsized.1 hsized.2
    (.standard 1) 4
  obtain rfl : .expressions sig t Tape.sampleInputs = d := Except.ok.inj (congrArg Prod.fst (hd'.symm.trans hd))
  obtain ⟨p, hp, -, -, -, -, hvalues⟩ := hblocks 0 0 _ _ rfl rfl
  have hi : Instance.of? (.expressions sig t Tape.sampleInputs) =
      .ok (.of (.expressions sig t Tape.sampleInputs)) :=
    Instance.of?_eq_ok.mpr ⟨by simp [Definition.sig, ho]; decide, by simp [Definition.sig, ho]; decide, rfl⟩
  have hrun := hvalues _ hi []
  have hpattern : p = dependence Tape.sampleInputs[0].values Tape.sampleOutputs[0].values := by
    have hm : Tape.sampleInputs[0]? = some Tape.sampleInputs[0] := rfl
    have hn : Tape.sampleOutputs[0]? = some Tape.sampleOutputs[0] := rfl
    exact Except.ok.inj (hp.symm.trans (hx.jacSparsity hm hn))
  refine ⟨_, _, hd, hi, p, hp, ?_⟩
  refine hrun.trans (congrArg Except.ok (congrArg (Matrix.mk p) ?_))
  have hinput : (Instance.of (.expressions sig t Tape.sampleInputs)).frame.buffers.input = #[#[0,0]] := by
    change Block.filled sig.inputSizes 0 = _
    rw [hx.inputSizes]
    simp [Block.filled, Tape.sampleInputs, Matrix.nnz, Matrix.column, Array.replicate_succ]
  change p.entries.map (jacobianAt (Tape.valuation 0 Tape.sampleInputs
    (Instance.of (.expressions sig t Tape.sampleInputs)).frame.buffers.input) _ _) = _
  rw [hinput, hpattern]
  decide +kernel

end Fluxion
