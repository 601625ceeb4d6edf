import Fluxion.Proofs.Function.Sparsity

/-!
Skipping zero seeds is not seen. Two functions of the same expressions, of which one sweeps every direction
and the other only those whose seed is not zero, leave the same buffers and report the same.
-/
set_option autoImplicit false

namespace Fluxion

variable {K : Type} [Number K]

/-- What is reported depends on the buffers only, and on two of the options. -/
theorem Evaluate.regularity_congr {s s' : Signature K} {m m' : Machine K} (hname : s'.name = s.name)
    (hcheck : s'.options.regularityCheck = s.options.regularityCheck)
    (hbuffers : m'.frame.buffers = m.frame.buffers) (f a : Nat) :
    ((regularity s' f a).run m').1 = ((regularity s f a).run m).1 := by
  rw [regularity, regularity, run_bind_ok (Run.run_buffers m'), run_bind_ok (Run.run_buffers m), hname,
    hcheck, hbuffers]
  dsimp only
  split
  · rfl
  · split <;> rfl

/-- A report does not change the buffers. -/
theorem Evaluate.buffers_regularity (s : Signature K) (f a : Nat) (m : Machine K) :
    ((regularity s f a).run m).2.frame.buffers = m.frame.buffers := by
  rw [regularity, run_bind_ok (Run.run_buffers m)]
  dsimp only
  split
  · rfl
  · split <;> rfl

variable [CommRing K] [ExactRing K] {inputs outputs : Array (Matrix (Expr K))}

/-- In any state and for any seeds: the outputs are their values at the inputs, the directions asked for have
their derivatives, and all else is as before, whether zero seeds are skipped or swept. -/
theorem Definition.evaluate_compressDirections (h : Tape.Closed inputs outputs)
    (hin : ∀ m ∈ inputs, m.Sized) (hout : ∀ m ∈ outputs, m.Sized)
    (hr : ∀ e, Expr.ReachedFrom (Matrix.entries outputs) e → e.op ≠ .rem) (o : Options K) (uid : Nat) :
    ∃ skipping sweeping,
      (ofExpressions inputs outputs {o with compressDirections := true}).run uid = (.ok skipping, uid+1) ∧
      (ofExpressions inputs outputs {o with compressDirections := false}).run uid = (.ok sweeping, uid+1) ∧
      ∀ (m : Machine K) (f a : Nat),
        m.frame.buffers.Shaped (inputs.map Matrix.nnz) (outputs.map Matrix.nnz) →
        f ≤ m.frame.buffers.forward → a ≤ m.frame.buffers.adjoint →
        ((skipping.evaluate f a).run m).1 = ((sweeping.evaluate f a).run m).1 ∧
          ((skipping.evaluate f a).run m).2.frame.buffers =
            ((sweeping.evaluate f a).run m).2.frame.buffers ∧
          ((sweeping.evaluate f a).run m).2.frame.buffers =
            Tape.evaluated inputs outputs f a m.frame.buffers := by
  obtain ⟨s, t, hskipping, hs, hx⟩ :=
    Expresses.exists_ofExpressions h hin hout {o with compressDirections := true} uid
  obtain ⟨s', t', hsweeping, hs', hx'⟩ :=
    Expresses.exists_ofExpressions h hin hout {o with compressDirections := false} uid
  refine ⟨_, _, hskipping, hsweeping, fun m f a hm hf ha => ?_⟩
  -- Either evaluation is a report on the same buffers.
  obtain ⟨_, hrun⟩ := hx.run_around_regularity hr (by rwa [hx.inputSizes, hx.outputSizes]) hf ha
  obtain ⟨_, hrun'⟩ := hx'.run_around_regularity hr (by rwa [hx'.inputSizes, hx'.outputSizes]) hf ha
  rw [evaluate, evaluate, hrun, hrun', Evaluate.buffers_regularity, Evaluate.buffers_regularity]
  refine ⟨Evaluate.regularity_congr ?_ ?_ ?_ f a, ?_, ?_⟩
  · rw [Signature.name, Signature.name, hs, hs']
  · rw [hs, hs']
  · rfl
  · rfl
  · rfl

/-- Three directions, of which the middle one has a nonzero forward seed and the last one a nonzero adjoint
seed; two of each are asked for. -/
def mixedBuffers : Buffers ℚ :=
  {Buffers.filled #[2] #[2] 3 3 0 with
    input := #[#[3,4]]
    forwardSeed := #[#[#[0,0]], #[#[1,2]], #[#[5,6]]]
    forwardSens := #[#[#[7,7]], #[#[8,8]], #[#[9,9]]]
    adjointSeed := #[#[#[0,0]], #[#[0,0]], #[#[1,5]]]}

theorem Definition.evaluate_compressDirections_sample :
    Tape.Closed Tape.sampleInputs Tape.sampleOutputs ∧
    (∀ m ∈ Tape.sampleInputs, m.Sized) ∧ (∀ m ∈ Tape.sampleOutputs, m.Sized) ∧
    (∀ e, Expr.ReachedFrom (Matrix.entries Tape.sampleOutputs) e → e.op ≠ .rem) ∧
    mixedBuffers.Shaped (Tape.sampleInputs.map Matrix.nnz) (Tape.sampleOutputs.map Matrix.nnz) ∧
    2 ≤ mixedBuffers.forward ∧ 2 ≤ mixedBuffers.adjoint ∧
    ∃ skipping, (ofExpressions Tape.sampleInputs Tape.sampleOutputs (.standard (1 : ℚ))).run 4 =
        (.ok skipping, 5) ∧
      ((skipping.evaluate 2 2).run ⟨⟨mixedBuffers, .zero⟩, [], .empty⟩).2.frame.buffers.forwardSens =
        #[#[#[0,0]], #[#[11,10]], #[#[9,9]]] := by
  have hsized := Tape.sample_sized
  have hshaped : mixedBuffers.Shaped (Tape.sampleInputs.map Matrix.nnz)
      (Tape.sampleOutputs.map Matrix.nnz) := by
    constructor <;> simp [mixedBuffers, Buffers.filled, Block.filled, Block.sizes, Tape.sampleInputs,
      Tape.sampleOutputs, Matrix.nnz, Matrix.column]
  refine ⟨Tape.sample_closed, hsized.1, hsized.2, Tape.sample_ne_rem, hshaped, by decide, by decide, ?_⟩
  obtain ⟨skipping, sweeping, hskipping, -, hsame⟩ := evaluate_compressDirections Tape.sample_closed
    hsized.1 hsized.2 Tape.sample_ne_rem (.standard 1) 4
  obtain ⟨-, hbuffers, hevaluated⟩ := hsame ⟨⟨mixedBuffers, .zero⟩, [], .empty⟩ 2 2 hshaped (by decide)
    (by decide)
  refine ⟨skipping, hskipping, ?_⟩
  rw [hbuffers, hevaluated]
  decide +kernel

end Fluxion
