import Fluxion.Function.Derived
import Fluxion.Proofs.Coloring.Columns
import Fluxion.Proofs.Detect.Symmetric
import Fluxion.Proofs.Function.Evaluate
import Fluxion.Proofs.Tape.Sparsity

/-!
Patterns of the blocks of a function that is made from expressions: whatever the options, an output has
an entry for every input that occurs in it. The partition colors this pattern.
-/
set_option autoImplicit false

namespace Fluxion

variable {K : Type}

theorem Matrix.sized_column (xs : Array K) : (Matrix.column xs).Sized := by
  simp [Matrix.Sized, Matrix.column, Pattern.column]

theorem Tape.sample_sized : (∀ m ∈ sampleInputs, m.Sized) ∧ ∀ m ∈ sampleOutputs, m.Sized := by
  simp [sampleInputs, sampleOutputs, Matrix.sized_column]

variable [Number K]

namespace Sorts

variable {inputs outputs : Array (Matrix (Expr K))} {sig : Signature K} {t : Tape K}
  {m n : Matrix (Expr K)} {iind oind : Nat}

theorem checkInput (h : Sorts inputs outputs sig t) (hm : inputs[iind]? = some m) :
    sig.checkInput iind = .ok m.pattern := by
  rw [Signature.checkInput, h.inputPatterns, Array.getElem?_map, hm]
  rfl

theorem checkOutput (h : Sorts inputs outputs sig t) (hn : outputs[oind]? = some n) :
    sig.checkOutput oind = .ok n.pattern := by
  rw [Signature.checkOutput, h.outputPatterns, Array.getElem?_map, hn]
  rfl

theorem checkRequest_hessian (h : Sorts inputs outputs sig t) (hm : inputs[iind]? = some m) {y : Expr K}
    (hy : outputs[oind]? = some (.scalar y)) :
    (Definition.expressions sig t inputs).checkRequest (.hessian iind oind) = .ok () := by
  have hscalar : sig.checkScalar "hessians" oind = .ok () := by
    have hone : (Matrix.scalar y).pattern.isScalar = true := by
      simp [Matrix.scalar, Pattern.scalar, Pattern.isScalar]
    rw [Signature.checkScalar, h.checkOutput hy, ok_bind, if_pos hone]
    rfl
  have hsig : (Definition.expressions sig t inputs).sig = sig := rfl
  rw [Definition.checkRequest, hsig, h.checkInput hm, ok_bind, hscalar]

theorem detectPattern (h : Sorts inputs outputs sig t) (hm : inputs[iind]? = some m)
    (hn : outputs[oind]? = some n) :
    (Definition.expressions sig t inputs).detectPattern iind oind false =
      .ok (dependence m.values n.values) := by
  obtain ⟨places, slot, hc⟩ := Tape.ofGraph_compiled h.coherent h.tape
  have hthrough := Tape.propagation_through hc h.coherent hm hn
  have hstores := Tape.storesWithin_outputs hc h.coherent
  rw [← h.inputSizes, ← h.outputSizes] at hthrough
  rw [← h.outputSizes] at hstores
  obtain ⟨sweeps, hrun⟩ := Detect.jacobian_run (valid_dependence m.values n.values) hthrough rfl
    ⟨sig.options.adMode, sig.options.adjointPenalty, sig.options.hierarchicalSparsity⟩ 0
  have hunfold : (Definition.expressions sig t inputs).detectPattern iind oind false = (do
      let _ ← sig.checkInput iind
      let _ ← sig.checkOutput oind
      let r := (Detect.jacobian (t.propagation sig.inputSizes sig.outputSizes iind oind)
        ⟨sig.options.adMode, sig.options.adjointPenalty, sig.options.hierarchicalSparsity⟩ false).run 0
      if 0 < r.2 && !t.storesWithin sig.outputSizes then throw (.violation .slotOutside)
      r.1) := rfl
  rw [hunfold, h.checkInput hm, h.checkOutput hn, hrun, hstores]
  simp
  rfl

theorem jacSparsity (h : Sorts inputs outputs sig t) (hm : inputs[iind]? = some m)
    (hn : outputs[oind]? = some n) :
    (Definition.expressions sig t inputs).jacSparsity iind oind true false =
      .ok (dependence m.values n.values) := by
  have hsig : (Definition.expressions sig t inputs).sig = sig := rfl
  rw [Definition.jacSparsity, hsig, h.checkInput hm, h.checkOutput hn, h.detectPattern hm hn]
  rfl

/-- A symmetric block has a symmetric pattern, whatever the options, with an entry for every related pair of
a symmetric relation between outputs and inputs that occur in them. -/
theorem detectPattern_symmetric (h : Sorts inputs outputs sig t) (hm : inputs[iind]? = some m)
    (hn : outputs[oind]? = some n) (hsquare : n.values.size = m.values.size) {S : Nat → Nat → Prop}
    (hS : ∀ r c, S r c → (r,c) ∈ (dependence m.values n.values).entries) (hsymm : ∀ r c, S r c → S c r) :
    ∃ q, (Definition.expressions sig t inputs).detectPattern iind oind true = .ok q ∧
      Detect.SymmetricOver m.values.size S q := by
  obtain ⟨places, slot, hc⟩ := Tape.ofGraph_compiled h.coherent h.tape
  have hthrough := Tape.propagation_through hc h.coherent hm hn
  have hstores := Tape.storesWithin_outputs hc h.coherent
  have hinput : m.pattern.nnz = m.values.size := by
    have hget := congrArg (fun ns : Array Nat => ns[iind]?) h.inputSizes
    simpa [Signature.inputSizes, h.inputPatterns, hm, Matrix.nnz] using hget
  have houtput : n.pattern.nnz = n.values.size := by
    have hget := congrArg (fun ns : Array Nat => ns[oind]?) h.outputSizes
    simpa [Signature.outputSizes, h.outputPatterns, hn, Matrix.nnz] using hget
  rw [← h.inputSizes, ← h.outputSizes] at hthrough
  rw [← h.outputSizes] at hstores
  obtain ⟨q, sweeps, hrun, hover⟩ := Detect.jacobian_symmetric_run (valid_dependence m.values n.values)
    (by simpa using hsquare) hthrough rfl hS hsymm
    ⟨sig.options.adMode, sig.options.adjointPenalty, sig.options.hierarchicalSparsity⟩ 0
  have hunfold : (Definition.expressions sig t inputs).detectPattern iind oind true = (do
      let cols := (← sig.checkInput iind).nnz
      let rows := (← sig.checkOutput oind).nnz
      if true && cols ≠ rows then throw (.invalidPattern (.blockNotSquare sig.name rows cols))
      let r := (Detect.jacobian (t.propagation sig.inputSizes sig.outputSizes iind oind)
        ⟨sig.options.adMode, sig.options.adjointPenalty, sig.options.hierarchicalSparsity⟩ true).run 0
      if 0 < r.2 && !t.storesWithin sig.outputSizes then throw (.violation .slotOutside)
      r.1) := rfl
  refine ⟨q, ?_, hover⟩
  rw [hunfold, h.checkInput hm, h.checkOutput hn, hrun, hstores]
  simp [ok_bind, hinput, houtput, hsquare]

theorem jacSparsity_symmetric (h : Sorts inputs outputs sig t) (hm : inputs[iind]? = some m)
    (hn : outputs[oind]? = some n) {q : Pattern}
    (hq : (Definition.expressions sig t inputs).detectPattern iind oind true = .ok q) :
    (Definition.expressions sig t inputs).jacSparsity iind oind true true = .ok q := by
  have hsig : (Definition.expressions sig t inputs).sig = sig := rfl
  rw [Definition.jacSparsity, hsig, h.checkInput hm, h.checkOutput hn, hq]
  rfl

/-- A pattern over entries is spread over the elements that they belong to. -/
theorem enlarge (h : Sorts inputs outputs sig t) (hm : inputs[iind]? = some m) (hn : outputs[oind]? = some n)
    (hmv : m.pattern.Valid) (hnv : n.pattern.Valid) (p : Pattern) :
    (Definition.expressions sig t inputs).enlarge p iind oind =
      p.enlarge? n.pattern.numel m.pattern.numel n.pattern.elements m.pattern.elements := by
  have hsig : (Definition.expressions sig t inputs).sig = sig := rfl
  rw [Definition.enlarge, hsig, h.checkInput hm, ok_bind, h.checkOutput hn, ok_bind,
    hnv.checkStarts, ok_bind, hmv.checkStarts, ok_bind]

end Sorts

/-- Seeds of columns, or seeds of rows. -/
inductive Partition.Colors (p : Pattern) : Partition → Prop
  | forward : Colors p (.forward (Coloring.columns p))
  | adjoint : Colors p (.adjoint (Coloring.rows p))

omit [Number K] in
/-- A symmetric block has the seeds of a star coloring. -/
theorem partition_symmetric {d : Definition K} {iind oind n : Nat} {S : Nat → Nat → Prop} {q : Pattern}
    (hq : d.jacSparsity iind oind true true = .ok q) (hover : Detect.SymmetricOver n S q) :
    ∃ s, d.partition iind oind true true = .ok (.forward s) ∧ Coloring.Star q s := by
  obtain ⟨s, hstar, h⟩ := Coloring.star_isStar hover.valid hover.isSymmetric
  refine ⟨s, ?_, h⟩
  rw [Definition.partition, hq, ok_bind, if_pos rfl, hstar]
  rfl

/-- The partition is a coloring of the pattern, on the side that the options choose. -/
theorem Sorts.partition {inputs outputs : Array (Matrix (Expr K))} {sig : Signature K} {t : Tape K}
    {m n : Matrix (Expr K)} {iind oind : Nat} (h : Sorts inputs outputs sig t)
    (hm : inputs[iind]? = some m) (hn : outputs[oind]? = some n) :
    ∃ side, (Definition.expressions sig t inputs).partition iind oind true false = .ok side ∧
      side.Colors (dependence m.values n.values) := by
  have hsig : (Definition.expressions sig t inputs).sig = sig := rfl
  rw [Definition.partition, h.jacSparsity hm hn, hsig, ok_bind, if_neg Bool.false_ne_true]
  cases sig.options.adMode with
  | forward => exact ⟨_, rfl, .forward⟩
  | reverse => exact ⟨_, rfl, .adjoint⟩
  | automatic =>
    by_cases hwins : forwardWins sig.options.adjointPenalty (Coloring.columns (dependence m.values n.values)).nrow
        (Coloring.rows (dependence m.values n.values)).nrow = true
    · exact ⟨_, if_pos hwins, .forward⟩
    · exact ⟨_, if_neg hwins, .adjoint⟩

end Fluxion
