import Fluxion.Proofs.Function.Sparsity
import Fluxion.Proofs.Function.UnitSeeds

/-!
The pattern of a block says which symbols an output is made of, and nothing else: neither the options nor
the symbols that are free have a part in it.
-/
set_option autoImplicit false

namespace Fluxion

variable {K : Type} [Number K]

/-- A block has an entry for each input symbol that an output reaches. Whatever the direction of the sweeps,
their splitting, the order of the tape and the use of its slots, this is the pattern that is found, and
outside of it all derivatives are zero. -/
theorem Definition.jacSparsity_reaches {inputs outputs : Array (Matrix (Expr K))}
    (hu : Expr.Coherent (Matrix.entries outputs)) (hin : ∀ m ∈ inputs, m.Sized)
    (hout : ∀ m ∈ outputs, m.Sized) {iind oind : Nat} {m n : Matrix (Expr K)}
    (hm : inputs[iind]? = some m) (hn : outputs[oind]? = some n) :
    ∃ p : Pattern, p.Valid ∧ p.nrow = n.nnz ∧ p.ncol = m.nnz ∧
      (∀ r c, (r,c) ∈ p.entries ↔ ∃ e x s, n.values[r]? = some e ∧ m.values[c]? = some x ∧
        Expr.Reaches (.symbol s) e ∧ s.id = x.id) ∧
      (∀ (_ : CommRing K) (ρ : Symbol → K) (e : Nat × Nat), e ∉ p.entries →
        jacobianAt ρ m.values n.values e = 0) ∧
      ∀ (o : Options K) (uid uid' : Nat) (d : Definition K),
        (ofExpressions inputs outputs o).run uid = (.ok d, uid') →
          d.jacSparsity iind oind true false = .ok p := by
  refine ⟨dependence m.values n.values, valid_dependence _ _, nrow_dependence, ncol_dependence,
    fun r c => ?_, fun _ ρ e he => jacobianAt_eq_zero ρ he, fun o uid uid' d hd => ?_⟩
  · rw [mem_dependence]
    simp only [Expr.uses_iff, exists_and_left]
  · obtain ⟨sig, t, rfl, -, h⟩ := Sorts.of_run hu hin hout hd
    exact h.jacSparsity hm hn

/-- The first symbol of the sample, without the second one, which is free then. -/
def sampleFirst : Array (Matrix (Expr ℚ)) := #[.column #[.symbol ⟨0,"x"⟩]]

theorem Definition.jacSparsity_reaches_sample : Expr.Coherent (Matrix.entries Tape.sampleOutputs) ∧
    (∀ m ∈ sampleFirst, m.Sized) ∧ (∀ m ∈ Tape.sampleOutputs, m.Sized) ∧
    ∃ d p, (ofExpressions sampleFirst Tape.sampleOutputs {Options.standard (1 : ℚ) with allowFree := true}).run 4 =
        (.ok d, 5) ∧
      d.jacSparsity 0 0 true false = .ok p ∧ (0,0) ∈ p.entries ∧ (1,0) ∈ p.entries := by
  have hu := Tape.sample_closed.coherent
  have hin : ∀ m ∈ sampleFirst, m.Sized := by simp [sampleFirst, Matrix.sized_column]
  have hout := Tape.sample_sized.2
  have hdistinct : DistinctSymbols sampleFirst := by
    constructor <;> simp [sampleFirst, Matrix.entries, Matrix.column]
  refine ⟨hu, hin, hout, ?_⟩
  let o : Options ℚ := {Options.standard (1 : ℚ) with allowFree := true}
  obtain ⟨t, ht⟩ := Tape.exists_ofGraph hdistinct Tape.sampleOutputs o.liveVariables o.sorting
  obtain ⟨sig, hd, -⟩ := run_ofExpressions hu hin hout o 4 ht (.inr rfl)
  have hm : sampleFirst[0]? = some sampleFirst[0] := rfl
  have hn : Tape.sampleOutputs[0]? = some Tape.sampleOutputs[0] := rfl
  obtain ⟨p, -, -, -, hmem, -, hpattern⟩ := jacSparsity_reaches hu hin hout hm hn
  refine ⟨_, p, hd, hpattern o 4 5 _ hd, (hmem 0 0).mpr ?_, (hmem 1 0).mpr ?_⟩
  · exact ⟨_, _, ⟨0,"x"⟩, rfl, rfl, .inr (.inr rfl), rfl⟩
  · exact ⟨_, _, ⟨0,"x"⟩, rfl, rfl, .inr (.inl rfl), rfl⟩

end Fluxion
