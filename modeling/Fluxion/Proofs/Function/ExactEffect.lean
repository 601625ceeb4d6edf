import Fluxion.Proofs.Function.SingleSeeds
import Fluxion.Proofs.Function.Sweeps

/-!
The effect of a function that is made from expressions, in exact arithmetic: the values of the outputs, and the
derivatives along a seed or weighted by one. So what sweeps see of a block is known, and with it what is recovered.
-/
set_option autoImplicit false

namespace Fluxion

variable {K : Type}

/-- Calls are steps. -/
theorem Instance.through_ask [Number K] (i : Instance K) (calls : List (Call K)) :
    i.through (calls.map .ask) = i.after calls := by
  rw [through, List.foldl_map]
  rfl

/-- A sound definition answers its effect, whatever an instance of it was asked before. -/
theorem Definition.Sound.answers [Number K] {d : Definition K} {roots : List (Expr K)} (h : d.Sound Callable.Complete roots)
    {x : Block K} (hx : x.sizes = d.sig.inputSizes) {ms : Array (Matrix K)} (hp : d.sig.outputs = ms.map (·.pattern))
    (hy : d.effect.value x = some (ms.map (·.values))) : d.Answers x ms := by
  refine ⟨hp, fun i hi calls => ?_⟩
  have hreached : (i.after calls).Reached d := ⟨i, calls.map .ask, hi, (i.through_ask calls).symm⟩
  have hseated := ((h.sturdy hreached.room (.inl trivial)).seated hreached).2
  exact ((h.decides hreached.room.granted_one).yields_call hseated hx).iff_ok.mp hy

variable [Field K] [Number K] [ExactField K] {inputs outputs : Array (Matrix (Expr K))} {sig : Signature K} {t : Tape K}
  {m n : Matrix (Expr K)} {iind oind : Nat} {x v w : Block K}

namespace Expresses

omit [Field K] [ExactField K] in
theorem draws (h : Expresses inputs outputs sig t) (hin : ∀ m ∈ inputs, m.Sized) (hout : ∀ m ∈ outputs, m.Sized) :
    Draws (Matrix.entries inputs ++ Matrix.entries outputs) inputs outputs sig t :=
  ⟨h.coherent, fun _ he => .root (List.mem_append_left _ he), fun _ he => .root (List.mem_append_right _ he), h.tape,
    h.inputPatterns, h.outputPatterns, hin, fun m hm => (hout m hm).ge⟩

variable (h : Expresses inputs outputs sig t) (hin : ∀ m ∈ inputs, m.Sized) (hout : ∀ m ∈ outputs, m.Sized)
  (hr : ∀ e, Expr.ReachedFrom (Matrix.entries outputs) e → e.op ≠ .rem)

include h hin hout hr in
/-- What an evaluation leaves in its buffers is what the effect tells. -/
theorem gives {b : Buffers K} (hb : b.Shaped sig.inputSizes sig.outputSizes) :
    (Definition.expressions sig t inputs).effect.Gives b.forward b.adjoint b
      (Tape.evaluated inputs outputs b.forward b.adjoint b) := by
  let m : Machine K := ⟨⟨b, 0, 0, 0⟩, [], .empty⟩
  have hdecides := (Evaluate.decides_tape (d := .expressions sig t inputs) (h.draws hin hout)).evaluate
  have hfits : m.Fits (.expressions sig t inputs) b.directions b.directions :=
    ⟨⟨hb, ⟨le_rfl, le_rfl⟩, le_rfl, le_rfl⟩, Definition.innerFits_nil _⟩
  obtain ⟨stats, hrun⟩ := h.run_around (m := m) ExactField.finite hr hb le_rfl le_rfl
  exact ((hdecides _ _ _ _ m hfits le_rfl le_rfl).of_ok hrun).2.gives

include h hin hout hr

theorem effect_value (hx : x.sizes = inputs.map Matrix.nnz) : (Definition.expressions sig t inputs).effect.value x =
    some (Block.ofEntries (Expr.value (Tape.valuation 0 inputs x)) outputs) := by
  have hfilled := Buffers.shaped_filled sig.inputSizes sig.outputSizes 0 0 (0 : K)
  exact (h.gives hin hout hr (b := {Buffers.filled sig.inputSizes sig.outputSizes 0 0 0 with input := x})
    {hfilled with input := hx.trans h.inputSizes.symm}).value

theorem effect_forward (hx : x.sizes = inputs.map Matrix.nnz) (hv : v.sizes = inputs.map Matrix.nnz) :
    (Definition.expressions sig t inputs).effect.forward x v =
      some (Tape.tangent inputs outputs (Tape.valuation 0 inputs x) v) := by
  have hfilled := Buffers.shaped_filled sig.inputSizes sig.outputSizes 1 0 (0 : K)
  have hgives := h.gives hin hout hr
    (b := {Buffers.filled sig.inputSizes sig.outputSizes 1 0 0 with input := x, forwardSeed := #[v]})
    {hfilled with
      input := hx.trans h.inputSizes.symm
      forwardSeed := fun s hs => by rw [Array.mem_singleton.mp hs, hv, h.inputSizes]}
  exact (hgives.forward 0 Nat.one_pos).trans (congrArg some (Buffers.getD_firstBlocks Nat.one_pos (by simp [Buffers.filled]) _))

theorem effect_adjoint (hx : x.sizes = inputs.map Matrix.nnz) (hw : w.sizes = outputs.map Matrix.nnz) :
    (Definition.expressions sig t inputs).effect.adjoint x w =
      some (Tape.gradient inputs outputs (Tape.valuation 0 inputs x) w) := by
  have hfilled := Buffers.shaped_filled sig.inputSizes sig.outputSizes 0 1 (0 : K)
  have hgives := h.gives hin hout hr
    (b := {Buffers.filled sig.inputSizes sig.outputSizes 0 1 0 with input := x, adjointSeed := #[w]})
    {hfilled with
      input := hx.trans h.inputSizes.symm
      adjointSeed := fun s hs => by rw [Array.mem_singleton.mp hs, hw, h.outputSizes]}
  exact (hgives.adjoint 0 Nat.one_pos).trans (congrArg some (Buffers.getD_firstBlocks Nat.one_pos (by simp [Buffers.filled]) _))

/-- A color sees its sweep. -/
theorem effect_sees (iind oind : Nat) (hx : x.sizes = inputs.map Matrix.nnz) (side : Partition) (p : Pattern) (symmetric : Bool) (k : Nat) :
    (Definition.expressions sig t inputs).effect.sees sig (.of iind oind p side symmetric) x k =
      some (Assemble.sweepOf inputs outputs (Tape.valuation 0 inputs x) side iind oind k) := by
  have hins := h.inputSizes
  have houts := h.outputSizes
  cases side with
  | forward s =>
    have hforward := h.effect_forward hin hout hr hx
      (Assemble.sizes_unitSeed (K := K) (inputs.map Matrix.nnz) iind (s.row k))
    rw [← hins] at hforward
    refine (congrArg (Option.map (·.getD oind #[])) hforward).trans ?_
    rw [Assemble.sweepOf, ← hins]
    rfl
  | adjoint s =>
    have hadjoint := h.effect_adjoint hin hout hr hx
      (Assemble.sizes_unitSeed (K := K) (outputs.map Matrix.nnz) oind (s.row k))
    rw [← houts] at hadjoint
    refine (congrArg (Option.map (·.getD iind #[])) hadjoint).trans ?_
    rw [Assemble.sweepOf, ← houts]
    rfl

/-- Colors that fill a pattern give it its derivatives, if there is a direction for them. -/
theorem effect_values (hm : inputs[iind]? = some m) (hn : outputs[oind]? = some n) {side : Partition} {p : Pattern}
    (hside : side.Fills (dependence m.values n.values) p)
    (hmost : side.colors = 0 ∨ 1 ≤ side.select sig.options.limits) (hx : x.sizes = inputs.map Matrix.nnz) :
    (Definition.expressions sig t inputs).effect.values sig (.of iind oind p side false) x =
      some (p.entries.map (jacobianAt (Tape.valuation 0 inputs x) m.values n.values)) := by
  have hsees := h.effect_sees hin hout hr iind oind hx side p false
  rw [Effect.values, if_pos ⟨hmost, by rw [h.effect_value hin hout hr hx]; rfl, fun k _ => by rw [hsees]; rfl⟩,
    ← Symbolic.recovered_eq h.closed hm hn hside]
  simp only [Effect.recovers, Nat.zero_add, hsees, Option.getD_some, Number.zero_eq]
  rfl

end Expresses

end Fluxion
