import Fluxion.Function.Symbolic
import Fluxion.Proofs.Function.Evaluate
import Fluxion.Proofs.Tape.SymbolicReplay

/-!
Replays of a function over its own input symbols. The outputs that are made have the values of the outputs
that there were, and the sensitivities have the values of the derivatives, in every reading of the constants.
-/
set_option autoImplicit false

namespace Fluxion

variable {K R : Type}

theorem Block.image_ofEntries {T U : Type} (f : T → U) (g : Expr K → T) (ms : Array (Matrix (Expr K))) :
    (Block.ofEntries g ms).image f = Block.ofEntries (fun e => f (g e)) ms := by
  simp [Block.image, Block.ofEntries, Function.comp_def]

theorem Block.ofEntries_congr {T : Type} {f g : Expr K → T} {ms : Array (Matrix (Expr K))}
    (h : ∀ e ∈ Matrix.entries ms, f e = g e) : Block.ofEntries f ms = Block.ofEntries g ms := by
  refine Array.map_congr_left fun m hm => Array.map_congr_left fun e he => h e ?_
  exact List.mem_flatMap.mpr ⟨m, Array.mem_toList_iff.mpr hm, Array.mem_toList_iff.mpr he⟩

theorem Block.ofEntries_changed {T : Type} (g : Expr R → T) (f : K → R) (ms : Array (Matrix (Expr K))) :
    Block.ofEntries g (Matrix.changed f ms) = Block.ofEntries (fun e => g (e.map f)) ms := by
  simp [Block.ofEntries, Matrix.changed, Matrix.map, Function.comp_def]

theorem Buffers.Shaped.image {T U : Type} {ins outs : Array Nat} {b : Buffers T} (h : b.Shaped ins outs)
    (f : T → U) : (b.image f).Shaped ins outs := by
  have hall {ns : Array Nat} {bs : Array (Block T)} (hb : ∀ x ∈ bs, x.sizes = ns) :
      ∀ x ∈ bs.map (Block.image f), x.sizes = ns := by
    intro x hx
    obtain ⟨y, hy, rfl⟩ := Array.mem_map.mp hx
    rw [Block.sizes_image, hb y hy]
  exact ⟨(Block.sizes_image _ _).trans h.input, (Block.sizes_image _ _).trans h.output,
    hall h.forwardSeed, hall h.forwardSens, hall h.adjointSeed, hall h.adjointSens,
    by simpa [Buffers.image] using h.forward, by simpa [Buffers.image] using h.adjoint⟩

namespace Tape

variable {inputs outputs : Array (Matrix (Expr K))}

theorem Closed.changed (h : Closed inputs outputs) (f : K → R) :
    Closed (Matrix.changed f inputs) (Matrix.changed f outputs) := by
  refine ⟨?_, distinctSymbols_changed h.distinct f, fun s hs => ?_⟩
  · rw [Matrix.entries_changed]
    exact h.coherent.map f
  · rw [Matrix.entries_changed] at hs ⊢
    obtain ⟨a, ha, has⟩ := Expr.reachedFrom_map.mp hs
    exact List.mem_map.mpr ⟨.symbol s, h.symbol s (Expr.map_eq_symbol.mp has ▸ ha), rfl⟩

variable [CommRing R] [Number R] {ρ ρ' : Symbol → R}

/-- At the input symbols every symbol has its own value. -/
theorem valuation_symbols (hd : DistinctSymbols inputs) (f : K → R) (ρ : Symbol → R) {s : Symbol}
    (hs : .symbol s ∈ Matrix.entries inputs) :
    valuation 0 (Matrix.changed f inputs) (Block.ofEntries (Expr.meaning f ρ) inputs) s = ρ s := by
  obtain ⟨i, k, m, hm, hk⟩ := Matrix.mem_entries.mp hs
  have ht : (i,k,.symbol s) ∈ Order.targets inputs := Order.mem_targets.mpr ⟨m, hm, hk⟩
  have hsizes : (Block.ofEntries (Expr.meaning f ρ) inputs).sizes =
      (Matrix.changed f inputs).map Matrix.nnz := by
    rw [Block.sizes_ofEntries, Matrix.sizes_changed]
  have hget : (Block.ofEntries (Expr.meaning f ρ) inputs).get? i k = some (ρ s) :=
    (Block.get?_ofEntries _ _).mpr ⟨_, ht, rfl⟩
  have hval := valuation_eq (distinctSymbols_changed hd f) (0 : R) hsizes
    (Order.mem_targets_changed.mpr ⟨_, ht, rfl⟩) (s := s) rfl
  exact Option.some.inj (hval.symm.trans hget)

theorem tangent_congr {inputs outputs : Array (Matrix (Expr R))}
    (h : ∀ s, Expr.ReachedFrom (Matrix.entries outputs) (.symbol s) → ρ s = ρ' s) (v : Block R) :
    tangent inputs outputs ρ v = tangent inputs outputs ρ' v :=
  Block.ofEntries_congr fun _ he =>
    Expr.derivative_congr (fun s hs => h s (.trans hs (.root he))) fun _ _ => rfl

theorem gradient_congr {inputs outputs : Array (Matrix (Expr R))}
    (h : ∀ s, Expr.ReachedFrom (Matrix.entries outputs) (.symbol s) → ρ s = ρ' s) (w : Block R) :
    gradient inputs outputs ρ w = gradient inputs outputs ρ' w := by
  refine Block.ofEntries_congr fun x _ => congrArg w.dot (Block.ofEntries_congr fun _ he => ?_)
  exact Expr.derivative_congr (fun s hs => h s (.trans hs (.root he))) fun _ _ => rfl

/-- An evaluation where the symbols have the values `ρ`. -/
def evaluatedAt (inputs outputs : Array (Matrix (Expr R))) (ρ : Symbol → R) (n m : Nat) (b : Buffers R) :
    Buffers R :=
  {b with
    output := Block.ofEntries (Expr.value ρ) outputs
    forwardSens := Buffers.firstBlocks n (fun d => tangent inputs outputs ρ (b.forwardSeed.getD d #[]))
      b.forwardSens
    adjointSens := Buffers.firstBlocks m (fun d => gradient inputs outputs ρ (b.adjointSeed.getD d #[]))
      b.adjointSens}

theorem shaped_evaluatedAt {inputs outputs : Array (Matrix (Expr R))} (n m : Nat) {b : Buffers R}
    (hb : b.Shaped (inputs.map Matrix.nnz) (outputs.map Matrix.nnz)) :
    (evaluatedAt inputs outputs ρ n m b).Shaped (inputs.map Matrix.nnz) (outputs.map Matrix.nnz) :=
  ((hb.withOutput (Block.sizes_ofEntries _ _)).withForwardSens n _
    fun _ => Block.sizes_ofEntries _ _).withAdjointSens m _ fun _ => Block.sizes_ofEntries _ _

theorem evaluated_eq {inputs outputs : Array (Matrix (Expr R))} {b : Buffers R}
    (h : ∀ s, Expr.ReachedFrom (Matrix.entries outputs) (.symbol s) → valuation 0 inputs b.input s = ρ s)
    (n m : Nat) :
    evaluated inputs outputs n m b = evaluatedAt inputs outputs ρ n m b := by
  have hvalue : Block.ofEntries (Expr.value (valuation 0 inputs b.input)) outputs =
      Block.ofEntries (Expr.value ρ) outputs :=
    Block.ofEntries_congr fun _ he => Expr.value_congr fun s hs => h s (.trans hs (.root he))
  simp only [evaluated, evaluatedAt, hvalue, tangent_congr h, gradient_congr h]

end Tape

open Fluxion.Expr

variable [CommRing K] [Number K] [ExactRing K] [CommRing R] [Number R] [ExactRing R] {ok : Op → Prop}
  {symbols roots : List (Expr K)} {f : K →+* R} {ρ : Symbol → R}
  {inputs outputs : Array (Matrix (Expr K))} {sig : Signature K} {t : Tape K}

omit [CommRing K] [Number K] [ExactRing K] in
/-- Operations that are `ok` are no remainders, if the remainder is not. -/
theorem Expr.ne_rem_of_ok (ok : Op → Prop) (hrem : ¬ok .rem)
    (hop : ∀ e, ReachedFrom roots e → e.op.isStructural = false → ok e.op) (e : Expr K) (he : ReachedFrom roots e) :
    e.op ≠ .rem := by
  intro heq
  exact hrem (heq ▸ hop e he (by rw [heq]; rfl))

omit [CommRing K] [ExactRing K] in
theorem Expresses.admits (h : Expresses inputs outputs sig t)
    (hop : ∀ e, ReachedFrom (Matrix.entries outputs) e → e.op.isStructural = false → ok e.op) :
    t.Admits ok := by
  obtain ⟨places, slot, hc⟩ := Tape.ofGraph_compiled h.closed.coherent h.tape
  -- Every element is that of a node, and a node with one operand reads it twice.
  have hmem (el : Element K) (hel : el ∈ t.elements) (hs : el.op.isStructural = false) :
      ∃ e, ReachedFrom (Matrix.entries outputs) e ∧ e.op.isStructural = false ∧ e.op = el.op ∧
        (e.op.arity = 1 → el.left = el.right) := by
    rw [← Array.mem_toList_iff, hc.elements, Tape.layout_eq_map places slot (h.closed.free hc)] at hel
    obtain ⟨n, hn, rfl⟩ := List.mem_map.mp hel
    cases n with
    | store i k id => cases hs
    | expr e =>
      have he : ReachedFrom (Matrix.entries outputs) e :=
        (hc.complete.mem_exprs e).mp (Order.mem_exprs.mpr hn)
      have hp := h.closed.coherent.proper e he
      cases e with
      | symbol s =>
        simp only [Tape.elementAt] at hs
        split at hs <;> cases hs
      | const i v => cases hs
      | unary i op a => exact ⟨_, he, hs, rfl, fun _ => rfl⟩
      | binary i op a b =>
        refine ⟨_, he, hs, rfl, fun harity => ?_⟩
        have h2 := hp.1
        rw [Expr.op, h2] at harity
        cases harity
  refine ⟨fun el hel hs => ?_, fun el hel hs harity => ?_⟩
  · obtain ⟨e, he, hes, hop', -⟩ := hmem el hel hs
    exact hop' ▸ hop e he hes
  · obtain ⟨e, -, -, hop', hlr⟩ := hmem el hel hs
    exact hlr (hop' ▸ harity)

omit [CommRing K] [ExactRing K] in
theorem Tape.returns_replay {F : List (Expr K) → Buffers (Expr K) → Prop} {b : Buffers (Expr K)} {n m : Nat}
    (h : Returns ok symbols roots (t.evaluate .symbolic b n m) F) :
    Returns ok symbols roots (Symbolic.replay t b n m) F := by
  rw [Symbolic.replay]
  refine .bind (.lift h) fun roots' r _ ⟨c, hr, hc⟩ => ?_
  subst hr
  exact .pure hc

/-- A replay at the input symbols. -/
theorem Expresses.returns_replay (h : Expresses inputs outputs sig t) (hf : Reading ok f)
    (hop : ∀ e, ReachedFrom (Matrix.entries outputs) e → e.op.isStructural = false → ok e.op)
    (hrem : ¬ok .rem) (hd : ∀ op, op.isStructural = false → ok op → Tape.Derives ok symbols f ρ op)
    {b : Buffers (Expr K)} (hb : b.Held roots) (hshape : b.Shaped sig.inputSizes sig.outputSizes)
    (hinput : b.input = inputs.map (·.values)) {n m : Nat} (hn : n ≤ b.forward) (hm : m ≤ b.adjoint) :
    Returns ok symbols roots (Symbolic.replay t b n m) fun roots' c =>
      c.Held roots' ∧ c.image (meaning f ρ) =
        Tape.evaluatedAt (Matrix.changed f inputs) (Matrix.changed f outputs) ρ n m
          (b.image (meaning f ρ)) := by
  obtain ⟨places, slot, hc⟩ := Tape.ofGraph_compiled h.closed.coherent h.tape
  have hzero : f Number.zero = Number.zero := by rw [Number.zero_eq, Number.zero_eq, map_zero]
  have hc' := hc.map hzero
  have hclosed := h.closed.changed f
  have hinput' : (b.image (meaning f ρ)).input = Block.ofEntries (meaning f ρ) inputs := by
    simp [Buffers.image, hinput, Block.image, Block.ofEntries, Function.comp_def]
  rw [h.inputSizes, h.outputSizes, ← Matrix.sizes_changed f inputs, ← Matrix.sizes_changed f outputs] at hshape
  -- The replay over expressions follows the numeric one of the changed tape.
  have hnum := Tape.evaluate_numeric hc' hclosed.coherent (hclosed.free hc') (fun e he => ?_)
    (hshape.image (meaning f ρ)) (n := n) (m := m) (by simpa [Buffers.image, Buffers.forward] using hn)
    (by simpa [Buffers.image, Buffers.adjoint] using hm)
  · rw [Tape.evaluated_eq (ρ := ρ) fun s hs => ?_] at hnum
    · exact Tape.returns_replay (Tape.returns_evaluate hf (h.admits hop) hd hb hnum)
    · rw [hinput']
      rw [Matrix.entries_changed] at hs
      obtain ⟨a, ha, has⟩ := reachedFrom_map.mp hs
      exact Tape.valuation_symbols h.closed.distinct f ρ (h.closed.symbol s (map_eq_symbol.mp has ▸ ha))
  · have hreached := (hc'.complete.mem_exprs e).mp he
    rw [Matrix.entries_changed] at hreached
    obtain ⟨a, ha, rfl⟩ := reachedFrom_map.mp hreached
    rw [op_map]
    exact ne_rem_of_ok ok hrem hop a ha

end Fluxion
