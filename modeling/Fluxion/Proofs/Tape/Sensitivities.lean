import Fluxion.Proofs.Tape.Duality

/-!
What an evaluation leaves in the buffers: values, derivatives along the forward seeds, and the gradients
of the outputs weighted by the adjoint seeds.
-/
set_option autoImplicit false

namespace Fluxion

variable {K T : Type}

/-- What is left of a block when one value is written everywhere. -/
theorem Block.clear_eq (b : Block T) (x : T) : (b.map (·.map fun _ => x) : Block T) = Block.filled b.sizes x := by
  simp [filled, sizes, Function.comp_def, Array.map_const']

/-- Buffers of a function with inputs and outputs of the given sizes. -/
structure Buffers.Shaped (ins outs : Array Nat) (b : Buffers T) : Prop where
  input : b.input.sizes = ins
  output : b.output.sizes = outs
  forwardSeed : ∀ x ∈ b.forwardSeed, x.sizes = ins
  forwardSens : ∀ x ∈ b.forwardSens, x.sizes = outs
  adjointSeed : ∀ x ∈ b.adjointSeed, x.sizes = outs
  adjointSens : ∀ x ∈ b.adjointSens, x.sizes = ins
  forward : b.forwardSens.size = b.forwardSeed.size
  adjoint : b.adjointSens.size = b.adjointSeed.size

namespace Buffers

theorem shaped_filled (ins outs : Array Nat) (f a : Nat) (x : T) :
    (filled ins outs f a x).Shaped ins outs where
  input := Block.sizes_filled ins x
  output := Block.sizes_filled outs x
  forwardSeed _ hx := (Array.eq_of_mem_replicate hx) ▸ Block.sizes_filled ins x
  forwardSens _ hx := (Array.eq_of_mem_replicate hx) ▸ Block.sizes_filled outs x
  adjointSeed _ hx := (Array.eq_of_mem_replicate hx) ▸ Block.sizes_filled outs x
  adjointSens _ hx := (Array.eq_of_mem_replicate hx) ▸ Block.sizes_filled ins x
  forward := by simp [filled]
  adjoint := by simp [filled]

/-- Blocks of which the first `n` are made anew. -/
def firstBlocks (n : Nat) (f : Nat → Block T) (bs : Array (Block T)) : Array (Block T) :=
  bs.mapIdx fun d b => if d < n then f d else b

theorem firstBlocks_zero (f : Nat → Block T) (bs : Array (Block T)) : firstBlocks 0 f bs = bs := by
  refine Array.ext_getElem? fun d => ?_
  simp [firstBlocks]

theorem firstBlocks_succ (n : Nat) (f : Nat → Block T) (bs : Array (Block T)) :
    (firstBlocks n f bs).setIfInBounds n (f n) = firstBlocks (n+1) f bs := by
  refine Array.ext_getElem? fun d => ?_
  simp only [firstBlocks, Array.getElem?_setIfInBounds, Array.getElem?_mapIdx, Array.size_mapIdx]
  split
  · next h =>
    subst h
    by_cases hn : n < bs.size <;> simp [hn]
  · next h =>
    have hiff : d < n ↔ d < n+1 := by omega
    simp only [hiff]

theorem getElem?_firstBlocks (n : Nat) (f : Nat → Block T) (bs : Array (Block T)) (d : Nat) :
    (firstBlocks n f bs)[d]? = bs[d]?.map fun b => if d < n then f d else b := by
  simp [firstBlocks]

@[simp] theorem size_firstBlocks (n : Nat) (f : Nat → Block T) (bs : Array (Block T)) :
    (firstBlocks n f bs).size = bs.size := Array.size_mapIdx

theorem mem_firstBlocks {n : Nat} {f : Nat → Block T} {bs : Array (Block T)} {P : Block T → Prop}
    (hf : ∀ d < n, P (f d)) (hb : ∀ x ∈ bs, P x) : ∀ x ∈ firstBlocks n f bs, P x := by
  intro x hx
  obtain ⟨d, hd⟩ := Array.mem_iff_getElem?.mp hx
  rw [getElem?_firstBlocks] at hd
  obtain ⟨b, hb', rfl⟩ := Option.map_eq_some_iff.mp hd
  split
  · next h => exact hf d h
  · exact hb b (Array.mem_of_getElem? hb')

theorem getD_firstBlocks {n d : Nat} {bs : Array (Block T)} (hn : d < n) (hd : d < bs.size)
    (f : Nat → Block T) : (firstBlocks n f bs).getD d #[] = f d := by
  rw [Array.getD_eq_getD_getElem?, getElem?_firstBlocks, Array.getElem?_eq_getElem hd]
  simp [hn]

theorem sizes_getD {ns : Array Nat} {bs : Array (Block T)} (h : ∀ x ∈ bs, x.sizes = ns) {d : Nat}
    (hd : d < bs.size) : (bs.getD d #[]).sizes = ns := by
  rw [Array.getD_eq_getD_getElem?, Array.getElem?_eq_getElem hd]
  exact h _ (Array.getElem_mem hd)

theorem Shaped.withOutput {ins outs : Array Nat} {b : Buffers T} (h : b.Shaped ins outs) {x : Block T}
    (hx : x.sizes = outs) : ({b with output := x} : Buffers T).Shaped ins outs :=
  ⟨h.input, hx, h.forwardSeed, h.forwardSens, h.adjointSeed, h.adjointSens, h.forward, h.adjoint⟩

/-! The sizes stay where the first blocks of a kind are made anew. -/

section FirstBlocks

variable {ins outs : Array Nat} {b : Buffers T} (h : b.Shaped ins outs) (n : Nat) (f : Nat → Block T)
include h

theorem Shaped.withForwardSeed (hf : ∀ d < n, (f d).sizes = ins) :
    ({b with forwardSeed := firstBlocks n f b.forwardSeed} : Buffers T).Shaped ins outs :=
  ⟨h.input, h.output, mem_firstBlocks hf h.forwardSeed, h.forwardSens, h.adjointSeed, h.adjointSens,
    h.forward.trans (size_firstBlocks n f _).symm, h.adjoint⟩

theorem Shaped.withAdjointSeed (hf : ∀ d < n, (f d).sizes = outs) :
    ({b with adjointSeed := firstBlocks n f b.adjointSeed} : Buffers T).Shaped ins outs :=
  ⟨h.input, h.output, h.forwardSeed, h.forwardSens, mem_firstBlocks hf h.adjointSeed, h.adjointSens, h.forward,
    h.adjoint.trans (size_firstBlocks n f _).symm⟩

theorem Shaped.withForwardSens (hf : ∀ d, (f d).sizes = outs) :
    ({b with forwardSens := firstBlocks n f b.forwardSens} : Buffers T).Shaped ins outs :=
  ⟨h.input, h.output, h.forwardSeed, mem_firstBlocks (fun d _ => hf d) h.forwardSens, h.adjointSeed, h.adjointSens,
    (size_firstBlocks n f _).trans h.forward, h.adjoint⟩

theorem Shaped.withAdjointSens (hf : ∀ d, (f d).sizes = ins) :
    ({b with adjointSens := firstBlocks n f b.adjointSens} : Buffers T).Shaped ins outs :=
  ⟨h.input, h.output, h.forwardSeed, h.forwardSens, h.adjointSeed, mem_firstBlocks (fun d _ => hf d) h.adjointSens,
    h.forward, (size_firstBlocks n f _).trans h.adjoint⟩

end FirstBlocks

end Buffers

/-- One for the symbol with the number of an expression, zero for the others. -/
def Expr.indicator [Zero K] [One K] (e : Expr K) (s : Symbol) : K := if s.id = e.id then 1 else 0

namespace Tape

variable [Number K] [CommRing K] {inputs outputs : Array (Matrix (Expr K))}
  {places : Std.HashMap Nat (Nat × Nat)} {l : List (Node K)} {slot : Nat → Nat} {t : Tape K}

/-- Derivatives of the outputs, from those of the inputs. -/
def tangent (inputs outputs : Array (Matrix (Expr K))) (ρ : Symbol → K) (v : Block K) : Block K :=
  Block.ofEntries (Expr.derivative ρ (valuation 0 inputs v)) outputs

/-- The derivatives, by each input entry, of the outputs weighted by a block. -/
def gradient (inputs outputs : Array (Matrix (Expr K))) (ρ : Symbol → K) (w : Block K) : Block K :=
  Block.ofEntries (fun e => w.dot (Block.ofEntries (Expr.derivative ρ e.indicator) outputs)) inputs

/-- One at an entry of the inputs. -/
def unit (inputs : Array (Matrix (Expr K))) (i k : Nat) : Block K :=
  (Block.filled (inputs.map Matrix.nnz) 0).set i k 1

omit [Number K] in
theorem sizes_unit (inputs : Array (Matrix (Expr K))) (i k : Nat) :
    (unit inputs i k).sizes = inputs.map Matrix.nnz := by
  rw [unit, Block.sizes_set, Block.sizes_filled]

omit [Number K] in
theorem dot_unit {x : Block K} (hx : x.sizes = inputs.map Matrix.nnz) {i k : Nat} {e : Expr K}
    (he : (i,k,e) ∈ Order.targets inputs) : x.dot (unit inputs i k) = x.entry i k := by
  have hz : (Block.filled (inputs.map Matrix.nnz) (0 : K)).sizes = inputs.map Matrix.nnz :=
    Block.sizes_filled _ _
  rw [unit, Block.dot_set_right (hx.trans hz.symm) (Block.target_isSome hz he),
    Block.dot_comm (hx.trans hz.symm), Block.dot_zero (Block.entry_filled _)]
  simp [Block.entry_filled]

theorem supplies_unit (hc : Compiled inputs outputs places l slot t)
    (hf : freeAmong places (Order.exprs l) = []) {i k : Nat} {e : Expr K}
    (he : (i,k,e) ∈ Order.targets inputs) : Supplies places e.indicator (unit inputs i k) l := by
  intro s hs
  obtain ⟨j, n, hp⟩ := exists_place hf hs
  obtain ⟨d, hd, hid⟩ := hc.placed.mem _ j n hp
  have hz : (Block.filled (inputs.map Matrix.nnz) (0 : K)).sizes = inputs.map Matrix.nnz :=
    Block.sizes_filled _ _
  refine ⟨j, n, hp, ?_⟩
  by_cases heq : (i,k) = (j,n)
  · cases heq
    obtain rfl := Order.targets_unique he hd
    rw [unit, Block.get?_set_self (Block.target_isSome hz he), Expr.indicator, if_pos hid.symm]
  · have hne : s.id ≠ e.id := by
      intro hse
      have hpe := hc.placed.get i k e he
      rw [← hse, hp] at hpe
      exact heq (Option.some.inj hpe).symm
    obtain ⟨x, hx⟩ := Option.isSome_iff_exists.mp (Block.target_isSome hz hd)
    have hx0 : x = 0 := by
      have := Block.entry_filled (K := K) (inputs.map Matrix.nnz) j n
      rwa [Block.entry, hx, Option.getD_some] at this
    rw [unit, Block.get?_set_of_ne heq, hx, hx0, Expr.indicator, if_neg hne]

variable [ExactRing K] {ρ : Symbol → K}

/-- An adjoint sweep gives the gradient, and what it gives is dual to the derivatives along any seed. -/
theorem adjointSweep_eq (ρ : Symbol → K) (hc : Compiled inputs outputs places l slot t)
    (hu : Expr.Coherent (Matrix.entries outputs)) (hf : freeAmong places (Order.exprs l) = [])
    {work : Array K} (hwork : work.size = t.worksize) (hz : ∀ s, work.getD s 0 = 0) {sens w : Block K}
    (hs : sens.sizes = inputs.map Matrix.nnz) (hw : w.sizes = outputs.map Matrix.nnz) :
    ∃ work', work'.size = t.worksize ∧ (∀ s, work'.getD s 0 = 0) ∧
      t.adjointSweep Arithmetic.numeric ((Order.operations l).map (Expr.slopes ρ)).toArray work w sens =
        (pure ⟨work', gradient inputs outputs ρ w, 0⟩ : Id (Sweep K)) ∧
      ∀ v : Block K, v.sizes = inputs.map Matrix.nnz →
        w.dot (tangent inputs outputs ρ v) = (gradient inputs outputs ρ w).dot v := by
  obtain ⟨a, ha, hsize, hzero, hnext, hsizes, hdual⟩ :=
    adjointSweep_dual ((Order.operations l).map (Expr.slopes ρ)).toArray hc hu hf (by simp) hwork
      hz hs hw
  have hz0 : (Block.filled (outputs.map Matrix.nnz) (0 : K)).sizes = outputs.map Matrix.nnz :=
    Block.sizes_filled _ _
  have hforward (v : Block K) (hv : v.sizes = inputs.map Matrix.nnz) (δ : Symbol → K)
      (hδ : Supplies places δ v l) :
      w.dot (Block.ofEntries (Expr.derivative ρ δ) outputs) = a.sens.dot v := by
    obtain ⟨work', n, -, hsweep⟩ := forwardSweep_eq ρ hc hu hf hwork hz0 hδ
    exact hdual v hv work _ ⟨work', Block.ofEntries (Expr.derivative ρ δ) outputs, n⟩ hwork hz0
      (Block.entry_filled _) hsweep
  have hsens : a.sens = gradient inputs outputs ρ w := by
    refine Block.eq_ofEntries hsizes fun i k e he => ?_
    obtain ⟨x, hx⟩ := Option.isSome_iff_exists.mp (Block.target_isSome hsizes he)
    rw [hforward _ (sizes_unit inputs i k) e.indicator (supplies_unit hc hf he), dot_unit hsizes he, hx,
      Block.entry, hx, Option.getD_some]
  refine ⟨a.work, hsize, hzero, ?_, fun v hv => ?_⟩
  · rw [ha, ← hsens, ← hnext]
  · rw [← hsens]
    exact hforward v hv _ (supplies_valuation hc hf hv 0)

theorem forwardSweeps_eq (ρ : Symbol → K) (hc : Compiled inputs outputs places l slot t)
    (hu : Expr.Coherent (Matrix.entries outputs)) (hf : freeAmong places (Order.exprs l) = [])
    {work : Array K} (hw : work.size = t.worksize) {b : Buffers K}
    (hb : b.Shaped (inputs.map Matrix.nnz) (outputs.map Matrix.nnz)) {n : Nat} (hn : n ≤ b.forward) :
    ∃ work', work'.size = t.worksize ∧
      t.forwardSweeps Arithmetic.numeric n
          ⟨work, ((Order.operations l).map (Expr.slopes ρ)).toArray, b⟩ =
        (pure ⟨work', ((Order.operations l).map (Expr.slopes ρ)).toArray,
          {b with
            forwardSens := Buffers.firstBlocks n
              (fun d => tangent inputs outputs ρ (b.forwardSeed.getD d #[])) b.forwardSens}⟩ :
          Id (Replay K)) := by
  induction n with
  | zero =>
    refine ⟨work, hw, ?_⟩
    rw [Buffers.firstBlocks_zero]
    rfl
  | succ n ih =>
    obtain ⟨mid, hmid, heq⟩ := ih (by omega)
    have hlt : n < b.forwardSeed.size := hn
    have hseed := Buffers.sizes_getD hb.forwardSeed hlt
    have hmade := hb.withForwardSens n (fun d => tangent inputs outputs ρ (b.forwardSeed.getD d #[]))
      fun d => Block.sizes_ofEntries _ _
    have hsens := Buffers.sizes_getD hmade.forwardSens (d := n) (by rw [hmade.forward]; exact hlt)
    obtain ⟨work', k, hwork', hsweep⟩ := forwardSweep_eq ρ hc hu hf hmid hsens
      (supplies_valuation hc hf hseed 0)
    refine ⟨work', hwork', ?_⟩
    rw [forwardSweeps, List.range_succ, List.foldlM_append]
    rw [forwardSweeps] at heq
    rw [heq, pure_bind]
    simp only [List.foldlM_cons, List.foldlM_nil, bind_pure]
    rw [hsweep, pure_bind, ← Buffers.firstBlocks_succ n]
    rfl

theorem foldlM_adjointSweeps (ρ : Symbol → K) (hc : Compiled inputs outputs places l slot t)
    (hu : Expr.Coherent (Matrix.entries outputs)) (hf : freeAmong places (Order.exprs l) = [])
    {work : Array K} (hw : work.size = t.worksize) (hz : ∀ s, work.getD s 0 = 0) {b : Buffers K}
    (hb : b.Shaped (inputs.map Matrix.nnz) (outputs.map Matrix.nnz)) {n : Nat} (hn : n ≤ b.adjoint) :
    ∃ work', work'.size = t.worksize ∧ (∀ s, work'.getD s 0 = 0) ∧
      (List.range n).foldlM (fun r d => do
          let {work, partials, buffers} := r
          let s ← t.adjointSweep Arithmetic.numeric partials work (buffers.adjointSeed.getD d #[])
            (buffers.adjointSens.getD d #[])
          return ⟨s.work, partials,
            {buffers with adjointSens := buffers.adjointSens.setIfInBounds d s.sens}⟩)
          (⟨work, ((Order.operations l).map (Expr.slopes ρ)).toArray, b⟩ : Replay K) =
        (pure ⟨work', ((Order.operations l).map (Expr.slopes ρ)).toArray,
          {b with
            adjointSens := Buffers.firstBlocks n
              (fun d => gradient inputs outputs ρ (b.adjointSeed.getD d #[])) b.adjointSens}⟩ :
          Id (Replay K)) := by
  -- Each sweep leaves the work array zero for the next one.
  induction n with
  | zero =>
    refine ⟨work, hw, hz, ?_⟩
    rw [Buffers.firstBlocks_zero]
    rfl
  | succ n ih =>
    obtain ⟨mid, hmid, hzmid, heq⟩ := ih (by omega)
    have hlt : n < b.adjointSeed.size := hn
    have hseed := Buffers.sizes_getD hb.adjointSeed hlt
    have hmade := hb.withAdjointSens n (fun d => gradient inputs outputs ρ (b.adjointSeed.getD d #[]))
      fun d => Block.sizes_ofEntries _ _
    have hsens := Buffers.sizes_getD hmade.adjointSens (d := n) (by rw [hmade.adjoint]; exact hlt)
    obtain ⟨work', hwork', hzero, hsweep, -⟩ :=
      adjointSweep_eq ρ hc hu hf hmid hzmid hsens hseed
    refine ⟨work', hwork', hzero, ?_⟩
    rw [List.range_succ, List.foldlM_append, heq, pure_bind]
    simp only [List.foldlM_cons, List.foldlM_nil, bind_pure]
    rw [hsweep, pure_bind, ← Buffers.firstBlocks_succ n]

theorem adjointSweeps_eq (ρ : Symbol → K) (hc : Compiled inputs outputs places l slot t)
    (hu : Expr.Coherent (Matrix.entries outputs)) (hf : freeAmong places (Order.exprs l) = [])
    {work : Array K} (hw : work.size = t.worksize) {b : Buffers K}
    (hb : b.Shaped (inputs.map Matrix.nnz) (outputs.map Matrix.nnz)) {n : Nat} (hn : n ≤ b.adjoint) :
    ∃ work', t.adjointSweeps Arithmetic.numeric n
          ⟨work, ((Order.operations l).map (Expr.slopes ρ)).toArray, b⟩ =
        (pure ⟨work', ((Order.operations l).map (Expr.slopes ρ)).toArray,
          {b with
            adjointSens := Buffers.firstBlocks n
              (fun d => gradient inputs outputs ρ (b.adjointSeed.getD d #[])) b.adjointSens}⟩ :
          Id (Replay K)) := by
  by_cases h0 : n = 0
  · subst h0
    refine ⟨work, ?_⟩
    rw [Buffers.firstBlocks_zero]
    rfl
  · have hclear : (work.mapM fun _ => (Arithmetic.numeric : Arithmetic K K Id).zero) =
        (pure (work.map fun _ => 0) : Id (Array K)) := by
      simp [Arithmetic.numeric_zero]
    have hzero (s : Nat) : (work.map fun _ => (0 : K)).getD s 0 = 0 := by
      cases hs : work[s]? <;> simp [Array.getD_eq_getD_getElem?, hs]
    obtain ⟨work', -, -, hfold⟩ := foldlM_adjointSweeps ρ hc hu hf
      (show (work.map fun _ => (0 : K)).size = t.worksize by simpa using hw) hzero hb hn
    refine ⟨work', ?_⟩
    rw [adjointSweeps, if_neg h0]
    simp only [hclear, pure_bind]
    exact hfold

/-- The buffers after an evaluation of the first `n` forward and `m` adjoint directions. -/
def evaluated (inputs outputs : Array (Matrix (Expr K))) (n m : Nat) (b : Buffers K) : Buffers K :=
  {b with
    output := Block.ofEntries (Expr.value (valuation 0 inputs b.input)) outputs
    forwardSens := Buffers.firstBlocks n
      (fun d => tangent inputs outputs (valuation 0 inputs b.input) (b.forwardSeed.getD d #[]))
      b.forwardSens
    adjointSens := Buffers.firstBlocks m
      (fun d => gradient inputs outputs (valuation 0 inputs b.input) (b.adjointSeed.getD d #[]))
      b.adjointSens}

omit [ExactRing K] in
theorem shaped_evaluated (n m : Nat) {b : Buffers K}
    (hb : b.Shaped (inputs.map Matrix.nnz) (outputs.map Matrix.nnz)) :
    (evaluated inputs outputs n m b).Shaped (inputs.map Matrix.nnz) (outputs.map Matrix.nnz) :=
  ((hb.withOutput (Block.sizes_ofEntries _ _)).withForwardSens n _
    fun _ => Block.sizes_ofEntries _ _).withAdjointSens m _ fun _ => Block.sizes_ofEntries _ _

/-- Whatever the order and the slots, an evaluation leaves the values of the outputs, the derivatives
along the forward seeds and the gradients for the adjoint seeds. -/
theorem evaluate_numeric (hc : Compiled inputs outputs places l slot t)
    (hu : Expr.Coherent (Matrix.entries outputs)) (hf : freeAmong places (Order.exprs l) = [])
    (hr : ∀ e ∈ Order.exprs l, e.op ≠ .rem) {b : Buffers K}
    (hb : b.Shaped (inputs.map Matrix.nnz) (outputs.map Matrix.nnz)) {n m : Nat} (hn : n ≤ b.forward)
    (hm : m ≤ b.adjoint) :
    t.evaluate Arithmetic.numeric b n m =
      (pure (evaluated inputs outputs n m b) : ExceptT (Stopped K) Id (Buffers K)) := by
  have hs := supplies_valuation hc hf hb.input (0 : K)
  by_cases h0 : n = 0 ∧ m = 0
  · obtain ⟨rfl, rfl⟩ := h0
    rw [evaluated, Buffers.firstBlocks_zero, Buffers.firstBlocks_zero, ← Arithmetic.observed_pure,
      evaluate_observed hc hu hf hb.output hs]
    simp
    rfl
  · obtain ⟨work, hwork, hpass⟩ := forwardPass_taped hc hu hf hb.output hs hr
    have htaping : (decide (0 < n) || decide (0 < m)) = true := by
      simp only [Bool.or_eq_true, decide_eq_true_eq]
      omega
    have hb₁ := hb.withOutput (Block.sizes_ofEntries (Expr.value (valuation 0 inputs b.input)) outputs)
    obtain ⟨work₁, hwork₁, hforward⟩ :=
      forwardSweeps_eq (valuation 0 inputs b.input) hc hu hf hwork hb₁ hn
    have hb₂ := hb₁.withForwardSens n
      (fun d => tangent inputs outputs (valuation 0 inputs b.input) (b.forwardSeed.getD d #[]))
      (fun d => Block.sizes_ofEntries _ _)
    obtain ⟨work₂, hadjoint⟩ :=
      adjointSweeps_eq (valuation 0 inputs b.input) hc hu hf hwork₁ hb₂ hm
    dsimp only at hforward hadjoint
    rw [evaluate, htaping, hpass, pure_bind, hforward, liftM_pure, pure_bind, hadjoint]
    rfl

omit [ExactRing K] in
/-- An expression does not change along symbols that it does not reach. -/
theorem derivative_eq_zero {δ : Symbol → K} {e : Expr K}
    (h : ∀ s, Expr.Reaches (.symbol s) e → δ s = 0) : e.derivative ρ δ = 0 := by
  induction e with
  | symbol s => exact h s (.refl _)
  | const i v => rfl
  | unary i op a ih =>
    have ha := ih fun s hs => h s (hs.trans (.operand (by simp [Expr.operands])))
    rw [Expr.derivative, ha, mul_zero]
  | binary i op a b iha ihb =>
    have ha := iha fun s hs => h s (hs.trans (.operand (by simp [Expr.operands])))
    have hb := ihb fun s hs => h s (hs.trans (.operand (by simp [Expr.operands])))
    rw [Expr.derivative, ha, hb, mul_zero, mul_zero, add_zero]

omit [Number K] [ExactRing K] in
theorem entry_ofEntries_zero {f : Expr K → K} {ms : Array (Matrix (Expr K))}
    (hf : ∀ e ∈ Matrix.entries ms, f e = 0) (i k : Nat) : (Block.ofEntries f ms).entry i k = 0 := by
  cases hx : (Block.ofEntries f ms).get? i k with
  | none => rw [Block.entry, hx, Option.getD_none]
  | some y =>
    obtain ⟨e, he, rfl⟩ := (Block.get?_ofEntries _ _).mp hx
    rw [Block.entry, hx, Option.getD_some, hf e (Order.mem_targets_entries he)]

omit [ExactRing K] in
/-- The gradient by a symbol that no output reaches is zero. -/
theorem get?_gradient_eq_zero {w : Block K} (hw : w.sizes = outputs.map Matrix.nnz) {i k : Nat}
    {e : Expr K} (he : (i,k,e) ∈ Order.targets inputs)
    (hn : ∀ d, Expr.ReachedFrom (Matrix.entries outputs) d → d.id ≠ e.id) :
    (gradient inputs outputs ρ w).get? i k = some 0 := by
  refine (Block.get?_ofEntries _ _).mpr ⟨e, he, ?_⟩
  rw [Block.dot_comm (by rw [hw, Block.sizes_ofEntries])]
  refine Block.dot_zero (entry_ofEntries_zero fun d hd => derivative_eq_zero fun s hs => ?_) w
  have hreach := Expr.ReachedFrom.trans hs (.root hd)
  exact if_neg (hn _ hreach)

/-- The gradient for a seed is dual to the derivatives along any other. -/
theorem gradient_dual (hc : Compiled inputs outputs places l slot t)
    (hu : Expr.Coherent (Matrix.entries outputs)) (hf : freeAmong places (Order.exprs l) = [])
    {v w : Block K} (hv : v.sizes = inputs.map Matrix.nnz) (hw : w.sizes = outputs.map Matrix.nnz) :
    w.dot (tangent inputs outputs ρ v) = (gradient inputs outputs ρ w).dot v := by
  have hzero (s : Nat) : (Array.replicate t.worksize (0 : K)).getD s 0 = 0 := by
    by_cases hs : s < t.worksize <;> simp [Array.getD_eq_getD_getElem?, hs]
  obtain ⟨work, -, -, -, hdual⟩ := adjointSweep_eq ρ hc hu hf (by simp) hzero
    (Block.sizes_filled (inputs.map Matrix.nnz) 0) hw
  exact hdual v hv

/-- Duality. Whatever the options, the order and the slots, the forward and the adjoint sensitivities of
an evaluation are dual to each other, and inputs that no output uses have the adjoint zero. -/
theorem evaluate_dual {live : Bool} {sorting : Sorting}
    (hu : Expr.Coherent (Matrix.entries outputs)) (ht : ofGraph inputs outputs live sorting = .ok t)
    (hfree : t.free = #[]) (hr : ∀ e, Expr.ReachedFrom (Matrix.entries outputs) e → e.op ≠ .rem)
    {b : Buffers K} (hb : b.Shaped (inputs.map Matrix.nnz) (outputs.map Matrix.nnz)) {n m : Nat}
    (hn : n ≤ b.forward) (hm : m ≤ b.adjoint) :
    ∃ b' : Buffers K, t.evaluate Arithmetic.numeric b n m =
        (pure b' : ExceptT (Stopped K) Id (Buffers K)) ∧
      (∀ d < n, ∀ c < m, (b.adjointSeed.getD c #[]).dot (b'.forwardSens.getD d #[]) =
        (b'.adjointSens.getD c #[]).dot (b.forwardSeed.getD d #[])) ∧
      ∀ c < m, ∀ i k e, (i,k,e) ∈ Order.targets inputs →
        (∀ d, Expr.ReachedFrom (Matrix.entries outputs) d → d.id ≠ e.id) →
          (b'.adjointSens.getD c #[]).get? i k = some 0 := by
  obtain ⟨places, slot, hc⟩ := ofGraph_compiled hu ht
  have hf : freeAmong places (Order.exprs (Order.sorted outputs sorting).toList) = [] := by
    rw [← hc.free, hfree]
  refine ⟨_, evaluate_numeric hc hu hf (fun e he => hr e ((hc.complete.mem_exprs e).mp he)) hb hn hm, ?_⟩
  refine ⟨fun d hd c hcm => ?_, fun c hcm i k e he hunused => ?_⟩
  · have hseed : d < b.forwardSeed.size := Nat.lt_of_lt_of_le hd hn
    have hweight : c < b.adjointSeed.size := Nat.lt_of_lt_of_le hcm hm
    dsimp only [evaluated]
    rw [Buffers.getD_firstBlocks hd (by rw [hb.forward]; exact hseed),
      Buffers.getD_firstBlocks hcm (by rw [hb.adjoint]; exact hweight)]
    exact gradient_dual hc hu hf (Buffers.sizes_getD hb.forwardSeed hseed)
      (Buffers.sizes_getD hb.adjointSeed hweight)
  · have hweight : c < b.adjointSeed.size := Nat.lt_of_lt_of_le hcm hm
    dsimp only [evaluated]
    rw [Buffers.getD_firstBlocks hcm (by rw [hb.adjoint]; exact hweight)]
    exact get?_gradient_eq_zero (Buffers.sizes_getD hb.adjointSeed hweight) he hunused

/-- Buffers of the sample with one direction on each side. -/
def sampleBuffers : Buffers ℚ :=
  {Buffers.filled #[2] #[2] 1 1 0 with
    input := #[#[3,4]]
    forwardSeed := #[#[#[1,2]]]
    adjointSeed := #[#[#[1,5]]]}

theorem evaluate_dual_sample : ∃ t, ofGraph sampleInputs sampleOutputs true .depthFirst = .ok t ∧
    t.free = #[] ∧ (∀ e, Expr.ReachedFrom (Matrix.entries sampleOutputs) e → e.op ≠ .rem) ∧
    sampleBuffers.Shaped (sampleInputs.map Matrix.nnz) (sampleOutputs.map Matrix.nnz) ∧
    ∃ b' : Buffers ℚ, t.evaluate Arithmetic.numeric sampleBuffers 1 1 =
        (pure b' : ExceptT (Stopped ℚ) Id (Buffers ℚ)) ∧
      (sampleBuffers.adjointSeed.getD 0 #[]).dot (b'.forwardSens.getD 0 #[]) =
        (b'.adjointSens.getD 0 #[]).dot (sampleBuffers.forwardSeed.getD 0 #[]) := by
  obtain ⟨t, ht⟩ := exists_ofGraph sample_closed.distinct sampleOutputs true .depthFirst
  have hfree := (sample_closed.realizes ht).free
  have hshaped : sampleBuffers.Shaped (sampleInputs.map Matrix.nnz) (sampleOutputs.map Matrix.nnz) := by
    constructor <;> simp [sampleBuffers, Buffers.filled, Block.filled, Block.sizes, sampleInputs,
      sampleOutputs, Matrix.nnz, Matrix.column]
  obtain ⟨b', hb', hdual, -⟩ := evaluate_dual sample_closed.coherent ht hfree sample_ne_rem hshaped
    (n := 1) (m := 1) (by decide) (by decide)
  exact ⟨t, ht, hfree, sample_ne_rem, hshaped, b', hb', hdual 0 Nat.one_pos 0 Nat.one_pos⟩

end Tape

end Fluxion
