import Fluxion.Proofs.Function.ExactEffect
import Fluxion.Proofs.Function.SymbolicJacobian

/-!
Numeric Jacobians of functions that are made from expressions. They sweep the entries of the input or of the output
one by one, whatever the pattern, so in exact arithmetic they have all derivatives of the block.
-/
set_option autoImplicit false

namespace Fluxion

variable {K : Type}

/-! ### One color for each entry -/

namespace Pattern

@[simp] theorem nrow_diagonal (n : Nat) : (diagonal n).nrow = n := by simp [diagonal, ofRows]

theorem row_diagonal {n k : Nat} (hk : k < n) : (diagonal n).row k = #[k] := by
  simp [diagonal, row_ofRows, hk]

theorem row_dense {nrow ncol r : Nat} (hr : r < nrow) : (dense nrow ncol).row r = .range ncol := by
  simp [dense, row_ofRows, hr]

end Pattern

/-- A color for each entry of the input, or for each one of the output if the options say so. -/
def Options.entrywise (o : Options K) (rows cols : Nat) : Partition :=
  match o.adMode with
  | .reverse => .adjoint (.diagonal rows)
  | .forward | .automatic => .forward (.diagonal cols)

/-- Alone in its color an entry meets no other. -/
theorem Options.fills_entrywise (o : Options K) (s : Pattern) :
    (o.entrywise s.nrow s.ncol).Fills s (.dense s.nrow s.ncol) := by
  have hv := Pattern.valid_dense s.nrow s.ncol
  have hrow {n k i : Nat} (hk : k < (Pattern.diagonal n).nrow) (hi : i ∈ (Pattern.diagonal n).row k) : i = k ∧ i < n := by
    rw [Pattern.nrow_diagonal] at hk
    rw [Pattern.row_diagonal hk, Array.mem_singleton] at hi
    exact ⟨hi, hi ▸ hk⟩
  have hself {n k : Nat} (hk : k < n) : k < (Pattern.diagonal n).nrow ∧ k ∈ (Pattern.diagonal n).row k := by
    rw [Pattern.nrow_diagonal, Pattern.row_diagonal hk]
    exact ⟨hk, Array.mem_singleton_self k⟩
  have hforward : (Partition.forward (.diagonal s.ncol)).Fills s (.dense s.nrow s.ncol) :=
    ⟨hv, by simp, rfl, fun k hk c hc => (hrow hk hc).2, fun e he => ⟨e.2, hself (hv.entry_lt he).2⟩,
      fun k hk e _ ht e' _ ht' hplace => Prod.ext hplace ((hrow hk ht').1.trans (hrow hk ht).1.symm)⟩
  have hadjoint : (Partition.adjoint (.diagonal s.nrow)).Fills s (.dense s.nrow s.ncol) :=
    ⟨hv, by simp, rfl, fun k hk r hr => by simpa using (hrow hk hr).2,
      fun e he => ⟨e.1, hself (by simpa using (hv.entry_lt he).1)⟩,
      fun k hk e _ ht e' _ ht' hplace => Prod.ext ((hrow hk ht').1.trans (hrow hk ht).1.symm) hplace⟩
  rw [entrywise]
  split
  · exact hadjoint
  · exact hforward
  · exact hforward

/-! ### The gradient on the pattern of the input -/

theorem Evaluate.firstOutput_gradient [Number K] {block : JacobianBlock} (hl : block.layout = .gradient) {rows cols : Nat}
    (hp : block.pattern = .dense rows cols) (V : Nat × Nat → K) {old : Array K} (hold : old.size = cols) :
    firstOutput block (block.pattern.entries.map V) old =
      (Array.range cols).map fun c => if rows = 1 then V (0,c) else Number.zero := by
  rw [firstOutput, hl, hp]
  dsimp only
  rw [Pattern.nrow_dense]
  split
  · next hone =>
    subst hone
    have hentries : (Pattern.dense 1 cols).entries.map V = (Array.range cols).map fun c => V (0,c) := by
      simp [Pattern.entries, Pattern.row_dense, Array.range_succ, Function.comp_def]
    rw [hentries, Pattern.row_dense Nat.one_pos]
    -- Every place is written once.
    have hputs : ((Array.range cols).zip ((Array.range cols).map fun c => V (0,c))).foldl
        (fun v w => v.setIfInBounds w.1 w.2) (old.map fun _ => Number.zero) =
        Recover.puts ((List.range cols).map fun c => (c, some (V (0,c)))) (old.map fun _ => Number.zero) := by
      rw [Recover.puts, List.foldl_map, ← Array.foldl_toList, Array.toList_zip, Array.toList_map, Array.toList_range,
        List.zip_map_right, List.zip_eq_zipWith, List.zipWith_self, List.foldl_map, List.foldl_map]
      rfl
    refine hputs.trans (Array.ext_getElem? fun c => ?_)
    by_cases hc : c < cols
    · have hget : ((Array.range cols).map fun c => V (0,c))[c]? = some (V (0,c)) := by simp [hc]
      rw [hget]
      refine Recover.getElem?_puts (by simpa [hold] using hc) ⟨(c, some (V (0,c))), by simp [hc], rfl⟩ fun w hw hwc => ?_
      obtain ⟨a, -, rfl⟩ := List.mem_map.mp hw
      exact congrArg (fun a => some (V (0,a))) hwc
    · rw [Array.getElem?_eq_none (by simp [hold]; omega), Array.getElem?_eq_none (by simp; omega)]
  · simp [Array.map_const', hold]

theorem jacobianAt_first [CommRing K] [Number K] {m n : Matrix (Expr K)} {c : Nat} {x : Expr K} (hx : m.values[c]? = some x)
    (ρ : Symbol → K) : jacobianAt ρ m.values n.values (0,c) = n.slope ρ x := by
  cases hy : n.values[0]? <;> simp [jacobianAt, Matrix.slope, hx, hy]

/-! ### Numeric Jacobians -/

/-- The block of `rows` and `cols` from one sweep for each entry, with the pattern `first`. -/
def Definition.entrywise (p : Definition K) (uid : Nat) (o : Options K) (iind oind : Nat) (layout : Layout)
    (first : Pattern) (rows cols : Nat) : Definition K :=
  .jacobian ⟨uid, o, p.sig.inputs, #[first] ++ p.sig.outputs⟩
    ⟨iind, oind, layout, .dense rows cols, .sweeps (p.sig.options.entrywise rows cols)⟩ p

section Numeric

variable [Field K] [Number K] [ExactField K] {inputs outputs : Array (Matrix (Expr K))} {sig : Signature K} {t : Tape K}
  {m n : Matrix (Expr K)} {iind oind uid : Nat} {o : Options K} {x : Block K} {first : Pattern}

/-- Where all numbers are finite, no value is refused. -/
theorem Effect.checking_eq (s : Signature K) (E : Effect K) : E.checking s = E := by
  have hpasses : passes s = fun _ : Block K => true := funext fun y => by simp [passes, finite, ExactField.finite]
  have hfilter (o : Option (Block K)) : o.filter (fun _ => true) = o := by cases o <;> rfl
  simp only [checking, hpasses, hfilter]

namespace Expresses

variable (h : Expresses inputs outputs sig t) (hm : inputs[iind]? = some m) (hn : outputs[oind]? = some n)
include h hm hn

omit [Field K] [ExactField K] in
theorem numericSource_eq (hsm : m.Sized) (hsn : n.Sized) :
    (Definition.expressions sig t inputs).numericSource iind oind =
      .ok (.dense n.nnz m.nnz, .sweeps (sig.options.entrywise n.nnz m.nnz)) := by
  have hsig : (Definition.expressions sig t inputs).sig = sig := rfl
  rw [Definition.numericSource, hsig, h.checkInput hm, ok_bind, h.checkOutput hn, ok_bind, ← hsm, ← hsn]
  rfl

variable (hin : ∀ m ∈ inputs, m.Sized) (hout : ∀ m ∈ outputs, m.Sized)
include hin hout

omit [Field K] [ExactField K] in
/-- A numeric Jacobian is made, once its pattern is known. -/
theorem run_numericJacobian {compact : Bool} {layout : Layout}
    (hfirst : (match layout, compact with
      | .gradient, _ => pure m.pattern
      | .jacobian, true => pure (.dense n.nnz m.nnz)
      | .jacobian, false => (Definition.expressions sig t inputs).enlarge (.dense n.nnz m.nnz) iind oind :
        Except Fault Pattern) = .ok first) :
    ((Definition.expressions sig t inputs).numericJacobian iind oind compact layout o).run uid =
      (.ok ((Definition.expressions sig t inputs).entrywise uid o iind oind layout first n.nnz m.nnz), uid+1) := by
  have hsource := h.numericSource_eq hm hn (hin m (Array.mem_of_getElem? hm)) (hout n (Array.mem_of_getElem? hn))
  have hinput : (Definition.expressions sig t inputs).sig.checkInput iind = .ok m.pattern := h.checkInput hm
  rw [Definition.numericJacobian, Make.lift_ok hsource]
  cases layout with
  | gradient =>
    obtain rfl := Except.ok.inj hfirst
    dsimp only
    rw [Make.lift_ok hinput]
    rfl
  | jacobian =>
    cases compact with
    | true =>
      obtain rfl := Except.ok.inj hfirst
      rfl
    | false =>
      dsimp only at hfirst ⊢
      rw [Make.lift_ok hfirst]
      rfl

variable (hr : ∀ e, Expr.ReachedFrom (Matrix.entries outputs) e → e.op ≠ .rem)
include hr

/-- It answers the derivatives of the block, in its layout, and the outputs. -/
theorem entrywise_answers {layout : Layout} (ho : o.counts = sig.options.counts)
    (hplaces : layout = .jacobian → first.nnz = n.nnz*m.nnz)
    (hmost : (sig.options.entrywise n.nnz m.nnz).colors = 0 ∨
      1 ≤ (sig.options.entrywise n.nnz m.nnz).select sig.options.limits)
    (hx : x.sizes = inputs.map Matrix.nnz) :
    let d := (Definition.expressions sig t inputs).entrywise uid o iind oind layout first n.nnz m.nnz
    let ρ := Tape.valuation 0 inputs x
    let block : JacobianBlock :=
      ⟨iind, oind, layout, .dense n.nnz m.nnz, .sweeps (sig.options.entrywise n.nnz m.nnz)⟩
    d.Answers x (#[⟨first, Evaluate.firstOutput block
      ((Pattern.dense n.nnz m.nnz).entries.map (jacobianAt ρ m.values n.values)) (.replicate first.nnz 0)⟩] ++
        outputs.map (Matrix.map (Expr.value ρ))) := by
  intro d ρ block
  have hsource := h.numericSource_eq hm hn (hin m (Array.mem_of_getElem? hm)) (hout n (Array.mem_of_getElem? hn))
  have hsound : d.Sound Callable.Complete (Matrix.entries inputs ++ Matrix.entries outputs) :=
    .jacobian (Definition.standsOn_numericSource hsource layout rfl rfl ho) (.expressions (h.draws hin hout))
  have hfills : (sig.options.entrywise n.nnz m.nnz).Fills (dependence m.values n.values) (.dense n.nnz m.nnz) := by
    have hshape := sig.options.fills_entrywise (dependence m.values n.values)
    rwa [nrow_dependence, ncol_dependence] at hshape
  have hvalues := h.effect_values hin hout hr hm hn hfills hmost hx
  refine hsound.answers (hx.trans h.inputSizes.symm) ?_ ?_
  · simp [d, Definition.entrywise, Definition.sig, h.outputPatterns, Matrix.map, Function.comp_def]
  -- The effect of the block is made of what its parent tells.
  rw [Definition.effect, Effect.checking_eq, Effect.value_skipping]
  let own : Signature K := ⟨uid, o, sig.inputs, #[first] ++ sig.outputs⟩
  change (Definition.expressions sig t inputs).effect.jacobian own block (.expressions sig t inputs) x = _
  have hparts : (Definition.expressions sig t inputs).effect.parts block (.expressions sig t inputs) x =
      some ((Pattern.dense n.nnz m.nnz).entries.map (jacobianAt ρ m.values n.values),
        Block.ofEntries (Expr.value ρ) outputs) := by
    rw [Effect.parts, h.effect_value hin hout hr hx]
    change (Effect.values _ sig _ x >>= _) = _
    rw [hvalues]
    rfl
  have hsize : own.outputSizes.getD 0 0 = first.nnz := by simp [own, Signature.outputSizes]
  have hcount : ((Pattern.dense n.nnz m.nnz).entries.map (jacobianAt ρ m.values n.values)).size = n.nnz*m.nnz := by
    rw [Array.size_map, (Pattern.valid_dense _ _).size_entries, Pattern.nnz_dense]
  rw [Effect.jacobian, hparts]
  change (if _ then none else some (#[_] ++ _)) = _
  rw [if_neg]
  · rw [hsize, Number.zero_eq]
    simp [Block.ofEntries, Matrix.map, Function.comp_def]
  · rw [hsize, hcount]
    intro hne
    obtain ⟨hl, hdiffer⟩ := Bool.and_eq_true_iff.mp hne
    exact of_decide_eq_true hdiffer (hplaces (of_decide_eq_true hl)).symm

end Expresses

end Numeric

end Fluxion
