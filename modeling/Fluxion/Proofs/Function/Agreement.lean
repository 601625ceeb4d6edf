import Fluxion.Proofs.Function.Derivative
import Fluxion.Proofs.Function.Hessian
import Fluxion.Proofs.Function.NumericJacobian

/-!
Symbolic and numeric Jacobians. One is made of colored sweeps over expressions, the other one sweeps the entries one by
one, and each has its own pattern. In dense form both have the derivatives of the block, and so has the gradient of a
scalar output, which is the row of its Jacobian on the pattern of the input.
-/
set_option autoImplicit false

namespace Fluxion

open Fluxion.Expr

variable {K : Type}

/-- The elements of two matrices have room as the rows and the columns of a dense form. -/
structure Matrix.Spreads {T : Type} (n m : Matrix T) : Prop where
  rowsValid : n.pattern.Valid
  columnsValid : m.pattern.Valid
  rows : Pattern.checkRows (n.pattern.nrow*n.pattern.ncol) = .ok ()
  columns : m.pattern.nrow*m.pattern.ncol < 2 ^ 64

section Scalar
variable {T U : Type}

theorem Pattern.Valid.nnz_le_one {p : Pattern} (hp : p.Valid) (hone : p.isScalar = true) : p.nnz ≤ 1 := by
  obtain ⟨hrow, hcol⟩ : p.nrow = 1 ∧ p.ncol = 1 := by simpa [Pattern.isScalar] using hone
  have hsize : p.nrow*p.ncol < 2 ^ 64 := by rw [hrow, hcol]; decide
  rw [← hp.size_elements]
  by_contra hmore
  have hlt : p.elements[0] < p.elements[1] :=
    List.pairwise_iff_getElem.mp (hp.pairwise_elements hsize) 0 1 (by simp; omega) (by simp; omega) Nat.one_pos
  have hbound := hp.mem_elements_lt hsize (Array.getElem_mem (show 1 < p.elements.size by omega))
  rw [hrow, hcol] at hbound
  omega

namespace Matrix

theorem element?_map (f : T → U) (m : Matrix T) (a : Nat) : (m.map f).element? a = (m.element? a).map f := by
  simp only [element?, get?, map, Option.map_bind]
  exact congrArg (Option.bind _) (funext fun k => Array.getElem?_map)

/-- The only element of a scalar has its entry, if there is one. -/
theorem element?_scalar {n : Matrix T} (hn : n.pattern.Valid) (hs : n.Sized) (hone : n.pattern.isScalar = true) :
    n.element? 0 = n.values[0]? := by
  obtain ⟨hrow, hcol⟩ : n.pattern.nrow = 1 ∧ n.pattern.ncol = 1 := by simpa [Pattern.isScalar] using hone
  have hsize : n.pattern.nrow*n.pattern.ncol < 2 ^ 64 := by rw [hrow, hcol]; decide
  refine Option.ext fun x => (element?_eq_some hn hsize).trans ?_
  constructor
  · rintro ⟨k, -, hx⟩
    have hk : k < n.values.size := (Array.getElem?_eq_some_iff.mp hx).1
    have hnnz := hn.nnz_le_one hone
    rw [← hs] at hnnz
    obtain rfl : k = 0 := by omega
    exact hx
  · intro hx
    have hpos : 0 < n.pattern.elements.size := by
      rw [hn.size_elements, ← hs]
      exact (Array.getElem?_eq_some_iff.mp hx).1
    have hlt := hn.mem_elements_lt hsize (Array.getElem_mem hpos)
    rw [hrow, hcol] at hlt
    exact ⟨0, Array.getElem?_eq_some_iff.mpr ⟨hpos, by omega⟩, hx⟩

end Matrix

end Scalar

section Dense

variable [Field K] [Number K]

/-- The derivatives of all entries of `n` by all entries of `m`, or of all elements by all elements. -/
def blockAt (ρ : Symbol → K) (m n : Matrix (Expr K)) (compact : Bool) : Array (Array K) :=
  if compact then table n.values.size m.values.size fun r c => jacobianAt ρ m.values n.values (r,c)
  else table (n.pattern.nrow*n.pattern.ncol) (m.pattern.nrow*m.pattern.ncol)
    (n.across m 0 fun y x => y.derivative ρ x.indicator)

section Rows

variable {m n : Matrix (Expr K)}

/-- The rows of a scalar, one for its entry, have the values of the gradient. -/
theorem blockAt_compact (hn : n.nnz ≤ 1) (ρ : Symbol → K) :
    blockAt ρ m n true = n.values.map fun _ => (m.map (n.slope ρ)).values := by
  rw [blockAt, if_pos rfl]
  refine Array.ext_getElem? fun r => ?_
  rw [table, Array.getElem?_map, Array.getElem?_map]
  by_cases hr : r < n.values.size
  · obtain rfl : r = 0 := by rw [Matrix.nnz] at hn; omega
    rw [Array.getElem?_range, if_pos hr, Array.getElem?_eq_getElem hr, Option.map_some, Option.map_some]
    refine congrArg some (Array.ext_getElem? fun c => ?_)
    rw [Array.getElem?_map, Matrix.map, Array.getElem?_map]
    cases hx : m.values[c]? with
    | none => rw [Array.getElem?_eq_none (by simpa using hx)]; rfl
    | some x => 
      rw [Array.getElem?_range, if_pos (Array.getElem?_eq_some_iff.mp hx).1, Option.map_some, jacobianAt_first hx]
      rfl
  · rw [Array.getElem?_eq_none (by simpa using hr), Array.getElem?_eq_none (by simpa using hr)]
    rfl

/-- The row over all elements has the values of the gradient, and zero where the input has no entry. -/
theorem blockAt_spread (hn : n.pattern.Valid) (hs : n.Sized) (hone : n.pattern.isScalar = true) (ρ : Symbol → K) :
    blockAt ρ m n false =
      #[(Array.range (m.pattern.nrow*m.pattern.ncol)).map fun a => ((m.map (n.slope ρ)).element? a).getD 0] := by
  obtain ⟨hrow, hcol⟩ : n.pattern.nrow = 1 ∧ n.pattern.ncol = 1 := by simpa [Pattern.isScalar] using hone
  have hacross (a : Nat) : n.across m 0 (fun y x => y.derivative ρ x.indicator) 0 a =
      ((m.map (n.slope ρ)).element? a).getD 0 := by
    rw [Matrix.across, Matrix.element?_scalar hn hs hone, Matrix.element?_map]
    cases hy : n.values[0]? <;> cases m.element? a <;> simp [Matrix.slope, hy]
  have hrange : Array.range (1*1) = #[0] := rfl
  rw [blockAt, if_neg Bool.false_ne_true, hrow, hcol, table, hrange]
  simp [hacross]

end Rows

theorem jacobianAt_eq_zero_of_outside (ρ : Symbol → K) {ins outs : Array (Expr K)} {r c : Nat}
    (h : ¬(r < outs.size ∧ c < ins.size)) : jacobianAt ρ ins outs (r,c) = 0 := by
  rw [jacobianAt]
  split
  · next y x hy hx =>
    exact absurd ⟨(Array.getElem?_eq_some_iff.mp hy).1, (Array.getElem?_eq_some_iff.mp hx).1⟩ h
  · rfl

/-- The row of a scalar has its derivatives. If its entry is missing, they are zero. -/
theorem entrywise_slope [ExactField K] {m n : Matrix (Expr K)} (hn : n.nnz ≤ 1) (ρ : Symbol → K) :
    ((Array.range m.nnz).map fun c => if n.nnz = 1 then jacobianAt ρ m.values n.values (0,c) else Number.zero) =
      m.values.map (n.slope ρ) := by
  refine Array.ext_getElem? fun c => ?_
  cases hx : m.values[c]? with
  | none =>
    have hc : m.nnz ≤ c := Array.getElem?_eq_none_iff.mp hx
    rw [Array.getElem?_map, Array.getElem?_map, hx, Array.getElem?_eq_none (by simpa using hc)]
    rfl
  | some x =>
    have hc : c < m.nnz := (Array.getElem?_eq_some_iff.mp hx).1
    rw [Array.getElem?_map, Array.getElem?_map, hx, Array.getElem?_range, if_pos hc, Option.map_some, Option.map_some]
    congr 1
    split
    · exact jacobianAt_first hx ρ
    · next hne =>
      have hempty : n.values[0]? = none := Array.getElem?_eq_none (by rw [Matrix.nnz] at hn hne; omega)
      rw [Matrix.slope, hempty, Number.zero_eq]
      rfl

variable {inputs outputs : Array (Matrix (Expr K))} {sig : Signature K} {t : Tape K} {m n : Matrix (Expr K)}
  {iind oind : Nat}

/-- A pattern over entries in the form that is asked for. Its values in dense form are the derivatives, if none is
missing. -/
theorem Expresses.exists_first (h : Expresses inputs outputs sig t) (hm : inputs[iind]? = some m)
    (hn : outputs[oind]? = some n) (hsm : m.Sized) (hsn : n.Sized) {compact : Bool}
    (hspreads : compact = false → n.Spreads m) {p : Pattern} (hp : p.Valid) (hrow : p.nrow = n.values.size)
    (hcol : p.ncol = m.values.size)
    (hzero : ∀ ρ r c, (r,c) ∉ p.entries → jacobianAt (K := K) ρ m.values n.values (r,c) = 0) :
    ∃ first, (if compact then pure p else (Definition.expressions sig t inputs).enlarge p iind oind :
        Except Fault Pattern) = .ok first ∧ first.nnz = p.nnz ∧
      ∀ ρ, (⟨first, p.entries.map (jacobianAt ρ m.values n.values)⟩ : Matrix K).toRows 0 = blockAt ρ m n compact := by
  cases compact with
  | true =>
    refine ⟨p, rfl, rfl, fun ρ => ?_⟩
    rw [blockAt, if_pos rfl, ← hrow, ← hcol]
    exact Matrix.toRows_eq hp (M := fun r c => jacobianAt ρ m.values n.values (r,c)) fun r c _ _ => hzero ρ r c
  | false =>
    obtain ⟨hnv, hmv, hroom, hsize⟩ := hspreads rfl
    obtain ⟨q, hq, hnnz, hdense⟩ := Matrix.exists_spread (U := K) hnv hmv hsn hsm hroom hsize hp hrow hcol
    refine ⟨q, (h.enlarge hm hn hmv hnv p).trans hq, hnnz, fun ρ => ?_⟩
    rw [blockAt, if_neg Bool.false_ne_true]
    refine hdense 0 _ _ (fun r c y x hy hx => ?_) (hzero ρ)
    rw [jacobianAt, hy, hx]

end Dense

section Answers

variable [Field K] [Number K] [ExactField K] {inputs outputs : Array (Matrix (Expr K))} {sig : Signature K} {t : Tape K}
  {m n : Matrix (Expr K)} {iind oind : Nat}

/-- At every point the answers are a matrix whose dense form has the derivatives of the block, and the outputs. -/
def Definition.AnswersBlock (d : Definition K) (inputs outputs : Array (Matrix (Expr K))) (m n : Matrix (Expr K))
    (compact : Bool) : Prop :=
  ∀ x : Block K, x.sizes = inputs.map Matrix.nnz →
    let ρ := Tape.valuation 0 inputs x
    ∃ J : Matrix K, J.toRows 0 = blockAt ρ m n compact ∧
      d.Answers x (#[J] ++ outputs.map (Matrix.map (Expr.value ρ)))

/-- At every point the answers are the derivatives of a scalar on the pattern of the input, and the outputs. -/
def Definition.AnswersGradient (d : Definition K) (inputs outputs : Array (Matrix (Expr K))) (m n : Matrix (Expr K)) :
    Prop :=
  ∀ x : Block K, x.sizes = inputs.map Matrix.nnz →
    let ρ := Tape.valuation 0 inputs x
    d.Answers x (#[m.map (n.slope ρ)] ++ outputs.map (Matrix.map (Expr.value ρ)))

namespace Expresses

variable (h : Expresses inputs outputs sig t) (hm : inputs[iind]? = some m) (hn : outputs[oind]? = some n)
  (hin : ∀ m ∈ inputs, m.Sized) (hout : ∀ m ∈ outputs, m.Sized)
  (hr : ∀ e, ReachedFrom (Matrix.entries outputs) e → e.op ≠ .rem)

/-! ### Symbolic -/

section Symbolic

variable [ExactPower K] {uid : Nat} (hj : sig.options.numericJacobian = false)
  (hid : ∀ e ∈ Matrix.entries inputs, e.id < uid)
include h hm hn hin hr hj hid

/-- Colored sweeps over expressions, on a pattern with a place for every entry that they find. -/
theorem exists_symbolicBlock {compact : Bool} {first : Pattern}
    (hfirst : (if compact then pure (dependence m.values n.values) else
      (Definition.expressions sig t inputs).enlarge (dependence m.values n.values) iind oind :
        Except Fault Pattern) = .ok first) (hnnz : first.nnz = (dependence m.values n.values).nnz) :
    ∃ g uid',
      ((Definition.expressions sig t inputs).derive (.jacobian iind oind compact false)).run uid = (.ok g, uid') ∧
      g.sig.options = sig.derivedOptions "jac" ∧ ∀ x : Block K, x.sizes = inputs.map Matrix.nnz →
        let ρ := Tape.valuation 0 inputs x
        g.Answers x (#[⟨first, (dependence m.values n.values).entries.map (jacobianAt ρ m.values n.values)⟩] ++
          outputs.map (Matrix.map (Expr.value ρ))) := by
  have hderive : (Definition.expressions sig t inputs).derive (.jacobian iind oind compact false) =
      Symbolic.jacobian (.expressions sig t inputs) t inputs iind oind compact false (sig.derivedOptions "jac") :=
    Symbolic.buildJacobian_eq hj iind oind compact false .jacobian _
  have hd (ρ : Symbol → K) (op : Op) (hs : op.isStructural = false) (hok : op ≠ .rem) :
      Tape.Derives (fun op => op ≠ .rem) (Matrix.entries inputs) (RingHom.id K) ρ op :=
    Tape.derives_total reading_total rfl hs hok
  have hv := valid_dependence m.values n.values
  obtain ⟨side, hpartition, hside⟩ := h.partition hm hn
  obtain ⟨g, uid', -, hrun, -, -, sig', t', values, outs, rfl, hoptions, hx, hops, hagain, hvalues⟩ :=
    (Symbolic.returns_jacobian h reading_total (fun e he _ => hr e he) (by simp) hd hin (fun e he => .root he)
      (h.jacSparsity hm hn) hpartition hfirst
      (fun ρ => Symbolic.recovered_eq (ρ := ρ) h.closed hm hn (hside.fills hv))
      (fun ρ => by rw [Array.size_map, hv.size_entries, hnnz]) _).exists_run
        (Symbolic.stock_symbols h.closed.distinct hid)
  refine ⟨.expressions sig' t' inputs, uid', by rw [hderive, hrun], hoptions, fun x hsizes => ?_⟩
  have hanswers := hx.answers (ne_rem_of_ok (· ≠ .rem) (by simp) hops) hsizes
  rw [Array.map_append, hagain.map] at hanswers
  simpa [Matrix.map, hvalues] using hanswers

/-- Its dense form has the derivatives of the block. -/
theorem exists_symbolicJacobian {compact : Bool} (hsn : n.Sized) (hspreads : compact = false → n.Spreads m) :
    ∃ g uid',
      ((Definition.expressions sig t inputs).derive (.jacobian iind oind compact false)).run uid = (.ok g, uid') ∧
      g.sig.options = sig.derivedOptions "jac" ∧ g.AnswersBlock inputs outputs m n compact := by
  obtain ⟨first, hfirst, hnnz, hdense⟩ := h.exists_first hm hn (hin m (Array.mem_of_getElem? hm)) hsn hspreads
    (valid_dependence m.values n.values) nrow_dependence ncol_dependence fun ρ r c => jacobianAt_eq_zero ρ
  obtain ⟨g, uid', hrun, hoptions, hanswers⟩ := h.exists_symbolicBlock hm hn hin hr hj hid hfirst hnnz
  exact ⟨g, uid', hrun, hoptions, fun x hsizes => ⟨_, hdense _, hanswers x hsizes⟩⟩

/-- One sweep against the output. -/
theorem exists_symbolicGradient (hnnz : n.nnz ≤ 1) :
    ∃ g uid', ((Definition.expressions sig t inputs).derive (.gradient iind oind)).run uid = (.ok g, uid') ∧
      g.sig.options = sig.derivedOptions "grad" ∧ g.AnswersGradient inputs outputs m n := by
  have hderive : (Definition.expressions sig t inputs).derive (.gradient iind oind) =
      Symbolic.gradient (.expressions sig t inputs) t inputs iind oind (sig.derivedOptions "grad") :=
    Symbolic.buildJacobian_eq hj iind oind true false .gradient _
  have hd (ρ : Symbol → K) (op : Op) (hs : op.isStructural = false) (hok : op ≠ .rem) :
      Tape.Derives (fun op => op ≠ .rem) (Matrix.entries inputs) (RingHom.id K) ρ op :=
    Tape.derives_total reading_total rfl hs hok
  obtain ⟨g, uid', -, hrun, -, -, sig', t', grad, outs, rfl, hoptions, hx, hops, hagain, hvalues⟩ :=
    (Symbolic.returns_gradient h reading_total (fun e he _ => hr e he) (by simp) hd hin hm hn hnnz
      (fun e he => .root he) _).exists_run (Symbolic.stock_symbols h.closed.distinct hid)
  refine ⟨.expressions sig' t' inputs, uid', by rw [hderive, hrun], hoptions, fun x hsizes => ?_⟩
  have hid : meaning (RingHom.id K) = Expr.value := funext fun ρ => funext (Expr.meaning_id ρ)
  have hsame (e : Expr K) : e.map (RingHom.id K) = e := e.map_eq_self fun _ => rfl
  rw [hid] at hagain hvalues
  simp only [hsame, n.map_id] at hvalues
  have hanswers := hx.answers (ne_rem_of_ok (· ≠ .rem) (by simp) hops) hsizes
  rw [Array.map_append, hagain.map] at hanswers
  simpa [Matrix.map, hvalues] using hanswers

end Symbolic

/-! ### Numeric -/

section Numeric

variable {uid : Nat} (hj : sig.options.numericJacobian = true)

omit [Field K] [ExactField K] in
include hj in
theorem buildJacobian_numeric (compact symmetric : Bool) (layout : Layout) (o : Options K) :
    (Definition.expressions sig t inputs).buildJacobian iind oind compact symmetric layout o =
      (Definition.expressions sig t inputs).numericJacobian iind oind compact layout o := by
  change (if sig.options.numericJacobian = true then _ else _) = _
  rw [hj]
  rfl

include h hm hn hin hout hr hj

/-- One sweep for each entry. -/
theorem exists_numericJacobian {compact : Bool} (hspreads : compact = false → n.Spreads m)
    (hmost : (sig.options.entrywise n.nnz m.nnz).colors = 0 ∨
      1 ≤ (sig.options.entrywise n.nnz m.nnz).select sig.options.limits) :
    ∃ g, ((Definition.expressions sig t inputs).derive (.jacobian iind oind compact false)).run uid = (.ok g, uid+1) ∧
      g.sig.options = sig.derivedOptions "jac" ∧ g.AnswersBlock inputs outputs m n compact := by
  have hv := Pattern.valid_dense n.nnz m.nnz
  obtain ⟨first, hfirst, hnnz, hdense⟩ := h.exists_first hm hn (hin m (Array.mem_of_getElem? hm))
    (hout n (Array.mem_of_getElem? hn)) hspreads hv (by simp [Matrix.nnz]) (by simp [Matrix.nnz])
    fun ρ r c hrc => jacobianAt_eq_zero_of_outside ρ (mt Pattern.mem_dense.mpr hrc)
  have hderive : (Definition.expressions sig t inputs).derive (.jacobian iind oind compact false) =
      (Definition.expressions sig t inputs).numericJacobian iind oind compact .jacobian (sig.derivedOptions "jac") :=
    buildJacobian_numeric hj compact false .jacobian _
  have hrun : ((Definition.expressions sig t inputs).numericJacobian iind oind compact .jacobian
      (sig.derivedOptions "jac")).run uid =
        (.ok ((Definition.expressions sig t inputs).entrywise uid (sig.derivedOptions "jac") iind oind .jacobian first
          n.nnz m.nnz), uid+1) :=
    h.run_numericJacobian hm hn hin hout (by cases compact <;> exact hfirst)
  refine ⟨_, by rw [hderive, hrun], rfl, fun x hsizes => ⟨_, hdense (Tape.valuation 0 inputs x), ?_⟩⟩
  exact h.entrywise_answers hm hn hin hout hr rfl (fun _ => by rw [hnnz]; simp) hmost hsizes

/-- The only row of the entrywise block. -/
theorem exists_numericGradient (hnnz : n.nnz ≤ 1)
    (hmost : (sig.options.entrywise n.nnz m.nnz).colors = 0 ∨
      1 ≤ (sig.options.entrywise n.nnz m.nnz).select sig.options.limits) :
    ∃ g, ((Definition.expressions sig t inputs).derive (.gradient iind oind)).run uid = (.ok g, uid+1) ∧
      g.sig.options = sig.derivedOptions "grad" ∧ g.AnswersGradient inputs outputs m n := by
  have hderive : (Definition.expressions sig t inputs).derive (.gradient iind oind) =
      (Definition.expressions sig t inputs).numericJacobian iind oind true .gradient (sig.derivedOptions "grad") :=
    buildJacobian_numeric hj true false .gradient _
  have hrun : ((Definition.expressions sig t inputs).numericJacobian iind oind true .gradient
      (sig.derivedOptions "grad")).run uid =
        (.ok ((Definition.expressions sig t inputs).entrywise uid (sig.derivedOptions "grad") iind oind .gradient
          m.pattern n.nnz m.nnz), uid+1) :=
    h.run_numericJacobian hm hn hin hout rfl
  refine ⟨_, by rw [hderive, hrun], rfl, fun x hsizes => ?_⟩
  have hsm : m.pattern.nnz = m.nnz := (hin m (Array.mem_of_getElem? hm)).symm
  have hplaces : Layout.gradient = .jacobian → m.pattern.nnz = n.nnz*m.nnz := by simp
  let block : JacobianBlock :=
    ⟨iind, oind, .gradient, .dense n.nnz m.nnz, .sweeps (sig.options.entrywise n.nnz m.nnz)⟩
  have hrow : Evaluate.firstOutput block
      (block.pattern.entries.map (jacobianAt (Tape.valuation 0 inputs x) m.values n.values))
      (.replicate m.pattern.nnz 0) = m.values.map (n.slope (Tape.valuation 0 inputs x)) :=
    (Evaluate.firstOutput_gradient rfl rfl _ (by rw [Array.size_replicate, hsm])).trans (entrywise_slope hnnz _)
  have hfirst : m.map (n.slope (Tape.valuation 0 inputs x)) = ⟨m.pattern, _⟩ := congrArg (Matrix.mk m.pattern) hrow.symm
  dsimp only
  rw [hfirst]
  exact h.entrywise_answers hm hn hin hout hr rfl hplaces hmost hsizes

end Numeric

end Expresses

end Answers

section Requests

variable {K : Type} [Number K] {inputs outputs : Array (Matrix (Expr K))} {sig : Signature K} {t : Tape K}
  {m n : Matrix (Expr K)} {iind oind k l : Nat} {d g : Definition K} {o : Options K}

/-- What is asked for can be asked for and is made, with as much room for an instance as the function has. -/
structure Definition.Makes (d : Definition K) (r : Request) (k : Nat) (g : Definition K) : Prop where
  check : d.checkRequest r = .ok ()
  run : ∃ l, (d.derive r).run k = (.ok g, l)
  room : ∀ i, Instance.of? d = .ok i → Instance.of? g = .ok (.of g)

/-- Options that were derived ask for as much room. -/
theorem Definition.room_of_derivedOptions {label : String} (h : g.sig.options = d.sig.derivedOptions label)
    (i : Instance K) (hi : Instance.of? d = .ok i) : Instance.of? g = .ok (.of g) := by
  obtain ⟨hforward, hadjoint, -⟩ := Instance.of?_eq_ok.mp hi
  exact Instance.of?_eq_ok.mpr ⟨by rw [h]; exact hforward, by rw [h]; exact hadjoint, rfl⟩

omit [Number K] in
/-- A numeric block over all elements has a pattern that could be spread. -/
theorem Definition.enlarge_of_numericJacobian
    (h : (d.numericJacobian iind oind false .jacobian o).run k = (.ok g, l)) :
    ∃ p first, d.enlarge p iind oind = .ok first := by
  rw [numericJacobian] at h
  obtain ⟨⟨p, source⟩, _, -, h⟩ := exists_of_run_bind h
  obtain ⟨first, _, hfirst, -⟩ := exists_of_run_bind h
  exact ⟨p, first, congrArg Prod.fst hfirst⟩

/-- So has a symbolic one. -/
theorem Symbolic.enlarge_of_jacobian {symmetric : Bool}
    (h : (jacobian d t inputs iind oind false symmetric o).run k = (.ok g, l)) :
    ∃ p first, d.enlarge p iind oind = .ok first := by
  rw [jacobian] at h
  obtain ⟨p, _, -, h⟩ := exists_of_run_bind h
  obtain ⟨side, _, -, h⟩ := exists_of_run_bind h
  obtain ⟨b, _, -, h⟩ := exists_of_run_bind h
  obtain ⟨fs, _, -, h⟩ := exists_of_run_bind h
  obtain ⟨as, _, -, h⟩ := exists_of_run_bind h
  obtain ⟨c, _, -, h⟩ := exists_of_run_bind h
  obtain ⟨zero, _, -, h⟩ := exists_of_run_bind h
  obtain ⟨first, _, hfirst, -⟩ := exists_of_run_bind h
  exact ⟨p, first, congrArg Prod.fst hfirst⟩

namespace Sorts

theorem checkRequest_jacobian (h : Sorts inputs outputs sig t) (hm : inputs[iind]? = some m)
    (hn : outputs[oind]? = some n) (compact symmetric : Bool) :
    (Definition.expressions sig t inputs).checkRequest (.jacobian iind oind compact symmetric) = .ok () := by
  have hsig : (Definition.expressions sig t inputs).sig = sig := rfl
  rw [Definition.checkRequest, hsig, h.checkInput hm, ok_bind, h.checkOutput hn]
  rfl

theorem checkRequest_gradient (h : Sorts inputs outputs sig t) (hm : inputs[iind]? = some m)
    (hn : outputs[oind]? = some n) (hone : n.pattern.isScalar = true) :
    (Definition.expressions sig t inputs).checkRequest (.gradient iind oind) = .ok () := by
  have hsig : (Definition.expressions sig t inputs).sig = sig := rfl
  have hscalar : sig.checkScalar "gradients" oind = .ok () := by
    rw [Signature.checkScalar, h.checkOutput hn, ok_bind, if_pos hone]
    rfl
  rw [Definition.checkRequest, hsig, h.checkInput hm, ok_bind, hscalar]

/-- What has been spread over all elements has room for them as rows. -/
theorem checkRows_of_enlarge (h : Sorts inputs outputs sig t) (hn : outputs[oind]? = some n)
    (hcount : n.pattern.Counted) {p first : Pattern}
    (he : (Definition.expressions sig t inputs).enlarge p iind oind = .ok first) :
    Pattern.checkRows (n.pattern.nrow*n.pattern.ncol) = .ok () := by
  obtain ⟨input, -, he⟩ := exists_of_bind_eq_ok he
  obtain ⟨output, hout, he⟩ := exists_of_bind_eq_ok he
  obtain ⟨_, -, he⟩ := exists_of_bind_eq_ok he
  obtain ⟨_, -, he⟩ := exists_of_bind_eq_ok he
  obtain rfl : n.pattern = output := Except.ok.inj ((h.checkOutput hn).symm.trans hout)
  rw [← Count.wrap_of_lt hcount.size]
  exact (Pattern.exists_of_enlarge? he).1

end Sorts

/-- Without room for the rows no block over all elements is made, in neither way. -/
theorem Expresses.checkRows_of_makes (h : Expresses inputs outputs sig t) (hn : outputs[oind]? = some n)
    (hcount : n.pattern.Counted)
    (hmakes : (Definition.expressions sig t inputs).Makes (.jacobian iind oind false false) k g) :
    Pattern.checkRows (n.pattern.nrow*n.pattern.ncol) = .ok () := by
  obtain ⟨l, hrun⟩ := hmakes.run
  obtain ⟨p, first, he⟩ : ∃ p first, (Definition.expressions sig t inputs).enlarge p iind oind = .ok first := by
    have hderive : (Definition.expressions sig t inputs).derive (.jacobian iind oind false false) =
        (Definition.expressions sig t inputs).buildJacobian iind oind false false .jacobian
          (sig.derivedOptions "jac") := rfl
    cases hj : sig.options.numericJacobian with
    | true =>
      rw [hderive, buildJacobian_numeric hj] at hrun
      exact Definition.enlarge_of_numericJacobian hrun
    | false =>
      rw [hderive, Symbolic.buildJacobian_eq hj] at hrun
      exact Symbolic.enlarge_of_jacobian hrun
  exact h.checkRows_of_enlarge hn hcount he

/-- Built from the same expressions, a symbolic and a numeric Jacobian have the same dense form and the same outputs,
and so have the gradients of a scalar, whose first output is the row of the Jacobian. A numeric one has to be allowed a
direction on the side that it sweeps. Over all elements both need room for the rows, and neither is made without. -/
theorem Definition.jacobians_agree [Field K] [ExactField K] [ExactPower K] {o o' : Options K} {uid : Nat}
    (h : Tape.Closed inputs outputs) (hin : ∀ m ∈ inputs, m.Sized) (hout : ∀ m ∈ outputs, m.Sized)
    (hr : ∀ e, ReachedFrom (Matrix.entries outputs) e → e.op ≠ .rem) (hid : ∀ e ∈ Matrix.entries inputs, e.id < uid)
    (ho : o.numericJacobian = false) (ho' : o'.numericJacobian = true) (hm : inputs[iind]? = some m)
    (hn : outputs[oind]? = some n) (hmost : (o'.entrywise n.nnz m.nnz).colors = 0 ∨
      1 ≤ (o'.entrywise n.nnz m.nnz).select o'.limits) :
    ∃ d d', (ofExpressions inputs outputs o).run uid = (.ok d, uid+1) ∧
      (ofExpressions inputs outputs o').run uid = (.ok d', uid+1) ∧ ∀ k, uid < k →
        (∀ compact, (compact = false → n.Spreads m) → ∃ j j',
          d.Makes (.jacobian iind oind compact false) k j ∧ d'.Makes (.jacobian iind oind compact false) k j' ∧
          j.AnswersBlock inputs outputs m n compact ∧ j'.AnswersBlock inputs outputs m n compact) ∧
        (n.pattern.Counted → Pattern.checkRows (n.pattern.nrow*n.pattern.ncol) ≠ .ok () → ∀ j,
          ¬d.Makes (.jacobian iind oind false false) k j ∧ ¬d'.Makes (.jacobian iind oind false false) k j) ∧
        (n.pattern.Valid → n.pattern.isScalar = true →
          (∃ g g', d.Makes (.gradient iind oind) k g ∧ d'.Makes (.gradient iind oind) k g' ∧
            g.AnswersGradient inputs outputs m n ∧ g'.AnswersGradient inputs outputs m n) ∧
          ∀ ρ, blockAt ρ m n true = n.values.map (fun _ => (m.map (n.slope ρ)).values) ∧
            blockAt ρ m n false =
              #[(Array.range (m.pattern.nrow*m.pattern.ncol)).map fun a =>
                ((m.map (n.slope ρ)).element? a).getD 0]) := by
  obtain ⟨sig, t, hd, rfl, hx⟩ := Expresses.exists_ofExpressions h hin hout o uid
  obtain ⟨sig', t', hd', rfl, hx'⟩ := Expresses.exists_ofExpressions h hin hout o' uid
  have hsn : n.Sized := hout n (Array.mem_of_getElem? hn)
  refine ⟨_, _, hd, hd', fun k hk => ?_⟩
  have hid : ∀ e ∈ Matrix.entries inputs, e.id < k := fun e he => (hid e he).trans hk
  refine ⟨fun compact hspreads => ?_, fun hcount hrows j => ?_, fun hnv hone => ⟨?_, fun ρ => ?_⟩⟩
  · obtain ⟨j, l, hrun, hoptions, hanswers⟩ := hx.exists_symbolicJacobian hm hn hin hr ho hid hsn hspreads
    obtain ⟨j', hrun', hoptions', hanswers'⟩ := hx'.exists_numericJacobian hm hn hin hout hr ho' hspreads hmost
    exact ⟨j, j', ⟨hx.checkRequest_jacobian hm hn compact false, ⟨l, hrun⟩, room_of_derivedOptions hoptions⟩,
      ⟨hx'.checkRequest_jacobian hm hn compact false, ⟨_, hrun'⟩, room_of_derivedOptions hoptions'⟩,
      hanswers, hanswers'⟩
  · exact ⟨mt (hx.checkRows_of_makes hn hcount) hrows, mt (hx'.checkRows_of_makes hn hcount) hrows⟩
  · have hnnz : n.nnz ≤ 1 := hsn.trans_le (hnv.nnz_le_one hone)
    obtain ⟨g, l, hrun, hoptions, hanswers⟩ := hx.exists_symbolicGradient hm hn hin hr ho hid hnnz
    obtain ⟨g', hrun', hoptions', hanswers'⟩ := hx'.exists_numericGradient hm hn hin hout hr ho' hnnz hmost
    exact ⟨g, g', ⟨hx.checkRequest_gradient hm hn hone, ⟨l, hrun⟩, room_of_derivedOptions hoptions⟩,
      ⟨hx'.checkRequest_gradient hm hn hone, ⟨_, hrun'⟩, room_of_derivedOptions hoptions'⟩, hanswers, hanswers'⟩
  · exact ⟨blockAt_compact (hsn.trans_le (hnv.nnz_le_one hone)) ρ, blockAt_spread hnv hsn hone ρ⟩

end Requests

section Instances

/-- The same but for numeric Jacobians. -/
def numerically (o : Options Powered) : Options Powered := {o with numericJacobian := true}

theorem Definition.jacobians_agree_power :
    let m : Matrix (Expr Powered) := .column #[.symbol ⟨0,"x"⟩, .symbol ⟨1,"y"⟩]
    let n : Matrix (Expr Powered) := .scalar cubeProduct
    Tape.Closed powerInputs #[n] ∧ (∀ m ∈ powerInputs, m.Sized) ∧ (∀ m ∈ #[n], m.Sized) ∧
    (∀ e, ReachedFrom (Matrix.entries #[n]) e → e.op ≠ .rem) ∧ (∀ e ∈ Matrix.entries powerInputs, e.id < 5) ∧
    1 ≤ ((numerically (.standard 1)).entrywise n.nnz m.nnz).select (numerically (.standard 1)).limits ∧
    n.Spreads m ∧ n.pattern.isScalar = true ∧
    ∃ d d' j j' g g', (ofExpressions powerInputs #[n] (.standard 1)).run 5 = (.ok d, 6) ∧
      (ofExpressions powerInputs #[n] (numerically (.standard 1))).run 5 = (.ok d', 6) ∧
      d.Makes (.jacobian 0 0 false false) 6 j ∧ d'.Makes (.jacobian 0 0 false false) 6 j' ∧
      d.Makes (.gradient 0 0) 6 g ∧ d'.Makes (.gradient 0 0) 6 g' ∧
      (∃ J, J.toRows 0 = #[#[36,8]] ∧ j.Answers #[#[2,3]] #[J, .scalar 24]) ∧
      (∃ J, J.toRows 0 = #[#[36,8]] ∧ j'.Answers #[#[2,3]] #[J, .scalar 24]) ∧
      g.Answers #[#[2,3]] #[.column #[36,8], .scalar 24] ∧ g'.Answers #[#[2,3]] #[.column #[36,8], .scalar 24] := by
  intro m n
  have hin : ∀ m ∈ powerInputs, m.Sized := by
    simp [powerInputs, Matrix.Sized, Matrix.column, Pattern.column]
  have hout : ∀ m ∈ #[n], m.Sized := by
    simp [n, Matrix.Sized, Matrix.scalar, Pattern.scalar]
  have hid : ∀ e ∈ Matrix.entries powerInputs, e.id < 5 := by
    simp [Matrix.entries, powerInputs, Matrix.column, Expr.id]
  have hmost : 1 ≤ ((numerically (.standard 1)).entrywise n.nnz m.nnz).select (numerically (.standard 1)).limits := by
    decide
  have hscalar : n.pattern.isScalar = true := by decide +kernel
  have hspreads : n.Spreads m := ⟨Pattern.valid_dense 1 1, Pattern.valid_dense 2 1, by cbv, by decide +kernel⟩
  refine ⟨cubeProduct_closed, hin, hout, cubeProduct_ne_rem, hid, hmost, hspreads, hscalar, ?_⟩
  have hm : powerInputs[0]? = some m := rfl
  have hn : #[n][0]? = some n := rfl
  obtain ⟨d, d', hd, hd', hagree⟩ := jacobians_agree cubeProduct_closed hin hout cubeProduct_ne_rem hid
    (o := .standard 1) rfl rfl hm hn (.inr hmost)
  obtain ⟨hjacobian, -, hgradient⟩ := hagree 6 (by decide)
  obtain ⟨j, j', hj, hj', hanswers, hanswers'⟩ := hjacobian false fun _ => hspreads
  obtain ⟨⟨g, g', hg, hg', hslopes, hslopes'⟩, -⟩ := hgradient (Pattern.valid_dense 1 1) hscalar
  refine ⟨d, d', j, j', g, g', hd, hd', hj, hj', hg, hg', ?_⟩
  have hx : Block.sizes (#[#[2,3]] : Block Powered) = powerInputs.map Matrix.nnz := by decide +kernel
  have hblock : blockAt (Tape.valuation (0 : Powered) powerInputs #[#[2,3]]) m n false = #[#[36,8]] := by decide +kernel
  have hslope : m.map (n.slope (Tape.valuation (0 : Powered) powerInputs #[#[2,3]])) = .column #[36,8] :=
    congrArg (Matrix.mk (.column 2)) (by decide +kernel)
  have hvalue : cubeProduct.value (Tape.valuation 0 powerInputs #[#[2,3]]) = 24 := by decide +kernel
  have houtput : #[n].map (Matrix.map (Expr.value (Tape.valuation (0 : Powered) powerInputs #[#[2,3]]))) =
      #[.scalar 24] := by
    simp [n, Matrix.map, Matrix.scalar, hvalue]
  have hJ := hanswers _ hx
  have hJ' := hanswers' _ hx
  have hG := hslopes _ hx
  have hG' := hslopes' _ hx
  dsimp only at hJ hJ' hG hG'
  rw [hblock, houtput] at hJ hJ'
  rw [hslope, houtput] at hG hG'
  exact ⟨hJ, hJ', hG, hG'⟩

/-! ### A wide input -/

/-- Two entries in a column, with more elements than can be counted. -/
def wide : Matrix (Expr Powered) := ⟨⟨5, 2 ^ 62, #[0,1,1,1,1,2], #[0,0]⟩, #[.symbol ⟨0,"x"⟩, .symbol ⟨1,"y"⟩]⟩

/-- The first of the entries. -/
def narrow : Matrix (Expr Powered) := .scalar (.symbol ⟨0,"x"⟩)

theorem narrow_closed : Tape.Closed #[wide] #[narrow] := by
  have hx := (numbered_nil (K := Powered) 0).new (e := .symbol ⟨0,"x"⟩) rfl trivial (by simp [operands])
  refine ⟨hx.toCoherent.mono ?_, ⟨?_, ?_⟩, fun s hs => ?_⟩
  · intro e he
    obtain rfl : e = .symbol ⟨0,"x"⟩ := by simpa [Matrix.entries, Matrix.scalar, narrow] using he
    exact .root List.mem_cons_self
  · simp [Matrix.entries, wide]
  · simp [Matrix.entries, wide, Expr.id]
  · obtain rfl : s = ⟨0,"x"⟩ := by
      simpa [Matrix.entries, Matrix.scalar, narrow, ReachedFrom, Reaches] using hs
    simp [Matrix.entries, wide]

theorem wide_valid : wide.pattern.Valid := by
  constructor <;> decide

/-- What a new instance of the Jacobian answers. -/
def wideAnswer (o : Options Powered) (compact : Bool) (x : Block Powered) : Except Fault (Block Powered) := do
  let make : Make (Definition Powered) := do
    let d ← Definition.ofExpressions #[wide] #[narrow] o
    d.derive (.jacobian 0 0 compact false)
  let j ← (make.run 2).1
  let i ← Instance.of? j
  (i.run (j.call x)).1

/-- The symbolic Jacobian answers once the only derivative that is not zero has a place. -/
theorem wideAnswer_symbolic {o : Options Powered} {compact : Bool} {first : Pattern}
    (ho : o.numericJacobian = false)
    (hroom : Count.hasRoom o.initialForward 24 = true ∧ Count.hasRoom o.initialAdjoint 24 = true)
    (hfirst : (if compact then pure (dependence wide.values narrow.values) else
      (dependence wide.values narrow.values).enlarge? narrow.pattern.numel wide.pattern.numel narrow.pattern.elements
        wide.pattern.elements : Except Fault Pattern) = .ok first)
    (hnnz : first.nnz = 1) : wideAnswer o compact #[#[3,1]] = .ok #[#[1], #[3]] := by
  have hin : ∀ m ∈ #[wide], m.Sized := by simp [wide, Matrix.Sized, Pattern.nnz]
  have hout : ∀ m ∈ #[narrow], m.Sized := by simp [narrow, Matrix.Sized, Matrix.scalar, Pattern.scalar]
  have hid : ∀ e ∈ Matrix.entries #[wide], e.id < 3 := by simp [Matrix.entries, wide, Expr.id]
  have hr (e : Expr Powered) (he : ReachedFrom (Matrix.entries #[narrow]) e) : e.op ≠ .rem := by
    obtain rfl : e = .symbol ⟨0,"x"⟩ := by
      simpa [Matrix.entries, Matrix.scalar, narrow, ReachedFrom, Reaches] using he
    simp [Expr.op]
  obtain ⟨sig, t, hd, rfl, hx⟩ := Expresses.exists_ofExpressions narrow_closed hin hout o 2
  have hm : #[wide][0]? = some wide := rfl
  have hn : #[narrow][0]? = some narrow := rfl
  rw [← hx.enlarge hm hn wide_valid (Pattern.valid_dense 1 1)] at hfirst
  have hcount : (dependence wide.values narrow.values).nnz = 1 := by decide +kernel
  obtain ⟨j, l, hrun, hoptions, hanswers⟩ :=
    hx.exists_symbolicBlock hm hn hin hr ho hid hfirst (hnnz.trans hcount.symm)
  have hof : Instance.of? j = .ok (.of j) :=
    Definition.room_of_derivedOptions (d := .expressions sig t #[wide]) hoptions _
      (Instance.of?_eq_ok.mpr ⟨hroom.1, hroom.2, rfl⟩)
  have hcall := (hanswers #[#[3,1]] (by decide +kernel)).2 _ hof []
  have hblock : (dependence wide.values narrow.values).entries.map
      (jacobianAt (Tape.valuation (0 : Powered) #[wide] #[#[3,1]]) wide.values narrow.values) = #[1] := by
    decide +kernel
  have houtput : (narrow.map (Expr.value (Tape.valuation (0 : Powered) #[wide] #[#[3,1]]))).values = #[3] := by
    decide +kernel
  rw [wideAnswer]
  simp only [run_bind_ok hd, hrun, ok_bind, hof]
  exact hcall.trans (congrArg Except.ok (by simp [hblock, houtput]))

/-- No forward directions. -/
def withoutForward : Options Powered := {Options.standard 1 with maxForward := 0}

/-- Without a direction to sweep a numeric Jacobian is refused. Over elements that cannot be counted two entries meet,
so that its values have no room. -/
theorem Definition.jacobians_disagree :
    wideAnswer withoutForward true #[#[3,1]] = .ok #[#[1], #[3]] ∧
    wideAnswer (numerically withoutForward) true #[#[3,1]] =
      .error (.unsupported "unnamed_function" .forwardDirections) ∧
    wideAnswer (.standard 1) false #[#[3,1]] = .ok #[#[1], #[3]] ∧
    wideAnswer (numerically (.standard 1)) false #[#[3,1]] = .error (.violation .valueLength) := by
  have hspread : (dependence wide.values narrow.values).enlarge? narrow.pattern.numel wide.pattern.numel
      narrow.pattern.elements wide.pattern.elements = .ok ⟨1, 2 ^ 62, #[0,1], #[0]⟩ := by cbv
  exact ⟨wideAnswer_symbolic rfl (by decide) rfl (by decide +kernel), by cbv,
    wideAnswer_symbolic rfl (by decide) hspread rfl, by cbv⟩

end Instances

end Fluxion
