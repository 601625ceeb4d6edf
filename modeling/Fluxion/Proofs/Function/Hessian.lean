import Fluxion.Function.Derived
import Fluxion.Proofs.Expr.Partials
import Fluxion.Proofs.Function.Call
import Fluxion.Proofs.Function.Dense
import Fluxion.Proofs.Function.SymbolicJacobian

/-!
Hessians of rational functions. The gradient read over dual numbers has the second partial derivatives, so
both Jacobians of the gradient function have them: the one along a coloring of its own pattern, and the one
along a star coloring of a symmetric pattern, which may leave out what has no value anywhere.
-/
set_option autoImplicit false

namespace Fluxion

open Fluxion.Expr TrivSqZeroExt

variable {K : Type}

theorem Symbolic.Again.map [Number K] {R : Type} {g : (Symbol → R) → Expr K → R}
    {outputs outs : Array (Matrix (Expr K))} (h : Symbolic.Again g outputs outs) (ρ : Symbol → R) :
    outs.map (Matrix.map (g ρ)) = outputs.map (Matrix.map (g ρ)) := by
  refine Array.ext_getElem? fun i => ?_
  have hp := congrArg (fun ps : Array Pattern => ps[i]?) h.pattern
  have hv := congrArg (fun b : Block R => b[i]?) (h.value ρ)
  simp only [Block.ofEntries, Array.getElem?_map] at hp hv ⊢
  cases ho : outs[i]? with
  | none =>
    rw [ho, Option.map_none, eq_comm, Option.map_eq_none_iff] at hp
    rw [hp]
  | some m =>
    rw [ho, Option.map_some, eq_comm, Option.map_eq_some_iff] at hp
    obtain ⟨n, hn, hnm⟩ := hp
    rw [ho, hn, Option.map_some, Option.map_some] at hv
    rw [hn, Option.map_some, Option.map_some, Matrix.map, Matrix.map, hnm, Option.some.inj hv]

variable [CommRing K] [Inv K] [Number K] [ExactDivision K]

namespace Symbolic

variable {roots : List (Expr K)} {inputs outputs : Array (Matrix (Expr K))} {m : Matrix (Expr K)}
  {y : Expr K} {iind oind : Nat}

/-- All operations of all entries are rational. -/
def Rational (ms : Array (Matrix (Expr K))) : Prop :=
  ∀ e, ReachedFrom (Matrix.entries ms) e → e.op.isStructural = false → e.op.isRational = true

omit [CommRing K] [Inv K] [Number K] [ExactDivision K] in
theorem Rational.within {ms : Array (Matrix (Expr K))} (h : Rational ms) {e : Expr K}
    (he : e ∈ Matrix.entries ms) : e.Within (·.isRational = true) :=
  fun d hd => h d ⟨e, he, hd⟩

/-- What makes a function the gradient of `y` in the entries of `m`, with the outputs after it. -/
structure Gradient (inputs outputs : Array (Matrix (Expr K))) (m : Matrix (Expr K)) (y : Expr K)
    (sig : Signature K) (t : Tape K) (grad : Array (Expr K)) (outs : Array (Matrix (Expr K))) : Prop where
  expresses : Expresses inputs (#[⟨m.pattern,grad⟩] ++ outs) sig t
  rational : Rational (#[⟨m.pattern,grad⟩] ++ outs)
  again : Again Expr.value outputs outs
  value : ∀ ρ, grad.map (Expr.value ρ) = m.values.map fun x => partialAt ρ x y
  second : ∀ ρ r c u v, m.values[r]? = some u → m.values[c]? = some v →
    jacobianAt ρ m.values grad (r,c) = secondPartialAt ρ u v y

section Dual

variable {grad xs : Array (Expr K)}

/-- Where no symbol has a first-order part, the meaning has none. -/
theorem meaning_inl {e : Expr K} (he : e.Proper) (hw : e.Within (·.isRational = true)) (ρ : Symbol → K) :
    e.meaning (inlHom K K) (fun s => inlHom K K (ρ s)) = inl (e.value ρ) :=
  (map_value reading_inl he hw ρ).symm

theorem Again.of_dual {outs : Array (Matrix (Expr K))} (h : Again (meaning (inlHom K K)) outputs outs)
    (hin : ∀ e ∈ Matrix.entries outputs, e.Proper ∧ e.Within (·.isRational = true))
    (hout : ∀ e ∈ Matrix.entries outs, e.Proper ∧ e.Within (·.isRational = true)) :
    Again Expr.value outputs outs := by
  refine ⟨h.pattern, h.sized, fun ρ => ?_⟩
  have hblock := congrArg (Block.image fst) (h.value fun s => inlHom K K (ρ s))
  rw [Block.image_ofEntries, Block.image_ofEntries] at hblock
  rw [Block.ofEntries_congr fun e he => ?_, hblock, Block.ofEntries_congr fun e he => ?_]
  · rw [meaning_inl (hin e he).1 (hin e he).2, fst_inl]
  · rw [meaning_inl (hout e he).1 (hout e he).2, fst_inl]

variable (hyp : y.Proper) (hyw : y.Within (·.isRational = true))
  (hmem : ∀ e ∈ grad, e.Proper ∧ e.Within (·.isRational = true))
  (hgrad : ∀ ρ, grad.map (meaning (inlHom K K) ρ) = xs.map fun x =>
    (y.map (inlHom K K)).derivative ρ (x.map (inlHom K K)).indicator)
include hyp hyw hmem hgrad

/-- The values of a gradient over dual numbers are those over numbers. -/
theorem value_of_dual (ρ : Symbol → K) : grad.map (Expr.value ρ) = xs.map fun x => partialAt ρ x y := by
  have hparts : grad.map (Expr.value ρ) =
      (grad.map (meaning (inlHom K K) fun s => inlHom K K (ρ s))).map fst := by
    rw [Array.map_map]
    refine Array.map_congr_left fun e he => ?_
    rw [Function.comp_apply, meaning_inl (hmem e he).1 (hmem e he).2, fst_inl]
  rw [hparts, hgrad, Array.map_map]
  refine Array.map_congr_left fun x _ => ?_
  have hx : (x.map (inlHom K K)).indicator = fun s => inlHom K K (x.indicator s) :=
    funext (indicator_map _ x)
  rw [Function.comp_apply, hx, ← map_derivative reading_inl hyp hyw, partialAt_eq hyp hyw]
  rfl

/-- Their first-order parts are the second partial derivatives. -/
theorem jacobianAt_of_dual (ρ : Symbol → K) {r c : Nat} {u v : Expr K} (hu : xs[r]? = some u)
    (hv : xs[c]? = some v) : jacobianAt ρ xs grad (r,c) = secondPartialAt ρ u v y := by
  have hat := congrArg (fun a : Array (DualNumber K) => a[r]?)
    (hgrad fun s => dual (ρ s) (v.indicator s))
  simp only [Array.getElem?_map, hu, Option.map_some, Option.map_eq_some_iff] at hat
  obtain ⟨e, he, hmeaning⟩ := hat
  obtain ⟨hp, hw⟩ := hmem e (Array.mem_of_getElem? he)
  have hjac : jacobianAt ρ xs grad (r,c) = e.derivative ρ v.indicator := by
    simp [jacobianAt, he, hv]
  rw [hjac, secondPartialAt_comm hyp hyw, secondPartialAt_eq hyp hyw, ← hmeaning, meaning_dual hp hw,
    snd_dual]

end Dual

/-- What dual numbers say of a gradient over numbers. -/
theorem Gradient.of_dual {sig sig' : Signature K} {t t' : Tape K} {grad : Array (Expr K)}
    {outs : Array (Matrix (Expr K))} (h : Expresses inputs outputs sig t) (hop : Rational outputs)
    (hy : outputs[oind]? = some (.scalar y))
    (hx : Expresses inputs (#[⟨m.pattern,grad⟩] ++ outs) sig' t')
    (hrational : Rational (#[⟨m.pattern,grad⟩] ++ outs))
    (hagain : Again (meaning (inlHom K K)) outputs outs)
    (hgrad : ∀ ρ, grad.map (meaning (inlHom K K) ρ) = m.values.map fun x =>
      (y.map (inlHom K K)).derivative ρ (x.map (inlHom K K)).indicator) :
    Gradient inputs outputs m y sig' t' grad outs := by
  have hin (e : Expr K) (he : e ∈ Matrix.entries outputs) : e.Proper ∧ e.Within (·.isRational = true) :=
    ⟨h.closed.coherent.proper e (.root he), hop.within he⟩
  obtain ⟨hyp, hyw⟩ := hin y (Matrix.mem_entries.mpr ⟨oind, 0, _, hy, rfl⟩)
  have hout (e : Expr K) (he : e ∈ Matrix.entries (#[⟨m.pattern,grad⟩] ++ outs)) :
      e.Proper ∧ e.Within (·.isRational = true) :=
    ⟨hx.closed.coherent.proper e (.root he), hrational.within he⟩
  rw [Matrix.entries_append] at hout
  have hmem (e : Expr K) (he : e ∈ grad) := hout e (List.mem_append_left _ (by simpa [Matrix.entries] using he))
  exact ⟨hx, hrational, hagain.of_dual hin fun e he => hout e (List.mem_append_right _ he),
    value_of_dual hyp hyw hmem hgrad,
    fun ρ _ _ _ _ hu hv => jacobianAt_of_dual hyp hyw hmem hgrad ρ hu hv⟩

theorem returns_rational_gradient {sig : Signature K} {t : Tape K} (h : Expresses inputs outputs sig t)
    (hop : Rational outputs) (hin : ∀ m ∈ inputs, m.Sized) (hm : inputs[iind]? = some m)
    (hy : outputs[oind]? = some (.scalar y)) (hroots : Present roots inputs) (o : Options K) :
    Returns (·.isRational = true) (Matrix.entries inputs) roots
      (gradient (.expressions sig t inputs) t inputs iind oind o) fun _ g =>
        ∃ sig' t' grad outs, g = .expressions sig' t' inputs ∧ sig'.options = o ∧
          Gradient inputs outputs m y sig' t' grad outs := by
  have hd (ρ : Symbol → DualNumber K) (op : Op) (_ : op.isStructural = false) (hok : op.isRational = true) :
      Tape.Derives (·.isRational = true) (Matrix.entries inputs) (inlHom K K) ρ op :=
    Tape.derives_rational reading_inl hok hok
  refine (returns_gradient h reading_inl hop (by simp [Op.isRational]) hd hin hm hy le_rfl hroots o).mono ?_
  rintro roots' g - ⟨sig', t', grad, outs, hg, ho, hx, hrational, hagain, hgrad⟩
  simp only [Matrix.slope_scalar] at hgrad
  exact ⟨sig', t', grad, outs, hg, ho, .of_dual h hop hy hx hrational hagain hgrad⟩

namespace Gradient

variable {sig : Signature K} {t : Tape K} {grad : Array (Expr K)} {outs : Array (Matrix (Expr K))}

variable (g : Gradient inputs outputs m y sig t grad outs)

include g in
omit [ExactDivision K] in
theorem size : grad.size = m.values.size := by
  simpa using congrArg Array.size (g.value 0)

include g in
/-- The Jacobian of a gradient is symmetric. -/
theorem jacobianAt_comm (hyp : y.Proper) (hyw : y.Within (·.isRational = true)) (ρ : Symbol → K)
    (r c : Nat) : jacobianAt ρ m.values grad (r,c) = jacobianAt ρ m.values grad (c,r) := by
  have hsize := g.size
  by_cases hr : r < m.values.size
  · by_cases hc : c < m.values.size
    · have hu : m.values[r]? = some m.values[r] := Array.getElem?_eq_getElem hr
      have hv : m.values[c]? = some m.values[c] := Array.getElem?_eq_getElem hc
      rw [g.second ρ r c _ _ hu hv, g.second ρ c r _ _ hv hu, secondPartialAt_comm hyp hyw]
    · simp [jacobianAt, hsize, hc]
  · simp [jacobianAt, hsize, hr]

include g in
/-- Whether symmetry is used or not, the sweeps recover the second partial derivatives, and there are none
outside of the pattern. -/
theorem exists_block (hyp : y.Proper) (hyw : y.Within (·.isRational = true)) (hm : inputs[iind]? = some m)
    (symmetric : Bool) :
    ∃ p side, (Definition.expressions sig t inputs).jacSparsity iind 0 true symmetric = .ok p ∧
      (Definition.expressions sig t inputs).partition iind 0 true symmetric = .ok side ∧
      p.Valid ∧ p.nrow = m.values.size ∧ p.ncol = m.values.size ∧
      ∀ ρ, (∀ r c, (r,c) ∉ p.entries → jacobianAt ρ m.values grad (r,c) = 0) ∧
        recovered inputs (#[⟨m.pattern,grad⟩] ++ outs) ρ p side iind 0 symmetric =
          p.entries.map (jacobianAt ρ m.values grad) := by
  have hn : (#[(⟨m.pattern,grad⟩ : Matrix (Expr K))] ++ outs)[0]? = some ⟨m.pattern,grad⟩ := by simp
  have hclosed := g.expresses.closed
  have hsize := g.size
  cases symmetric with
  | false =>
    obtain ⟨side, hpartition, hside⟩ := g.expresses.partition hm hn
    exact ⟨_, side, g.expresses.jacSparsity hm hn, hpartition, valid_dependence _ _,
      nrow_dependence.trans hsize, ncol_dependence,
      fun ρ => ⟨fun r c h => jacobianAt_eq_zero ρ h, recovered_eq hclosed hm hn (hside.fills (valid_dependence _ _))⟩⟩
  | true =>
    -- Only what is not zero somewhere needs a place in the pattern, and that relation is symmetric.
    let S (r c : Nat) : Prop := ∃ ρ, jacobianAt ρ m.values grad (r,c) ≠ 0
    have hcomm := g.jacobianAt_comm hyp hyw
    have hS (r c : Nat) (h : S r c) : (r,c) ∈ (dependence m.values grad).entries := by
      obtain ⟨ρ, hρ⟩ := h
      exact not_not.mp fun hout => hρ (jacobianAt_eq_zero ρ hout)
    have hsymm (r c : Nat) (h : S r c) : S c r := by
      obtain ⟨ρ, hρ⟩ := h
      exact ⟨ρ, hcomm ρ r c ▸ hρ⟩
    obtain ⟨p, hdetect, hover⟩ := g.expresses.detectPattern_symmetric hm hn hsize hS hsymm
    have hp := g.expresses.jacSparsity_symmetric hm hn hdetect
    obtain ⟨s, hpartition, hstar⟩ := partition_symmetric hp hover
    have hzero (ρ : Symbol → K) (r c : Nat) (h : (r,c) ∉ p.entries) :
        jacobianAt ρ m.values grad (r,c) = 0 :=
      not_not.mp fun hne => h (hover.covers r c ⟨ρ, hne⟩)
    exact ⟨p, _, hp, hpartition, hover.valid, hover.nrow, hover.ncol, fun ρ => ⟨hzero ρ,
      recovered_symmetric_eq hclosed hm hn hover.valid (hover.nrow.trans hover.ncol.symm)
        (hover.nrow.trans hsize.symm) hover.symm hstar (hcomm ρ) (hzero ρ)⟩⟩

include g in
/-- The Jacobian of the gradient over all elements, with the gradient and the outputs after it. -/
theorem returns_block (hyp : y.Proper) (hyw : y.Within (·.isRational = true))
    (hin : ∀ m ∈ inputs, m.Sized) (hm : inputs[iind]? = some m) (hmv : m.pattern.Valid)
    (hroom : Pattern.checkRows (m.pattern.nrow*m.pattern.ncol) = .ok ()) (hroots : Present roots inputs)
    (symmetric : Bool) (o : Options K) :
    Returns (·.isRational = true) (Matrix.entries inputs) roots
      (jacobian (.expressions sig t inputs) t inputs iind 0 false symmetric o) fun _ d =>
        ∃ sig' t' q values outs', d = .expressions sig' t' inputs ∧
          Expresses inputs (#[⟨q,values⟩] ++ outs') sig' t' ∧ Rational (#[⟨q,values⟩] ++ outs') ∧
          Again Expr.value (#[⟨m.pattern,grad⟩] ++ outs) outs' ∧
          ∀ ρ, (⟨q, values.map (Expr.value ρ)⟩ : Matrix K).toRows 0 =
            table (m.pattern.nrow*m.pattern.ncol) (m.pattern.nrow*m.pattern.ncol)
              (m.pairs 0 fun u v => secondPartialAt ρ u v y) := by
  have hn : (#[(⟨m.pattern,grad⟩ : Matrix (Expr K))] ++ outs)[0]? = some ⟨m.pattern,grad⟩ := by simp
  have hreading : Reading (fun op => op.isRational = true) (RingHom.id K) := .rational _ fun _ => rfl
  have hd (ρ : Symbol → K) (op : Op) (_ : op.isStructural = false) (hok : op.isRational = true) :
      Tape.Derives (·.isRational = true) (Matrix.entries inputs) (RingHom.id K) ρ op :=
    Tape.derives_rational hreading hok hok
  obtain ⟨p, side, hp, hside, hv, hrow, hcol, hblock⟩ := g.exists_block hyp hyw hm symmetric
  have hsized := hin m (Array.mem_of_getElem? hm)
  obtain ⟨q, hq, hnnz, hdense⟩ := Matrix.exists_spread (U := K) hmv hmv hsized hsized hroom
    (Pattern.size_lt_of_checkRows hroom) hv hrow hcol
  have hlarge : (if false = true then pure p else
      (Definition.expressions sig t inputs).enlarge p iind 0) = .ok q :=
    (g.expresses.enlarge hm hn hmv hmv p).trans hq
  refine (returns_jacobian g.expresses hreading g.rational (by simp [Op.isRational]) hd hin hroots hp hside
    hlarge (fun ρ => (hblock ρ).2) (fun ρ => ?_) o).mono ?_
  · rw [Array.size_map, hv.size_entries, hnnz]
  · rintro roots' d - ⟨sig', t', values, outs', hd, -, hx, hrational, hagain, hvalues⟩
    refine ⟨sig', t', q, values, outs', hd, hx, hrational, hagain, fun ρ => ?_⟩
    rw [hvalues, Matrix.pairs_eq_across]
    exact hdense 0 _ _ (g.second ρ) (hblock ρ).1

end Gradient

end Symbolic

/-- The second partial derivatives of `y` in all pairs of elements of `m`. -/
def hessianAt (ρ : Symbol → K) (m : Matrix (Expr K)) (y : Expr K) : Array (Array K) :=
  table (m.pattern.nrow*m.pattern.ncol) (m.pattern.nrow*m.pattern.ncol)
    (m.pairs 0 fun u v => secondPartialAt ρ u v y)

theorem hessianAt_symm {y : Expr K} (hyp : y.Proper) (hyw : y.Within (·.isRational = true)) (ρ : Symbol → K)
    (m : Matrix (Expr K)) (a b : Nat) :
    Block.get? (hessianAt ρ m y) a b = Block.get? (hessianAt ρ m y) b a := by
  refine Option.ext fun x => ?_
  rw [hessianAt, Block.get?_table, Block.get?_table,
    m.pairs_comm 0 (fun u v => secondPartialAt_comm hyp hyw ρ u v) a b]
  tauto

section Answers

variable {K : Type} [Field K] [Number K] [ExactField K] {inputs outputs : Array (Matrix (Expr K))}
  {m : Matrix (Expr K)} {y : Expr K} {iind oind : Nat}

/-- At every point the answers are a matrix whose dense form has the second partial derivatives of `y` in the
elements of `m`, the partial derivatives, and the outputs. -/
def Definition.AnswersHessian (d : Definition K) (inputs outputs : Array (Matrix (Expr K)))
    (m : Matrix (Expr K)) (y : Expr K) : Prop :=
  ∀ x : Block K, x.sizes = inputs.map Matrix.nnz →
    let ρ := Tape.valuation 0 inputs x
    ∃ H : Matrix K, H.toRows 0 = hessianAt ρ m y ∧
      d.Answers x (#[H, m.map fun u => partialAt ρ u y] ++ outputs.map (Matrix.map (Expr.value ρ)))

namespace Symbolic

variable {roots : List (Expr K)} {sig : Signature K} {t : Tape K} {grad : Array (Expr K)}
  {outs : Array (Matrix (Expr K))}

theorem Gradient.returns_hessian (g : Gradient inputs outputs m y sig t grad outs)
    (hyp : y.Proper) (hyw : y.Within (·.isRational = true)) (hin : ∀ m ∈ inputs, m.Sized)
    (hm : inputs[iind]? = some m) (hmv : m.pattern.Valid)
    (hroom : Pattern.checkRows (m.pattern.nrow*m.pattern.ncol) = .ok ()) (hroots : Present roots inputs)
    (symmetric : Bool) (o : Options K) :
    Returns (·.isRational = true) (Matrix.entries inputs) roots
      (jacobian (.expressions sig t inputs) t inputs iind 0 false symmetric o) fun _ d =>
        d.AnswersHessian inputs outputs m y := by
  refine (g.returns_block hyp hyw hin hm hmv hroom hroots symmetric o).mono ?_
  rintro roots' d - ⟨sig', t', q, values, outs', rfl, hx, hrational, hagain, hdense⟩ x hsizes
  refine ⟨_, hdense (Tape.valuation 0 inputs x), ?_⟩
  have hanswers := hx.answers (ne_rem_of_ok (·.isRational = true) (by simp [Op.isRational]) hrational) hsizes
  rw [Array.map_append, hagain.map, Array.map_append, g.again.map] at hanswers
  simpa [Matrix.map, g.value] using hanswers

end Symbolic

namespace Symbolic

variable {roots : List (Expr K)} {sig : Signature K} {t : Tape K}

omit [Field K] [ExactField K] in
/-- Without numeric derivatives, gradients and Jacobians are symbolic. -/
theorem buildJacobian_eq (hj : sig.options.numericJacobian = false) (iind oind : Nat)
    (compact symmetric : Bool) (layout : Layout) (o : Options K) :
    (Definition.expressions sig t inputs).buildJacobian iind oind compact symmetric layout o =
      match layout with
      | .gradient => gradient (.expressions sig t inputs) t inputs iind oind o
      | .jacobian => jacobian (.expressions sig t inputs) t inputs iind oind compact symmetric o := by
  change (if sig.options.numericJacobian = true then _ else _) = _
  rw [hj]
  rfl

/-- The Hessian is the symmetric Jacobian of the gradient function. -/
theorem returns_hessian (h : Expresses inputs outputs sig t) (hop : Rational outputs)
    (hin : ∀ m ∈ inputs, m.Sized) (hm : inputs[iind]? = some m) (hmv : m.pattern.Valid)
    (hroom : Pattern.checkRows (m.pattern.nrow*m.pattern.ncol) = .ok ())
    (hy : outputs[oind]? = some (.scalar y)) (hj : sig.options.numericJacobian = false)
    (hh : sig.options.numericHessian = false) (hroots : Present roots inputs) :
    Returns (·.isRational = true) (Matrix.entries inputs) roots
      ((Definition.expressions sig t inputs).derive (.hessian iind oind)) fun _ d =>
        d.AnswersHessian inputs outputs m y := by
  have hyroot : y ∈ Matrix.entries outputs := Matrix.mem_entries.mpr ⟨oind, 0, _, hy, rfl⟩
  have hyp := h.closed.coherent.proper y (.root hyroot)
  have hyw := hop.within hyroot
  have hderive : (Definition.expressions sig t inputs).derive (.hessian iind oind) = (do
      let o := {sig.derivedOptions "grad" with numericJacobian := sig.options.numericHessian}
      let g ← (Definition.expressions sig t inputs).buildJacobian iind oind true false .gradient o
      g.buildJacobian iind 0 false true .jacobian (sig.derivedOptions "hess")) := rfl
  rw [hderive]
  dsimp only
  rw [buildJacobian_eq hj]
  refine .bind (returns_rational_gradient h hop hin hm hy hroots _) ?_
  rintro roots' d hr ⟨sig', t', grad, outs, rfl, ho, g⟩
  rw [buildJacobian_eq (by rw [ho, hh])]
  exact g.returns_hessian hyp hyw hin hm hmv hroom (hroots.subset hr) true _

end Symbolic

end Answers

section Quotient

/-- The quotient of the sample symbols. -/
def quotient : Expr ℚ := .binary 2 .div (.symbol ⟨0,"x"⟩) (.symbol ⟨1,"y"⟩)

theorem quotient_closed : Tape.Closed Tape.sampleInputs #[.scalar quotient] := by
  have hsymbols := (Expr.Built.nil (K := ℚ) 0).symbol "x" |>.symbol "y"
  have hquotient := hsymbols.apply (show Op.div.isStructural = false from rfl) (a := .symbol ⟨0,"x"⟩)
    (b := .symbol ⟨1,"y"⟩) (.tail _ (.head _)) (.head _)
  refine ⟨hquotient.coherent ?_, Tape.sample_closed.distinct, ?_⟩
  · intro e he
    obtain rfl : e = quotient := by simpa [Matrix.entries, Matrix.scalar] using he
    exact .head _
  · intro s hs
    have hxy : s = ⟨0,"x"⟩ ∨ s = ⟨1,"y"⟩ := by
      simpa [Matrix.entries, Matrix.scalar, quotient, ReachedFrom, Reaches] using hs
    obtain rfl | rfl := hxy <;> simp [Matrix.entries, Tape.sampleInputs, Matrix.column]

theorem quotient_rational : Symbolic.Rational #[.scalar quotient] := by
  intro e he hs
  simp [Matrix.entries, Matrix.scalar, quotient, ReachedFrom, Reaches] at he
  obtain rfl | rfl | rfl := he
  · rfl
  all_goals cases hs

end Quotient

end Fluxion
