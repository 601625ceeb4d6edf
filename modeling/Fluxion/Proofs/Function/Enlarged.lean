import Fluxion.Proofs.Function.ExactEffect
import Fluxion.Proofs.Function.Renumbered
import Fluxion.Proofs.Function.Twins
import Fluxion.Proofs.Matrix

/-!
Jacobian blocks over all elements. A block is computed over the entries of its input and output, and may be spread over
their elements; row-major numbers keep the order of the entries, so the values that were computed for the entries are
those of the elements, one by one.
-/
set_option autoImplicit false

namespace Fluxion

variable {K : Type} {roots : List (Expr K)} {iind oind : Nat} {inp out p q : Pattern}

/-! ### Patterns of a block -/

/-- A pattern with a row for each entry of `out` and a column for each entry of `inp`. -/
structure Pattern.Links (p inp out : Pattern) : Prop where
  valid : p.Valid
  rows : p.nrow = out.nnz
  columns : p.ncol = inp.nnz

/-- An increasing map of `m` numbers to numbers below `n`. -/
structure Pattern.Increasing (ns : Array Nat) (m n : Nat) : Prop where
  size : ns.size = m
  increasing : ns.toList.Pairwise (· < ·)
  below : ∀ x ∈ ns, x < n

/-- A pattern with the images of the entries of `p`, in their order. -/
structure Pattern.Enlarges (q p : Pattern) (nrow ncol : Nat) (rowMap colMap : Array Nat) : Prop where
  valid : q.Valid
  rows : q.nrow = nrow
  columns : q.ncol = ncol
  entries : q.entries = p.images rowMap colMap

namespace Pattern

/-- Where all elements can be counted, their numbers are a map to them. -/
theorem Counted.increasing (h : p.Counted) : Increasing p.elements p.nnz p.numel := by
  have hcount : p.numel = p.nrow*p.ncol := Count.wrap_of_lt h.size
  exact ⟨h.valid.size_elements, h.valid.pairwise_elements h.size,
    fun x hx => hcount ▸ h.valid.mem_elements_lt h.size hx⟩

section Maps

variable {nrow ncol : Nat} {rowMap colMap : Array Nat} (hp : p.Valid)
include hp

theorem Valid.exists_enlarge? (hrows : Increasing rowMap p.nrow nrow) (hcols : Increasing colMap p.ncol ncol)
    (hroom : checkRows nrow = .ok ()) :
    ∃ q, p.enlarge? nrow ncol rowMap colMap = .ok q ∧ q.Enlarges p nrow ncol rowMap colMap := by
  obtain ⟨q, hq, hv, hrow, hcol, hentries⟩ := enlarge?_eq hp hroom hrows.size hcols.size hrows.increasing
    hcols.increasing hrows.below hcols.below
  exact ⟨q, hq, hv, hrow, hcol, hentries⟩

/-- There are as many entries. -/
theorem Enlarges.nnz_eq (h : q.Enlarges p nrow ncol rowMap colMap) : q.nnz = p.nnz := by
  rw [← h.valid.size_entries, h.entries, images, Array.size_map, hp.size_entries]

/-- A list of values is the same matrix on both patterns, but for the place. -/
theorem Enlarges.embeds (h : q.Enlarges p nrow ncol rowMap colMap) (hrows : Increasing rowMap p.nrow nrow)
    (hcols : Increasing colMap p.ncol ncol) {T : Type} (values : Array T) :
    Matrix.Embeds rowMap colMap ⟨p, values⟩ ⟨q, values⟩ :=
  Matrix.embeds_images hp h.valid hrows.size hcols.size hrows.increasing hcols.increasing h.entries values

end Maps

end Pattern

/-! ### Making both -/

namespace Definition

/-- The input and the output of a block, whose elements can be counted. -/
structure Spans (d : Definition K) (iind oind : Nat) (inp out : Pattern) : Prop where
  input : d.sig.inputs[iind]? = some inp
  output : d.sig.outputs[oind]? = some out
  countedInput : inp.Counted
  countedOutput : out.Counted

variable {d : Definition K}

theorem Spans.enlarge_eq (h : d.Spans iind oind inp out) (p : Pattern) :
    d.enlarge p iind oind = p.enlarge? out.numel inp.numel out.elements inp.elements := by
  have hin : d.sig.checkInput iind = .ok inp := by
    rw [Signature.checkInput, h.input]
    rfl
  have hout : d.sig.checkOutput oind = .ok out := by
    rw [Signature.checkOutput, h.output]
    rfl
  rw [enlarge, hin, ok_bind, hout, ok_bind, h.countedOutput.valid.checkStarts, ok_bind, h.countedInput.valid.checkStarts,
    ok_bind]

theorem Spans.increasing (h : d.Spans iind oind inp out) (hp : p.Links inp out) :
    Pattern.Increasing out.elements p.nrow out.numel ∧ Pattern.Increasing inp.elements p.ncol inp.numel :=
  ⟨hp.rows ▸ h.countedOutput.increasing, hp.columns ▸ h.countedInput.increasing⟩

/-- The pattern of a block has room over all elements, or there is none for the elements of the output as rows. -/
theorem Spans.enlarge_cases (h : d.Spans iind oind inp out) (hp : p.Links inp out) :
    (∃ y, d.enlarge p iind oind = .error y ∧ Pattern.checkRows out.numel ≠ .ok ()) ∨
    ∃ q, d.enlarge p iind oind = .ok q ∧ Pattern.checkRows out.numel = .ok () ∧
      q.Enlarges p out.numel inp.numel out.elements inp.elements := by
  obtain ⟨hrows, hcols⟩ := h.increasing hp
  rw [h.enlarge_eq]
  cases hq : p.enlarge? out.numel inp.numel out.elements inp.elements with
  | error y =>
    refine .inl ⟨y, rfl, fun hroom => ?_⟩
    obtain ⟨q, hok, -⟩ := hp.valid.exists_enlarge? hrows hcols hroom
    rw [hq] at hok
    cases hok
  | ok q =>
    have hroom := (Pattern.exists_of_enlarge? hq).1
    obtain ⟨r, hr, henlarges⟩ := hp.valid.exists_enlarge? hrows hcols hroom
    obtain rfl : r = q := Except.ok.inj (hr.symm.trans hq)
    exact .inr ⟨r, rfl, hroom, henlarges⟩

theorem Spans.links (h : d.Spans iind oind inp out) (hp : p.Valid) (hshape : ∃ inp out, d.sig.inputs[iind]? = some inp ∧
    d.sig.outputs[oind]? = some out ∧ p.nrow = out.nnz ∧ p.ncol = inp.nnz) : p.Links inp out := by
  obtain ⟨inp', out', hin, hout, hrow, hcol⟩ := hshape
  obtain rfl := Option.some.inj (h.input.symm.trans hin)
  obtain rfl := Option.some.inj (h.output.symm.trans hout)
  exact ⟨hp, hrow, hcol⟩

variable [Number K]

/-- What making a block over entries and over all elements comes to: neither is made, or only one over entries, whose
pattern has no room, or both. Then one stands on the enlarged pattern of the other, with the same values. -/
inductive Paired (inp out : Pattern) : Except Fault (Definition K) → Except Fault (Definition K) → Prop
  | refused (x y : Fault) : Paired inp out (.error x) (.error y)
  | cramped (e : Definition K) (y : Fault) : Pattern.checkRows out.numel ≠ .ok () → Paired inp out (.ok e) (.error y)
  | made {p q : Pattern} {rest : Array Pattern} {e e' : Definition K} : Pattern.checkRows out.numel = .ok () →
    p.Links inp out → q.Enlarges p out.numel inp.numel out.elements inp.elements → e.SameValues e' →
    e.sig.outputs = #[p] ++ rest → e'.sig.outputs = #[q] ++ rest → Paired inp out (.ok e) (.ok e')

omit [Number K] in
/-- The pattern of a numeric block has the shape of the block. -/
theorem shape_numericSource {ps : Pattern × Source} (h : d.numericSource iind oind = .ok ps) :
    ∃ inp out, d.sig.inputs[iind]? = some inp ∧ d.sig.outputs[oind]? = some out ∧ ps.1.nrow = out.nnz ∧
      ps.1.ncol = inp.nnz := by
  obtain ⟨inp, out, hin, hout, hdense | ⟨c, hc, -⟩⟩ := exists_of_numericSource h
  · exact ⟨inp, out, hin, hout, by simp [hdense.1]⟩
  cases d with
  | expressions | jacobian | derivative => cases hc
  | external sig c' =>
    rw [numericSource] at h
    obtain ⟨inp, hin, h⟩ := exists_of_bind_eq_ok h
    obtain ⟨out, hout, h⟩ := exists_of_bind_eq_ok h
    change (if (c'.jacobian iind oind).isSome then _ else _) = Except.ok ps at h
    split at h
    · obtain ⟨p, hp, h⟩ := exists_of_bind_eq_ok h
      obtain rfl := Except.ok.inj h
      exact shape_jacSparsity rfl hp
    split at h
    · obtain ⟨p, hp, h⟩ := exists_of_bind_eq_ok h
      obtain ⟨side, -, h⟩ := exists_of_bind_eq_ok h
      obtain rfl := Except.ok.inj h
      exact shape_jacSparsity rfl hp
    · obtain rfl := Except.ok.inj h
      exact ⟨inp, out, Signature.inputs_of_checkInput hin, Signature.outputs_of_checkOutput hout, by simp⟩

/-- Of the patterns of its outputs, a numeric block looks only at the length of the first. -/
theorem value_jacobian_congr {s s' : Signature K} (ho : s'.options = s.options)
    (hsize : s'.outputSizes.getD 0 0 = s.outputSizes.getD 0 0) (block : JacobianBlock) (d : Definition K) (x : Block K) :
    (Definition.jacobian s' block d).effect.value x = (Definition.jacobian s block d).effect.value x := by
  change ((Effect.skipping s' _).value x).filter (Effect.passes s') =
    ((Effect.skipping s _).value x).filter (Effect.passes s)
  rw [Effect.value_skipping, Effect.value_skipping, Effect.passes_congr ho]
  change (d.effect.jacobian s' block d x).filter _ = (d.effect.jacobian s block d x).filter _
  rw [Effect.jacobian, Effect.jacobian, hsize]

theorem paired_numericJacobian {A : Callable K → Prop} (hs : d.Sound A roots)
    (hA : ∀ c, A c → c.Patterned) (h : d.Spans iind oind inp out) (o : Options K) (k k' : Nat) :
    Paired inp out ((d.numericJacobian iind oind true .jacobian o).run k).1
      ((d.numericJacobian iind oind false .jacobian o).run k').1 := by
  rw [numericJacobian, numericJacobian]
  cases hsource : d.numericSource iind oind with
  | error x => exact .refused x x
  | ok ps =>
  obtain ⟨p, source⟩ := ps
  have hlinks := h.links (valid_numericSource hs hA hsource) (shape_numericSource hsource)
  rw [Make.lift_ok rfl, Make.lift_ok rfl]
  dsimp only
  obtain ⟨y, hy, hroom⟩ | ⟨q, hq, hroom, hlarge⟩ := h.enlarge_cases hlinks
  · rw [hy]
    exact .cramped _ _ hroom
  · rw [Make.lift_ok hq]
    refine .made hroom hlinks hlarge ⟨rfl, rfl, fun x hx => ?_⟩ rfl rfl
    refine value_jacobian_congr ?_ ?_ _ d x
    · rfl
    · simpa [Signature.outputSizes] using hlarge.nnz_eq hlinks.valid

end Definition

namespace Symbolic

variable {inputs : Array (Matrix (Expr K))} {sig : Signature K}

/-- What the sweeps of a block leave: values for all its entries, and the outputs. -/
structure Swept (inputs : Array (Matrix (Expr K))) (sig : Signature K) (count : Nat)
    (r : Array (Expr K) × Block (Expr K)) : Prop where
  present : ∃ n roots, Expr.Numbered n roots ∧ Present roots inputs ∧ (∀ x ∈ r.1, Expr.ReachedFrom roots x) ∧
    r.2.Held roots
  size : r.1.size = count
  sizes : r.2.sizes = sig.outputSizes

namespace Swept

variable {count : Nat} {r r' : Array (Expr K) × Block (Expr K)}

/-- The outputs of a block function. -/
def blockOutputs (sig : Signature K) (first : Pattern) (r : Array (Expr K) × Block (Expr K)) : Array (Matrix (Expr K)) :=
  #[⟨first, r.1⟩] ++ matrices sig.outputs r.2

theorem coherent (h : Swept inputs sig count r) (first : Pattern) :
    Expr.Coherent (Matrix.entries inputs ++ Matrix.entries (blockOutputs sig first r)) := by
  obtain ⟨n, roots, hn, hin, hvalues, houts⟩ := h.present
  have hfirst : ∀ x ∈ (⟨first, r.1⟩ : Matrix (Expr K)).values, Expr.ReachedFrom roots x := hvalues
  have hpresent : Present roots (blockOutputs sig first r) := present_withFirst houts hfirst sig.outputs
  refine hn.toCoherent.mono fun e he => ?_
  obtain he | he := List.mem_append.mp he
  · exact hin e he
  · exact hpresent e he

theorem sized (h : Swept inputs sig count r) {first : Pattern} (hfirst : first.nnz = count) :
    ∀ m ∈ blockOutputs sig first r, m.Sized := by
  have hsized : (⟨first, r.1⟩ : Matrix (Expr K)).Sized := h.size.trans hfirst.symm
  exact forall_withFirst h.sizes hsized fun _ hm => hm

variable [Number K] {o : Options K}

/-- Renumbered values, on a pattern with as many entries, make a function with the same values. -/
theorem exists_ofExpressions (h : Swept inputs sig count r) (h' : Swept inputs sig count r')
    (hsame : Prod.map (Array.map Expr.bare) (Block.image Expr.bare) r =
      Prod.map (Array.map Expr.bare) (Block.image Expr.bare) r')
    (hin : ∀ m ∈ inputs, m.Sized) (hp : p.nnz = count) (hq : q.nnz = count) {l : Nat} {e : Definition K}
    (he : ((Definition.ofExpressions inputs (blockOutputs sig p r) o).run l).1 = .ok e) (l' : Nat) :
    ∃ e', ((Definition.ofExpressions inputs (blockOutputs sig q r') o).run l').1 = .ok e' ∧ e.SameValues e' ∧
      e.sig.outputs = #[p] ++ sig.outputs ∧ e'.sig.outputs = #[q] ++ sig.outputs := by
  have hsize {r : Array (Expr K) × Block (Expr K)} (h : Swept inputs sig count r) : r.2.size = sig.outputs.size := by
    simpa [Block.sizes, Signature.outputSizes] using congrArg Array.size h.sizes
  obtain ⟨hvalues, houts⟩ := Prod.ext_iff.mp hsame
  have halike : Matrix.Alike (blockOutputs sig p r) (blockOutputs sig q r') :=
    .withFirst (hsize h) (hsize h') hvalues houts
  obtain ⟨e', he', hboth, hout, hout'⟩ := halike.exists_ofExpressions hin (h.sized hp) (h'.sized hq) (h.coherent p)
    (h'.coherent q) he l'
  exact ⟨e', he', hboth, hout.trans (patterns_withFirst h.sizes _), hout'.trans (patterns_withFirst h'.sizes _)⟩

end Swept

end Symbolic

namespace Definition

variable [Number K] {inputs outputs : Array (Matrix (Expr K))} {sig : Signature K} {t : Tape K}

/-- The sweeps of a block are done. What is left is to sort the values, and to spread the pattern if that is asked for. -/
theorem paired_ofExpressions {d : Definition K} (h : d.Spans iind oind inp out) (hin : ∀ m ∈ inputs, m.Sized)
    (hp : p.Links inp out) {r r' : Array (Expr K) × Block (Expr K)} (hr : Symbolic.Swept inputs sig p.nnz r)
    (hr' : Symbolic.Swept inputs sig p.nnz r')
    (hsame : Prod.map (Array.map Expr.bare) (Block.image Expr.bare) r =
      Prod.map (Array.map Expr.bare) (Block.image Expr.bare) r') (o : Options K) (l l' : Nat) :
    Paired inp out ((ofExpressions inputs (Symbolic.Swept.blockOutputs sig p r) o).run l).1
      ((do
        let first ← d.enlarge p iind oind
        ofExpressions inputs (Symbolic.Swept.blockOutputs sig first r') o : Make (Definition K)).run l').1 := by
  obtain ⟨y, hy, hroom⟩ | ⟨q, hq, hroom, hlarge⟩ := h.enlarge_cases hp
  · have hrun : ((do
        let first ← d.enlarge p iind oind
        ofExpressions inputs (Symbolic.Swept.blockOutputs sig first r') o : Make (Definition K)).run l') =
          (.error y, l') := by
      rw [hy, run_bind_error (run_liftExcept _)]
    rw [hrun]
    cases ((ofExpressions inputs (Symbolic.Swept.blockOutputs sig p r) o).run l).1 with
    | error x => exact .refused x y
    | ok e => exact .cramped e y hroom
  rw [Make.lift_ok hq]
  have hnnz := hlarge.nnz_eq hp.valid
  cases he : ((ofExpressions inputs (Symbolic.Swept.blockOutputs sig p r) o).run l).1 with
  | ok e =>
    obtain ⟨e', he', hvalues, hout, hout'⟩ := hr.exists_ofExpressions hr' hsame hin rfl hnnz he l'
    rw [he']
    exact .made hroom hp hlarge hvalues hout hout'
  | error x =>
    cases he' : ((ofExpressions inputs (Symbolic.Swept.blockOutputs sig q r') o).run l').1 with
    | error y => exact .refused x y
    | ok e' =>
      obtain ⟨e, hok, -⟩ := hr'.exists_ofExpressions hr hsame.symm hin hnnz rfl he' l
      rw [he] at hok
      cases hok

theorem paired_symbolicJacobian (hd : Draws roots inputs outputs sig t) {n : Nat} (hn : Expr.Numbered n roots)
    (h : (Definition.expressions sig t inputs).Spans iind oind inp out) (symmetric : Bool) (o : Options K)
    {k k' : Nat} (hk : n ≤ k) (hk' : n ≤ k') :
    Paired inp out ((Symbolic.jacobian (.expressions sig t inputs) t inputs iind oind true symmetric o).run k).1
      ((Symbolic.jacobian (.expressions sig t inputs) t inputs iind oind false symmetric o).run k').1 := by
  cases hp : (Definition.expressions sig t inputs).jacSparsity iind oind true symmetric with
  | error x =>
    rw [Symbolic.jacobian, Symbolic.jacobian, hp]
    exact .refused x x
  | ok p =>
  cases hside : (Definition.expressions sig t inputs).partition iind oind true symmetric with
  | error x =>
    rw [Symbolic.jacobian, Symbolic.jacobian, hp, hside]
    exact .refused x x
  | ok side =>
  rw [Symbolic.jacobian_eq_blockValues hp hside, Symbolic.jacobian_eq_blockValues hp hside]
  have hrepeats := Symbolic.repeats_blockValues sig t inputs (.of iind oind p side symmetric)
  have hsweeps := Symbolic.attempts_blockValues hd (.of iind oind p side symmetric)
  generalize Symbolic.blockValues sig t inputs (.of iind oind p side symmetric) = act at hrepeats hsweeps ⊢
  have hswept {k l : Nat} {r : Array (Expr K) × Block (Expr K)} (hk : n ≤ k) (hrun : act.run k = (.ok r, l)) :
      Symbolic.Swept inputs sig p.nnz r ∧ p.Links inp out := by
    obtain ⟨roots', hsub, hn', hstores, hvalues, hsize, houts, hsizes⟩ := hsweeps.exists_roots (hn.mono hk) hrun
    have hs := hd.sorts hstores
    exact ⟨⟨⟨_, roots', hn', hd.presentInputs.subset hsub, hvalues, houts⟩, hsize, hsizes⟩,
      h.links (Symbolic.valid_jacSparsity hd hs hp).1 (Symbolic.shape_jacSparsity hd hs hp)⟩
  obtain ⟨r, l, hrun⟩ : ∃ r l, act.run k = (r, l) := ⟨_, _, rfl⟩
  obtain ⟨r', l', hrun'⟩ : ∃ r l, act.run k' = (r, l) := ⟨_, _, rfl⟩
  have hsame : (r.mapError id).map (Prod.map (Array.map Expr.bare) (Block.image Expr.bare)) =
      (r'.mapError id).map (Prod.map (Array.map Expr.bare) (Block.image Expr.bare)) := by
    have hfirst : (StateT.run act.run k).1 = r := congrArg Prod.fst hrun
    have hsecond : (StateT.run act.run k').1 = r' := congrArg Prod.fst hrun'
    rw [← hfirst, ← hsecond]
    exact (hrepeats k).trans (hrepeats k').symm
  cases r with
  | error x =>
    cases r' with
    | error y =>
      rw [run_bind_error hrun, run_bind_error hrun']
      exact .refused x y
    | ok r' => cases hsame
  | ok r =>
  cases r' with
  | error y => cases hsame
  | ok r' =>
  have hsame := Except.ok.inj hsame
  obtain ⟨hleft, hlinks⟩ := hswept hk hrun
  obtain ⟨hright, -⟩ := hswept hk' hrun'
  rw [run_bind_ok hrun, run_bind_ok hrun']
  dsimp only
  rw [if_pos rfl, pure_bind, if_neg Bool.false_ne_true]
  exact paired_ofExpressions h hd.sized hlinks hleft hright hsame o l l'

/-- Whatever the numbers that they are made from. -/
theorem paired_derive {d : Definition K} {A : Callable K → Prop} (hs : d.Sound A roots) (hA : ∀ c, A c → c.Patterned)
    {n : Nat} (hn : Expr.Numbered n roots) (h : d.Spans iind oind inp out) (symmetric : Bool) {k k' : Nat}
    (hk : n ≤ k) (hk' : n ≤ k') : Paired inp out ((d.derive (.jacobian iind oind true symmetric)).run k).1
      ((d.derive (.jacobian iind oind false symmetric)).run k').1 := by
  have hnumeric := paired_numericJacobian hs hA h (d.sig.derivedOptions "jac") k k'
  rw [derive, derive]
  cases hs with
  | @expressions sig t inputs outputs hd =>
    have hbuild (compact : Bool) (o : Options K) :
        (Definition.expressions sig t inputs).buildJacobian iind oind compact symmetric .jacobian o =
          if sig.options.numericJacobian then
            (Definition.expressions sig t inputs).numericJacobian iind oind compact .jacobian o
          else Symbolic.jacobian (.expressions sig t inputs) t inputs iind oind compact symmetric o := rfl
    rw [hbuild, hbuild]
    split
    · exact hnumeric
    · exact paired_symbolicJacobian hd hn h symmetric _ hk hk'
  | external | jacobian | derivative => exact hnumeric

end Definition

end Fluxion
