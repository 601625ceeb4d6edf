import Fluxion.Function.Derived
import Fluxion.Proofs.Exact
import Fluxion.Proofs.Function.SingleSeeds
import Fluxion.Proofs.Function.Twins

/-!
In how many directions a function is swept, and whether zero seeds are skipped, does not matter for the values of its
Jacobians and derivatives, as long as a zero seed that is swept has sensitivities of zeros.
-/
set_option autoImplicit false

namespace Fluxion

open Run

variable {K : Type}

/-! ### Zero seeds over exact numbers -/

section Exact

variable [Field K] [Number K] [ExactField K]

theorem entry_of_zeroSeed {v : Block K} (hv : Effect.zeroSeed v) {i k : Nat} {e : K} (he : v.get? i k = some e) : e = 0 :=
  (Number.isZero_iff e).mp (Block.all_eq_true_iff.mp hv i k e he)

namespace Differences

omit [Field K] [Number K] [ExactField K] in
theorem get?_zipBlocks (g : K → K → K) (x y : Block K) (i k : Nat) :
    (zipBlocks g x y).get? i k = (x.get? i k).bind fun e => (y.get? i k).map (g e) := by
  rw [zipBlocks, Block.get?, Block.get?, Block.get?, Array.getElem?_zipWith]
  cases x[i]? with
  | none => rfl
  | some v =>
    cases y[i]? with
    | none => simp
    | some w =>
      simp only [Option.bind_some, Array.getElem?_zipWith]
      cases v[k]? <;> cases w[k]? <;> rfl

/-- Along a zero seed there is no other point. -/
theorem perturb_zeroSeed {x v : Block K} (hsize : v.sizes = x.sizes) (hv : Effect.zeroSeed v) (h : K) :
    perturb x v h = x := by
  refine Block.ext_get? (sizes_zipBlocks _ rfl hsize) fun i k e he => ?_
  rw [perturb, get?_zipBlocks] at he
  obtain ⟨b, hb, he⟩ := Option.bind_eq_some_iff.mp he
  obtain ⟨d, hd, rfl⟩ := Option.map_eq_some_iff.mp he
  have hsame : Number.add b (Number.mul h d) = b := by
    rw [entry_of_zeroSeed hv hd, Number.mul, ExactRing.eval_mul, mul_zero, Number.add, ExactRing.eval_add, add_zero]
  rw [hsame]
  exact hb

/-- Without a difference there is no quotient. -/
theorem quotients_self {y : Block K} {ns : Array Nat} (hy : y.sizes = ns) (h : K) :
    zipBlocks (quotient h) y y = .filled ns Number.zero := by
  have hzero (p : K) : quotient h p p = Number.zero := by
    rw [quotient, Number.sub, ExactRing.eval_sub, sub_self, Number.div, ExactField.eval_div, zero_div, Number.zero_eq]
  rw [← hy, ← Block.clear_eq, zipBlocks, Array.zipWith_self]
  simp only [Array.zipWith_self, hzero]

theorem contract_zeroSeed {w : Block K} (hw : Effect.zeroSeed w) (h : K) (plus minus : Block K) :
    contract h w plus minus = 0 := by
  have hentries {v : Array K} (hv : v ∈ w) {e : K} (he : e ∈ v) : e = 0 := by
    obtain ⟨i, hi⟩ := Array.mem_iff_getElem?.mp hv
    obtain ⟨k, hk⟩ := Array.mem_iff_getElem?.mp he
    exact entry_of_zeroSeed hw (i := i) (k := k) (by rw [Block.get?, hi, Option.bind_some, hk])
  rw [contract, ← Array.foldl_toList, Number.zero_eq]
  refine List.foldlRecOn _ _ (motive := (· = 0)) rfl fun acc hacc t ht => ?_
  obtain ⟨s, p, m⟩ := t
  dsimp only
  rw [← Array.foldl_toList]
  refine List.foldlRecOn _ _ (motive := (· = 0)) hacc fun acc hacc u hu => ?_
  obtain ⟨s', p', m'⟩ := u
  rw [Array.toList_zip] at ht hu
  have hzero := hentries (Array.mem_toList_iff.mp (List.of_mem_zip ht).1) (Array.mem_toList_iff.mp (List.of_mem_zip hu).1)
  dsimp only
  rw [hzero, hacc, Number.mul, ExactRing.eval_mul, zero_mul, Number.div, ExactField.eval_div, zero_div, Number.add,
    ExactRing.eval_add, add_zero]

end Differences

namespace Effect

omit [Field K] [ExactField K] in
/-- Outputs of an evaluation have the sizes of the outputs. -/
theorem Decides.sizes_value {E : Effect K} {d : Definition K} {α : Type} {act : Nat → Nat → Run K α} (h : E.Decides d act)
    {x y : Block K} (hx : x.sizes = d.sig.inputSizes) (hy : E.value x = some y) : y.sizes = d.sig.outputSizes := by
  obtain ⟨hframe, hinner⟩ := Instance.fits_of d
  have hset : ((Instance.of d).machine.withBuffers {(Instance.of d).machine.frame.buffers with input := x}).Fits d
      d.sig.options.initial d.sig.options.limits := by
    obtain ⟨⟨-, hout, hfs, hfr, has, har, hf, ha⟩, hforward, hadjoint⟩ := hframe
    exact ⟨⟨⟨hx, hout, hfs, hfr, has, har, hf, ha⟩, hforward, hadjoint⟩, hinner⟩
  obtain ⟨-, n, -, hn⟩ := (h _ _ 0 0 _ hset (Nat.zero_le _) (Nat.zero_le _)).exists_ok
    (has_zero_iff.mpr (Option.isSome_of_eq_some hy))
  obtain rfl := Option.some.inj (hy.symm.trans hn.gives.value)
  exact hn.fits.frame.shaped.output

/-- Quotients along zero seeds are zeros, and so are sums of products with zeros. -/
theorem quiet_ofBody {s : Signature K} {g : Block K → Option (Block K)}
    (hg : ∀ x y : Block K, x.sizes = s.inputSizes → g x = some y → y.sizes = s.outputSizes) : (ofBody s g).Quiet s := by
  refine ⟨fun x v sens hx hv hzero hsens => ?_, fun x w sens hx hw hzero hsens => ?_⟩
  · change Differences.along g _ _ x v = some sens at hsens
    rw [Differences.along] at hsens
    dsimp only at hsens
    split at hsens
    · exact (Option.some.inj hsens).symm
    · simp only [Differences.perturb_zeroSeed (hv.trans hx.symm) hzero] at hsens
      obtain ⟨y, hy, hsens⟩ := Option.bind_eq_some_iff.mp hsens
      obtain ⟨y', hy', hsens⟩ := Option.bind_eq_some_iff.mp hsens
      obtain rfl := Option.some.inj (hy.symm.trans hy')
      exact (Option.some.inj hsens).symm.trans (Differences.quotients_self (hg x y hx hy) _)
  · change Differences.against g _ x w = some sens at hsens
    have hall : (Differences.against g s.options.step x w).isSome := Option.isSome_of_eq_some hsens
    have hvalue := Differences.getD_against hall
    rw [hsens, Option.getD_some] at hvalue
    have hcolumn (h : K) (i k : Nat) (e : K) : (Differences.column g h x w i k e).getD Number.zero = Number.zero := by
      rw [Differences.column]
      cases g (x.set i k (Number.add e h)) with
      | none => rfl
      | some p =>
        cases g (x.set i k (Number.sub e h)) with
        | none => rfl
        | some q => exact (Differences.contract_zeroSeed hzero h p q).trans Number.zero_eq.symm
    simp only [hcolumn] at hvalue
    rw [hvalue, ← hx]
    exact Block.ext_of_get? (by rw [Block.sizes_mapIdx, Block.sizes_filled]) fun i k => by
      rw [Block.get?_mapIdx, ← Block.clear_eq, Block.get?, Block.get?, Array.getElem?_map]
      cases x[i]? <;> simp

end Effect

namespace Definition

variable {d : Definition K} {roots : List (Expr K)}

/-- Over exact numbers a zero seed has no effect on a function that is opaque. -/
theorem Sound.quiet (h : d.Sound Callable.Complete roots) (hroom : Room (d.sig.options.granted 1 1))
    (ht : d.tape? = none) : d.Quiet := by
  have hbody : d.bareEffect = .ofBody d.sig d.bareEffect.value := by
    cases d with
    | expressions => cases ht
    | external | jacobian | derivative => rfl
  have hquiet : d.bareEffect.Quiet d.sig := by
    rw [hbody]
    exact Effect.quiet_ofBody fun x y hx hy => (h.decides_dispatch hroom).sizes_value hx hy
  exact ⟨fun x v sens hx hv hzero hsens => hquiet.forward x v sens hx hv hzero (Option.eq_some_of_filter_eq_some hsens),
    fun x w sens hx hw hzero hsens => hquiet.adjoint x w sens hx hw hzero (Option.eq_some_of_filter_eq_some hsens)⟩

end Definition

end Exact

/-! ### What is derived from twins -/

variable {α β : Type}

/-- From the same counter, computations that both return have related values and leave the same counter. -/
def Make.Relates (R : α → β → Prop) (act : Make α) (act' : Make β) : Prop :=
  ∀ n a b k k', act.run n = (.ok a, k) → act'.run n = (.ok b, k') → R a b ∧ k = k'

namespace Make.Relates

variable {α' β' : Type} {R : α → β → Prop} {S : α' → β' → Prop}

theorem bind {act : Make α} {act' : Make β} {f : α → Make α'} {f' : β → Make β'} (h : Relates R act act')
    (hf : ∀ a b, R a b → Relates S (f a) (f' b)) : Relates S (act >>= f) (act' >>= f') := by
  intro n a' b' k k' ha hb
  obtain ⟨a, m, hact, ha⟩ := exists_of_run_bind ha
  obtain ⟨b, m', hact', hb⟩ := exists_of_run_bind hb
  obtain ⟨hR, rfl⟩ := h n a b m m' hact hact'
  exact hf a b hR m a' b' k k' ha hb

/-- The same computation first. -/
theorem next {act : Make α} {f : α → Make α'} {f' : α → Make β'} (hf : ∀ a, Relates S (f a) (f' a)) :
    Relates S (act >>= f) (act >>= f') :=
  bind (R := Eq) (fun n a b k k' ha hb => by cases ha.symm.trans hb; exact ⟨rfl, rfl⟩) fun a _ h => h ▸ hf a

theorem pure {a : α} {b : β} (h : R a b) : Relates R (Pure.pure a) (Pure.pure b) := by
  intro n a' b' k k' ha hb
  cases ha
  cases hb
  exact ⟨h, rfl⟩

theorem throw {e : Fault} {act : Make β} : Relates R (MonadExcept.throw e) act := fun _ _ _ _ _ ha => by cases ha

end Make.Relates

/-- Other numbers of directions, and zero seeds skipped or not. -/
inductive Options.Alike (o : Options K) : Options K → Prop
  | intro (forward adjoint maxForward maxAdjoint : Nat) (compress : Bool) :
    Alike o {o with
      forwardDirections := forward
      adjointDirections := adjoint
      maxForward := maxForward
      maxAdjoint := maxAdjoint
      compressDirections := compress}

theorem Options.Alike.sig {o o' : Options K} (h : o.Alike o') (uid uid' : Nat) (inputs outputs : Array Pattern) :
    Signature.Alike ⟨uid, o, inputs, outputs⟩ ⟨uid', o', inputs, outputs⟩ := by
  cases h
  exact .intro _ _ _ _ _ _

theorem Signature.Alike.derivedOptions {s s' : Signature K} (h : s.Alike s') (label : String) :
    (s.derivedOptions label).Alike (s'.derivedOptions label) := by
  cases h
  exact .intro _ _ _ _ _

namespace Definition

variable [Number K] {d d' : Definition K} {o o' : Options K}

open Make

theorem relates_ofExpressions (inputs outputs : Array (Matrix (Expr K))) (h : o.Alike o') :
    Relates Twins (ofExpressions inputs outputs o) (ofExpressions inputs outputs o') := by
  have hsort : Tape.ofGraph inputs outputs o'.liveVariables o'.sorting =
      Tape.ofGraph inputs outputs o.liveVariables o.sorting := by cases h; rfl
  have hfree : o'.allowFree = o.allowFree := by cases h; rfl
  have hname : o'.name = o.name := by cases h; rfl
  rw [ofExpressions, ofExpressions, hsort]
  refine .next fun t => ?_
  rw [hfree, hname]
  split
  · exact .throw
  · exact .next fun uid => .pure (.expressions t inputs (h.sig _ _ _ _))

theorem relates_gradient (d : Definition K) (t : Tape K) (inputs : Array (Matrix (Expr K))) (iind oind : Nat)
    (h : o.Alike o') :
    Relates Twins (Symbolic.gradient d t inputs iind oind o) (Symbolic.gradient d t inputs iind oind o') :=
  .next fun _ => .next fun _ => .next fun _ => relates_ofExpressions _ _ h

theorem relates_symbolicJacobian (d : Definition K) (t : Tape K) (inputs : Array (Matrix (Expr K))) (iind oind : Nat)
    (compact symmetric : Bool) (h : o.Alike o') :
    Relates Twins (Symbolic.jacobian d t inputs iind oind compact symmetric o)
      (Symbolic.jacobian d t inputs iind oind compact symmetric o') := by
  rw [Symbolic.jacobian, Symbolic.jacobian]
  refine .next fun p => .next fun side => ?_
  dsimp only
  refine .next fun b => .next fun fs => .next fun as => .next fun b => .next fun zero => ?_
  split
  · exact .next fun _ => relates_ofExpressions _ _ h
  · exact .next fun _ => relates_ofExpressions _ _ h

theorem relates_symbolicDerivative (d : Definition K) (t : Tape K) (inputs : Array (Matrix (Expr K))) (f a : Nat)
    (h : o.Alike o') :
    Relates Twins (Symbolic.derivative d t inputs f a o) (Symbolic.derivative d t inputs f a o') :=
  .next fun _ => .next fun _ => .next fun _ => .next fun _ => relates_ofExpressions _ _ h

namespace Twins

theorem numericSource_eq (h : Twins d d') (iind oind : Nat) : d'.numericSource iind oind = d.numericSource iind oind := by
  obtain ⟨hinput, houtput, hmode⟩ : d'.sig.checkInput iind = d.sig.checkInput iind ∧
      d'.sig.checkOutput oind = d.sig.checkOutput oind ∧ d'.sig.options.adMode = d.sig.options.adMode := by
    have halike := h.alike
    generalize d'.sig = s' at halike
    cases halike
    exact ⟨rfl, rfl, rfl⟩
  simp only [numericSource, hinput, houtput, hmode, h.callable?_eq, h.jacSparsity_eq, h.partition_eq]

theorem relates_numericJacobian (h : Twins d d') (iind oind : Nat) (compact : Bool) (layout : Layout)
    (ho : o.Alike o') :
    Relates Twins (d.numericJacobian iind oind compact layout o) (d'.numericJacobian iind oind compact layout o') := by
  obtain ⟨hinputs, houtputs, hinput, hplaces⟩ : d'.sig.inputs = d.sig.inputs ∧ d'.sig.outputs = d.sig.outputs ∧
      d'.sig.checkInput iind = d.sig.checkInput iind ∧ ∀ p, d'.enlarge p iind oind = d.enlarge p iind oind := by
    have halike := h.alike
    simp only [enlarge]
    generalize d'.sig = s' at halike
    cases halike
    exact ⟨rfl, rfl, rfl, fun _ => rfl⟩
  rw [numericJacobian, numericJacobian, h.numericSource_eq]
  refine .next fun source => ?_
  obtain ⟨p, source⟩ := source
  dsimp only
  rw [hinput, hplaces, hinputs, houtputs]
  have hlast (first : Pattern) : Relates Twins
      (do
        let uid ← (liftM Fresh.next : Make Nat)
        return .jacobian ⟨uid, o, d.sig.inputs, #[first] ++ d.sig.outputs⟩ ⟨iind, oind, layout, p, source⟩ d)
      (do
        let uid ← (liftM Fresh.next : Make Nat)
        return .jacobian ⟨uid, o', d.sig.inputs, #[first] ++ d.sig.outputs⟩ ⟨iind, oind, layout, p, source⟩ d') :=
    .next fun uid => .pure (.jacobian _ (ho.sig _ _ _ _) h)
  split
  · exact .next hlast
  · exact .next hlast
  · exact .next hlast

theorem relates_buildJacobian (h : Twins d d') (iind oind : Nat) (compact symmetric : Bool) (layout : Layout)
    (ho : o.Alike o') :
    Relates Twins (d.buildJacobian iind oind compact symmetric layout o)
      (d'.buildJacobian iind oind compact symmetric layout o') := by
  have hnumeric := h.relates_numericJacobian iind oind compact layout ho
  cases h with
  | expressions t inputs hs =>
    cases hs
    rw [buildJacobian.eq_def, buildJacobian.eq_def]
    dsimp only
    split
    · exact hnumeric
    · cases layout with
      | gradient => exact relates_gradient _ t inputs iind oind ho
      | jacobian => exact relates_symbolicJacobian _ t inputs iind oind compact symmetric ho
  | external => exact hnumeric
  | jacobian => exact hnumeric
  | derivative => exact hnumeric

/-- What is derived from twins in the same way are twins. -/
theorem relates_derive (h : Twins d d') (r : Request)
    (hquiet : ∀ f a, r = .derivative f a → d.tape? = none →
      d'.sig.options.compressDirections ≠ d.sig.options.compressDirections →
      (d.sig.options.compressDirections = false → d.Quiet) ∧ (d'.sig.options.compressDirections = false → d'.Quiet)) :
    Relates Twins (d.derive r) (d'.derive r) := by
  cases r with
  | jacobian iind oind compact symmetric =>
    exact h.relates_buildJacobian iind oind compact symmetric .jacobian (h.alike.derivedOptions _)
  | gradient iind oind => exact h.relates_buildJacobian iind oind true false .gradient (h.alike.derivedOptions _)
  | hessian iind oind =>
    obtain ⟨o, o', ho, hd, hd'⟩ : ∃ o o' : Options K, o.Alike o' ∧
        o = {d.sig.derivedOptions "grad" with numericJacobian := d.sig.options.numericHessian} ∧
        o' = {d'.sig.derivedOptions "grad" with numericJacobian := d'.sig.options.numericHessian} := by
      refine ⟨_, _, ?_, rfl, rfl⟩
      have halike := h.alike
      generalize d'.sig = s' at halike
      cases halike
      exact .intro _ _ _ _ _
    rw [derive, derive, ← hd, ← hd']
    exact .bind (h.relates_buildJacobian iind oind true false .gradient ho) fun g g' hg =>
      hg.relates_buildJacobian iind 0 false true .jacobian (h.alike.derivedOptions _)
  | derivative f a =>
    have ho := h.alike.derivedOptions s!"fwd{f}_adj{a}"
    obtain ⟨hinputs, houtputs⟩ : d'.sig.inputs = d.sig.inputs ∧ d'.sig.outputs = d.sig.outputs := by
      have halike := h.alike
      generalize d'.sig = s' at halike
      cases halike
      exact ⟨rfl, rfl⟩
    have hnumeric (ht : d.tape? = none) : Relates Twins
        (liftM (d.numericDerivative f a (d.sig.derivedOptions s!"fwd{f}_adj{a}")) : Make (Definition K))
        (liftM (d'.numericDerivative f a (d'.sig.derivedOptions s!"fwd{f}_adj{a}")) : Make (Definition K)) := by
      intro n e e' k k' he he'
      cases he
      cases he'
      rw [hinputs, houtputs]
      exact ⟨.derivative f a (ho.sig _ _ _ _) h (hquiet f a rfl ht), rfl⟩
    cases h with
    | expressions t inputs hs =>
      cases hs
      exact relates_symbolicDerivative _ t inputs f a ho
    | external => exact hnumeric rfl
    | jacobian => exact hnumeric rfl
    | derivative => exact hnumeric rfl

end Twins

end Definition

/-! ### Values, however many directions there are -/

/-- The number of directions is of no matter. Instances with the same inputs have the same Jacobian values, however each
came to its state. Where instances of twins both have some, they are the same. And a numeric derivative answers for each
of its seeds what its parent does that is asked for this seed only. -/
theorem Made.values_of_directions [Number K] (hone : Number.isZero (Number.one : K) = false) {n : Nat} {d : Definition K}
    (h : Made Callable.Complete n d) {i : Instance K} (hi : i.Reached d) :
    (∀ j : Instance K, j.Reached d → j.frame.buffers.input = i.frame.buffers.input → ∀ iind oind symmetric J,
      (j.run (d.jacobianValues iind oind symmetric)).1 = .ok J ↔
        (i.run (d.jacobianValues iind oind symmetric)).1 = .ok J) ∧
    (∀ (n' : Nat) (d' : Definition K), Made Callable.Complete n' d' → d.Twins d' → ∀ j : Instance K, j.Reached d' →
      j.frame.buffers.input = i.frame.buffers.input → ∀ iind oind symmetric J J',
      (i.run (d.jacobianValues iind oind symmetric)).1 = .ok J →
        (j.run (d'.jacobianValues iind oind symmetric)).1 = .ok J' → J' = J) ∧
    (d.tape? = none → 1 ≤ d.sig.options.maxForward ∧ 1 ≤ d.sig.options.maxAdjoint → ∀ (f a k k' : Nat) (e : Definition K),
      n ≤ k → (d.derive (.derivative f a)).run k = (.ok e, k') → ∀ j : Instance K, j.Reached e →
      ∀ x : Block K, x.sizes = e.sig.inputSizes → ∀ y, (j.run (e.call x)).1 = .ok y ↔
        Room (d.sig.options.granted f a) ∧ (i.run (d.oneByOne f a x)).1 = .ok y) := by
  refine ⟨fun j hj hin iind oind symmetric J => h.jacobianValues_agree hi hj hin iind oind symmetric J,
    fun n' d' h' htwins j hj hin iind oind symmetric J J' hJ hJ' => ?_,
    fun ht hmost f a k k' e hk hrun j hj x hx y => h.derivative_iff_oneByOne ht hmost hk hrun hj hi hx y⟩
  obtain ⟨roots, -, hsound⟩ := h.sound
  have hseated := ((h.sturdy hi.room (.inl trivial)).seated hi).2
  have hanswer := ((h.decides hi.room).yields_jacobianValues hseated iind oind symmetric).iff_ok.mpr hJ
  have hanswer' := ((h'.decides hj.room).yields_jacobianValues ((h'.sturdy hj.room (.inl trivial)).seated hj).2 iind oind
    symmetric).iff_ok.mpr hJ'
  have hsame : j.machine.frame.buffers.input = i.machine.frame.buffers.input := hin
  rw [hsame] at hanswer'
  exact (htwins.concur_jacobianAnswer hone hsound iind oind symmetric hseated.fits.frame.shaped.input J J' hanswer
    hanswer').symm

variable [Number K]

/-- The square of a number. -/
def squareCallable (K : Type) [Number K] : Callable K :=
  ⟨#[.scalar], #[.scalar], fun x => .ok (x.map (·.map fun v => Number.mul v v)), fun _ _ => none, fun _ _ => none⟩

/-- The square, with so many directions at first on each side. -/
def square (o : Options K) (count : Nat) (compress : Bool) : Definition K :=
  .external ⟨0, {o with
    forwardDirections := count
    adjointDirections := count
    compressDirections := compress}, #[.scalar], #[.scalar]⟩ (squareCallable K)

/-- The square and its derivative times a number. -/
def squareSlope (o : Options K) (count : Nat) (compress : Bool) : Definition K :=
  .derivative ⟨1, (square o count compress).sig.derivedOptions "fwd0_adj1", #[.scalar, .scalar], #[.scalar, .scalar]⟩ 0 1
    (square o count compress)

theorem squareCallable_complete : (squareCallable K).Complete := by
  intro x y hx hy
  cases hy
  simpa [Block.sizes, Function.comp_def, squareCallable] using hx

theorem squareSlope_made {o : Options K} (hstep : (Number.less Number.zero o.step && Number.finite o.step) = true)
    (count : Nat) (compress : Bool) : Made Callable.Complete 2 (squareSlope o count compress) := by
  have hsquare : (Definition.ofCallable (squareCallable K) (square o count compress).sig.options).run 0 =
      (.ok (square o count compress), 1) := by
    simp only [Definition.ofCallable, square, Definition.sig, hstep]
    rfl
  have hslope : ((square o count compress).derive (.derivative 0 1)).run 1 = (.ok (squareSlope o count compress), 2) := rfl
  exact .derived (.external squareCallable_complete hsquare) le_rfl hslope

/-- The slope of the square of a rational number. -/
def rationalSlope (count : Nat) (compress : Bool) : Definition ℚ := squareSlope (.standard 1) count compress

/-- Over the rationals a zero seed is swept to no effect, so whether it is skipped makes no difference. -/
theorem rationalSlope_twins : (rationalSlope 1 true).Twins (rationalSlope 5 false) := by
  have hsound (count : Nat) (compress : Bool) : (square (.standard (1 : ℚ)) count compress).Sound Callable.Complete [] :=
    .external rfl rfl squareCallable_complete
  exact .derivative 0 1 (.intro 1 5 5 64 64 false) (.external _ (.intro 0 5 5 64 64 false)) fun _ =>
    ⟨fun _ => (hsound 1 true).quiet (by decide) rfl, fun _ => (hsound 5 false).quiet (by decide) rfl⟩

/-- The slope with its derivatives along a direction and against another. -/
def slopeDerivative : Definition ℚ :=
  .derivative ⟨2, (rationalSlope 1 true).sig.derivedOptions "fwd1_adj1", .replicate 6 .scalar, .replicate 6 .scalar⟩ 1 1
    (rationalSlope 1 true)

/-- A call at a zero seed, and a request for directions. -/
def slopeHistory : List (Step ℚ) := [.call #[#[3], #[0]], .ask (.requestDirections 3 2)]

/-- With one direction or with five, and with the zero seed skipped or swept, the derivative by the number is zero at a
zero seed. And a forward and an adjoint direction of the slope are answered as one by one. -/
theorem Made.values_of_directions_slope :
    Made Callable.Complete 2 (rationalSlope 1 true) ∧ Made Callable.Complete 2 (rationalSlope 5 false) ∧
    (rationalSlope 1 true).Twins (rationalSlope 5 false) ∧
    ((Instance.of (rationalSlope 1 true)).through slopeHistory).Reached (rationalSlope 1 true) ∧
    ((Instance.of (rationalSlope 5 false)).through slopeHistory).Reached (rationalSlope 5 false) ∧
    (((Instance.of (rationalSlope 1 true)).through (slopeHistory ++ slopeHistory)).run
      ((rationalSlope 1 true).jacobianValues 0 1 false)).1 = .ok (.scalar 0) ∧
    (∀ J, (((Instance.of (rationalSlope 5 false)).through slopeHistory).run
      ((rationalSlope 5 false).jacobianValues 0 1 false)).1 = .ok J → J = .scalar 0) ∧
    ((Instance.of slopeDerivative).run (slopeDerivative.call #[#[3], #[2], #[1], #[0], #[1], #[1]])).1 =
      .ok #[#[9], #[12], #[6], #[4], #[10], #[6]] := by
  have hmade (count : Nat) (compress : Bool) : Made Callable.Complete 2 (rationalSlope count compress) :=
    squareSlope_made (by decide) count compress
  have hi : ((Instance.of (rationalSlope 1 true)).through slopeHistory).Reached (rationalSlope 1 true) :=
    ⟨_, _, by cbv, rfl⟩
  have hmore : ((Instance.of (rationalSlope 1 true)).through (slopeHistory ++ slopeHistory)).Reached
      (rationalSlope 1 true) := ⟨_, _, by cbv, rfl⟩
  have hj : ((Instance.of (rationalSlope 5 false)).through slopeHistory).Reached (rationalSlope 5 false) :=
    ⟨_, _, by cbv, rfl⟩
  have hk : (Instance.of slopeDerivative).Reached slopeDerivative := ⟨_, [], by cbv, rfl⟩
  have hvalues : (((Instance.of (rationalSlope 1 true)).through slopeHistory).run
      ((rationalSlope 1 true).jacobianValues 0 1 false)).1 = .ok (.scalar 0) := by cbv
  obtain ⟨hagree, htwins, hsingle⟩ := Made.values_of_directions (by decide) (hmade 1 true) hi
  refine ⟨hmade 1 true, hmade 5 false, rationalSlope_twins, hi, hj, (hagree _ hmore (by cbv) 0 1 false _).mpr hvalues,
    fun J hJ => ?_, ?_⟩
  · exact htwins 2 _ (hmade 5 false) rationalSlope_twins _ hj (by cbv) 0 1 false _ _ hvalues hJ
  · exact (hsingle rfl (by decide) 1 1 2 3 slopeDerivative le_rfl rfl _ hk _ (by cbv) _).mpr ⟨by decide, by cbv⟩

/-- The slope of the square of a double, which may be no number. -/
def doubleSlope (compress : Bool) : Definition Float := squareSlope {Options.double with regularityCheck := false} 1 compress

def farHistory : List (Step Float) := [.call #[#[1e200], #[0]]]

/-- Where the square is out of range, a zero seed that is skipped has a zero and one that is swept is not a number. -/
theorem Made.values_of_compression :
    Made Callable.Complete 2 (doubleSlope true) ∧ Made Callable.Complete 2 (doubleSlope false) ∧
    ((Instance.of (doubleSlope true)).through farHistory).Reached (doubleSlope true) ∧
    ((Instance.of (doubleSlope false)).through farHistory).Reached (doubleSlope false) ∧
    ((((Instance.of (doubleSlope true)).through farHistory).run
      ((doubleSlope true).jacobianValues 0 1 false)).1.toOption.map fun J => J.values.map (· == 0)) = some #[true] ∧
    ((((Instance.of (doubleSlope false)).through farHistory).run
      ((doubleSlope false).jacobianValues 0 1 false)).1.toOption.map fun J => J.values.map (·.isNaN)) = some #[true] :=
  ⟨squareSlope_made (by decide +kernel) 1 true, squareSlope_made (by decide +kernel) 1 false, ⟨_, _, rfl, rfl⟩,
    ⟨_, _, rfl, rfl⟩, by decide +kernel, by decide +kernel⟩

end Fluxion
