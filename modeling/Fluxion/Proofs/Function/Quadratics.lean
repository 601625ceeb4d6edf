import Fluxion.Proofs.Function.Decided
import Fluxion.Proofs.Function.Directions
import Fluxion.Proofs.Function.Intact
import Fluxion.Proofs.Function.Slope

/-!
Central differences of quadratic functions. Over an ordered field the step cancels: the quotients along a seed are the
products of the Jacobian with it, and the columns times a seed those of the transposed Jacobian.
-/
set_option autoImplicit false

namespace Fluxion

open MvPolynomial

variable {K T : Type}

/-! ### Sums -/

open Finset in
theorem foldl_add_eq_sum [AddCommMonoid K] (F : T → K) (xs : Array T) (a : K) :
    xs.foldl (fun a t => a + F t) a = a + ∑ k ∈ range xs.size, xs[k]?.elim 0 F := by
  obtain ⟨l⟩ := xs
  simp only [List.foldl_toArray', List.size_toArray, List.getElem?_toArray]
  induction l generalizing a with
  | nil => simp
  | cons t l ih =>
    rw [List.foldl_cons, ih, List.length_cons, sum_range_succ', add_assoc, add_comm (F t)]
    simp

namespace Differences

section Field

variable [Field K] [Number K] [ExactField K]

open Finset in
theorem foldl_contract (h : K) (s p m : Array K) (acc : K) : (s.zip (p.zip m)).foldl (fun acc (s, p, m) =>
    Number.add acc (Number.div (Number.mul s (Number.sub p m)) (Number.mul Number.two h))) acc =
      acc + ∑ k ∈ range (s.zip (p.zip m)).size,
        (s.zip (p.zip m))[k]?.elim 0 fun u => u.1 * (u.2.1 - u.2.2) / (2*h) := by
  rw [← foldl_add_eq_sum]
  simp

open Finset in
/-- Products with differences that are multiples of the step. -/
theorem contract_eq_dot {h : K} (hh : 2*h ≠ 0) {w plus minus c : Block K} (hp : plus.sizes = w.sizes)
    (hm : minus.sizes = w.sizes) (hd : ∀ i k, plus.entry i k - minus.entry i k = 2*h * c.entry i k) :
    contract h w plus minus = w.dot c := by
  have hsizes {y : Block K} (hy : y.sizes = w.sizes) {i : Nat} {s : Array K} (hs : w[i]? = some s) :
      ∃ r : Array K, y[i]? = some r ∧ r.size = s.size := by
    have hi := congrArg (·[i]?) hy
    simpa [Block.sizes, hs] using hi
  have hsize : (w.zip (plus.zip minus)).size = w.size := by
    rw [Array.size_zip, Array.size_zip, Block.size_eq hp, Block.size_eq hm, Nat.min_self, Nat.min_self]
  rw [contract, Number.zero_eq]
  simp only [foldl_contract]
  rw [foldl_add_eq_sum, zero_add, hsize, Block.dot]
  refine sum_congr rfl fun i hi => ?_
  obtain ⟨s, hs⟩ : ∃ s, w[i]? = some s := ⟨_, Array.getElem?_eq_getElem (mem_range.mp hi)⟩
  obtain ⟨p, hpi, hps⟩ := hsizes hp hs
  obtain ⟨m, hmi, hms⟩ := hsizes hm hs
  have hzip : (w.zip (plus.zip minus))[i]? = some (s,p,m) := by
    simp [Array.getElem?_zip_eq_some, hs, hpi, hmi]
  have hwidth : (s.zip (p.zip m)).size = s.size := by
    rw [Array.size_zip, Array.size_zip, hps, hms, Nat.min_self, Nat.min_self]
  rw [hzip, Option.elim_some, hwidth, Array.getD_eq_getD_getElem?, hs, Option.getD_some]
  refine sum_congr rfl fun k hk => ?_
  have hget {r : Array K} (hr : r.size = s.size) : r[k]? = some (r.getD k 0) :=
    getElem?_eq_some_getD (hr ▸ mem_range.mp hk) 0
  have hentry := hd i k
  simp only [Block.entry, Block.get?, hs, hpi, hmi, Option.bind_some, hget hps, hget hms, hget rfl,
    Option.getD_some] at hentry ⊢
  have hentries : (s.zip (p.zip m))[k]? = some (s.getD k 0, p.getD k 0, m.getD k 0) :=
    Array.getElem?_zip_eq_some.mpr ⟨hget rfl, Array.getElem?_zip_eq_some.mpr ⟨hget hps, hget hms⟩⟩
  rw [hentries, Option.elim_some, hentry, mul_div_assoc, mul_div_cancel_left₀ _ hh]

theorem point_perturb {x v : Block K} (hv : v.sizes = x.sizes) (h : K) :
    (perturb x v h).point = fun s => x.point s + h * v.point s := by
  funext s
  have hsame : (v.get? s.1 s.2).isSome ↔ (x.get? s.1 s.2).isSome := by
    rw [Block.get?_isSome hv, Block.get?_isSome rfl]
  simp only [Block.point, Block.entry, perturb, get?_zipBlocks]
  cases hx : x.get? s.1 s.2 <;> cases hw : v.get? s.1 s.2 <;> simp_all

end Field

theorem zipBlocks_map {K : Type} (f : K → K → K) (F G : T → K) (P : Block T) :
    zipBlocks f (Array.map (·.map F) P) (Array.map (·.map G) P) = Array.map (·.map fun p => f (F p) (G p)) P := by
  simp [zipBlocks, Array.zipWith_map, Array.zipWith_self]

/-! ### Steps -/

section Order

variable [Field K] [LinearOrder K] [Number K] [ExactOrder K]

theorem maxAbs_eq (b : Block K) :
    maxAbs b = (b.toList.flatMap Array.toList).foldl (fun m x => max m |x|) 0 := by
  simp [maxAbs, List.foldl_flatMap]

omit [Number K] [ExactOrder K] in
theorem le_foldl_max (xs : List K) (m : K) : m ≤ xs.foldl (fun m x => max m |x|) m ∧
    ∀ x ∈ xs, |x| ≤ xs.foldl (fun m x => max m |x|) m := by
  induction xs generalizing m with
  | nil => exact ⟨le_rfl, fun x hx => by cases hx⟩
  | cons y xs ih =>
    obtain ⟨hm, hxs⟩ := ih (max m |y|)
    exact ⟨(le_max_left m |y|).trans hm, List.forall_mem_cons.mpr ⟨(le_max_right m |y|).trans hm, hxs⟩⟩

theorem maxAbs_nonneg (b : Block K) : 0 ≤ maxAbs b := by
  rw [maxAbs_eq]
  exact (le_foldl_max _ 0).1

theorem abs_le_maxAbs {b : Block K} {i k : Nat} {e : K} (he : b.get? i k = some e) : |e| ≤ maxAbs b := by
  obtain ⟨v, hv, he⟩ := Option.bind_eq_some_iff.mp he
  rw [maxAbs_eq]
  exact (le_foldl_max _ 0).2 e (List.mem_flatMap.mpr ⟨v, Array.mem_toList_iff.mpr (Array.mem_of_getElem? hv),
    Array.mem_toList_iff.mpr (Array.mem_of_getElem? he)⟩)

variable [IsStrictOrderedRing K]

/-- No other seed has the norm of a zero seed. -/
theorem entry_of_maxAbs {b : Block K} (hb : maxAbs b = 0) (i k : Nat) : b.entry i k = 0 := by
  cases he : b.get? i k with
  | none => rw [Block.entry, he, Option.getD_none]
  | some e =>
    rw [Block.entry, he, Option.getD_some]
    exact abs_nonpos_iff.mp (hb ▸ abs_le_maxAbs he)

theorem step_pos {step : K} (hstep : 0 < step) (x : Block K) : 0 < step * (1 + maxAbs x) :=
  mul_pos hstep (add_pos_of_pos_of_nonneg one_pos (maxAbs_nonneg x))

end Order

end Differences

/-! ### Evaluations over exact numbers -/

namespace Effect

variable [Field K] [Number K] [ExactField K] {E : Effect K} {s : Signature K} {d : Definition K} {x v w y : Block K}

theorem passes_exact (s : Signature K) (y : Block K) : passes s y = true := by
  rw [passes, Bool.or_eq_true]
  exact .inr (Block.all_eq_true_iff.mpr fun _ _ e _ => ExactField.finite e)

/-- All values pass the check. -/
theorem checking_exact (s : Signature K) (E : Effect K) : E.checking s = E := by
  have hfilter (o : Option (Block K)) : o.filter (passes s) = o := by cases o <;> simp [passes_exact]
  simp only [checking, hfilter]

omit [Field K] [ExactField K] in
theorem Quiet.forward_skipping (h : E.Quiet s) (hx : x.sizes = s.inputSizes) (hv : v.sizes = s.inputSizes)
    (hy : E.forward x v = some y) : (E.skipping s).forward x v = some y := by
  by_cases hzero : zeroSeed v
  · rw [skipping]
    split
    · exact (if_pos hzero).trans (congrArg some (h.forward x v y hx hv hzero hy).symm)
    · exact hy
  · rw [(skipping_of_not_zeroSeed x hzero).2.1, hy]

omit [Field K] [ExactField K] in
theorem Quiet.adjoint_skipping (h : E.Quiet s) (hx : x.sizes = s.inputSizes) (hw : w.sizes = s.outputSizes)
    (hy : E.adjoint x w = some y) : (E.skipping s).adjoint x w = some y := by
  by_cases hzero : zeroSeed w
  · rw [skipping]
    split
    · exact (if_pos hzero).trans (congrArg some (h.adjoint x w y hx hw hzero hy).symm)
    · exact hy
  · rw [(skipping_of_not_zeroSeed x hzero).2.2, hy]

/-- Buffers with all that `E` tells of those before are what an evaluation leaves, skipped seeds included. -/
theorem Decides.exists_run (h : E.Decides d d.dispatch) (hq : E.Quiet d.sig) {m : Machine K} {low high : Nat × Nat}
    {f a : Nat} (hm : m.Fits d low high) (hf : f ≤ m.frame.buffers.forward) (ha : a ≤ m.frame.buffers.adjoint)
    (hhas : E.Has f a m.frame.buffers) : ∃ r n, (d.evaluate f a).run m = (.ok r, n) ∧
      E.Gives f a m.frame.buffers n.frame.buffers ∧ m.frame.buffers.Undisturbed n.frame.buffers := by
  have hshaped := hm.frame.shaped
  have hforward {k : Nat} (hk : k < f) := hq.forward_skipping hshaped.input
    (Buffers.sizes_getD hshaped.forwardSeed (Nat.lt_of_lt_of_le hk hf)) (Option.some_get (hhas.forward k hk)).symm
  have hadjoint {k : Nat} (hk : k < a) := hq.adjoint_skipping hshaped.input
    (Buffers.sizes_getD hshaped.adjointSeed (Nat.lt_of_lt_of_le hk ha)) (Option.some_get (hhas.adjoint k hk)).symm
  have hdecides := h.evaluate
  rw [checking_exact] at hdecides
  obtain ⟨r, n, hrun, hn⟩ := (hdecides low high f a m hm hf ha).exists_ok
    ⟨by rw [value_skipping]; exact hhas.value, fun k hk => Option.isSome_of_eq_some (hforward hk),
      fun k hk => Option.isSome_of_eq_some (hadjoint hk)⟩
  refine ⟨r, n, hrun, ⟨(value_skipping _).symm.trans hn.gives.value, fun k hk => ?_, fun k hk => ?_⟩, hn.undisturbed⟩
  · rw [← hn.gives.forward k hk, hforward hk, Option.some_get]
  · rw [← hn.gives.adjoint k hk, hadjoint hk, Option.some_get]

end Effect

/-! ### Polynomial outputs -/

/-- Outputs that are polynomials in the entries of the inputs. -/
abbrev Polynomials (K : Type) [CommSemiring K] : Type := Block (MvPolynomial (Nat × Nat) K)

namespace Polynomials

variable [CommRing K] (P : Polynomials K) (x : Block K)

noncomputable def values : Block K := P.map (·.map (eval x.point))

/-- The Jacobian at `x` times `v`. -/
noncomputable def forward (v : Block K) : Block K := P.map (·.map fun p => (x.slopes p).dot v)

/-- A column of the Jacobian at `x`. -/
noncomputable def column (i k : Nat) : Block K := P.map (·.map fun p => eval x.point (pderiv (i,k) p))

/-- The transposed Jacobian at `x` times `w`. -/
noncomputable def adjoint (w : Block K) : Block K := x.mapIdx fun i v => v.mapIdx fun k _ => w.dot (P.column x i k)

variable {P x}

theorem sizes_map {U : Type} (F : MvPolynomial (Nat × Nat) K → U) :
    Block.sizes (Array.map (·.map F) P) = P.sizes := by
  simp [Block.sizes, Function.comp_def]

theorem entry_map (F : MvPolynomial (Nat × Nat) K → K) (i k : Nat) :
    Block.entry (Array.map (·.map F) P) i k = (P.get? i k).elim 0 F := by
  rw [Block.entry, Block.get?, Block.get?, Array.getElem?_map]
  cases P[i]? with
  | none => rfl
  | some ps =>
    rw [Option.map_some, Option.bind_some, Option.bind_some, Array.getElem?_map]
    cases ps[k]? <;> rfl

end Polynomials

/-- The outputs of the callable are polynomials of degree two at most. -/
structure Callable.Quadratic [CommRing K] (c : Callable K) (P : Polynomials K) : Prop where
  sizes : P.sizes = c.outputs.map Pattern.nnz
  degree : ∀ ps ∈ P, ∀ p ∈ ps, p.totalDegree ≤ 2
  evaluate : ∀ x : Block K, x.sizes = c.inputs.map Pattern.nnz → c.evaluate x = .ok (P.values x)

namespace Callable.Quadratic

section Ring

variable [CommRing K] {c : Callable K} {P : Polynomials K}

theorem complete (h : c.Quadratic P) : c.Complete := by
  intro x y hx hy
  obtain rfl := Except.ok.inj ((h.evaluate x hx).symm.trans hy)
  exact (Polynomials.sizes_map _).trans h.sizes

theorem answer (h : c.Quadratic P) {x : Block K} (hx : x.sizes = c.inputs.map Pattern.nnz) :
    c.answer x = some (P.values x) := by
  rw [Callable.answer, h.evaluate x hx]
  rfl

end Ring

variable [Field K] [LinearOrder K] [IsStrictOrderedRing K] [Number K] [ExactOrder K] {c : Callable K} {P : Polynomials K}
  {x v w : Block K} {step : K}

open Differences

/-- The step cancels from the quotients along a seed. -/
theorem along_eq (h : c.Quadratic P) (hstep : 0 < step) (hx : x.sizes = c.inputs.map Pattern.nnz)
    (hv : v.sizes = x.sizes) : along c.answer step (c.outputs.map Pattern.nnz) x v = some (P.forward x v) := by
  rw [along]
  dsimp only
  split
  · next hnorm =>
    have hzero := entry_of_maxAbs ((Number.isZero_iff _).mp hnorm)
    have hsizes : (P.forward x v).sizes = c.outputs.map Pattern.nnz := (Polynomials.sizes_map _).trans h.sizes
    rw [← hsizes, ← Block.clear_eq, Tape.clear_eq_of_zero rfl fun i k => ?_]
    rw [Polynomials.forward, Polynomials.entry_map]
    cases P.get? i k with
    | none => rfl
    | some p =>
      rw [Option.elim_some, Block.dot_comm ((x.sizes_slopes p).trans hv.symm), Block.dot_zero hzero]
  · next hnorm =>
    have hpos : step * (1 + maxAbs x) / maxAbs v ≠ 0 :=
      div_ne_zero (step_pos hstep x).ne' (mt (Number.isZero_iff _).mpr hnorm)
    have hpoint (t : K) : c.answer (perturb x v t) = some (P.values (perturb x v t)) :=
      h.answer ((sizes_zipBlocks _ rfl hv).trans hx)
    simp only [Number.mul_eq, Number.add_eq, Number.div_eq, Number.one_eq, Number.neg_eq, hpoint]
    generalize step * (1 + maxAbs x) / maxAbs v = t at hpos
    refine congrArg some ((zipBlocks_map _ _ _ _).trans
      (Array.map_congr_left fun ps hps => Array.map_congr_left fun p hp => ?_))
    have hdifference := (Slope.dot hv).difference t (h.degree ps hps p hp)
    rw [point_perturb hv, point_perturb hv, Differences.quotient, Number.sub_eq, hdifference, Number.mul_eq, Number.two_eq,
      Number.div_eq, mul_div_cancel_left₀ _ (mul_ne_zero two_ne_zero hpos)]

/-- It cancels from a column too. -/
theorem column_eq (h : c.Quadratic P) {t : K} (ht : t ≠ 0) (hx : x.sizes = c.inputs.map Pattern.nnz)
    (hw : w.sizes = c.outputs.map Pattern.nnz) {i k : Nat} {e : K} (he : x.get? i k = some e) :
    Differences.column c.answer t x w i k e = some (w.dot (P.column x i k)) := by
  have hpoint (e : K) : c.answer (x.set i k e) = some (P.values (x.set i k e)) :=
    h.answer ((Block.sizes_set _ _ _ _).trans hx)
  have hsizes (x : Block K) : (P.values x).sizes = w.sizes := (Polynomials.sizes_map _).trans (h.sizes.trans hw.symm)
  rw [Differences.column, Number.add_eq, Number.sub_eq, hpoint, hpoint]
  refine congrArg some (contract_eq_dot (mul_ne_zero two_ne_zero ht) (hsizes _) (hsizes _) fun j l => ?_)
  rw [Polynomials.values, Polynomials.values, Polynomials.column, Polynomials.entry_map, Polynomials.entry_map,
    Polynomials.entry_map]
  cases hp : P.get? j l with
  | none => simp
  | some p =>
    obtain ⟨ps, hps, hp⟩ := Option.bind_eq_some_iff.mp hp
    have hdifference := (Slope.pderiv x.point (i,k)).difference t
      (h.degree ps (Array.mem_of_getElem? hps) p (Array.mem_of_getElem? hp))
    rw [Option.elim_some, Option.elim_some, Option.elim_some, Block.point_set he, sub_eq_add_neg e, Block.point_set he,
      hdifference]

theorem against_eq (h : c.Quadratic P) (hstep : 0 < step) (hx : x.sizes = c.inputs.map Pattern.nnz)
    (hw : w.sizes = c.outputs.map Pattern.nnz) : against c.answer step x w = some (P.adjoint x w) := by
  have hcolumn {i k : Nat} {e : K} (he : x.get? i k = some e) :
      Differences.column c.answer (Number.mul step (Number.add Number.one (maxAbs x))) x w i k e =
        some (w.dot (P.column x i k)) := by
    refine h.column_eq ?_ hx hw he
    rw [Number.mul_eq, Number.add_eq, Number.one_eq]
    exact (step_pos hstep x).ne'
  have hsome : (against c.answer step x w).isSome := isSome_against_iff.mpr fun i k e he =>
    (isSome_column_iff w).mp (Option.isSome_of_eq_some (hcolumn he))
  obtain ⟨y, hy⟩ := Option.isSome_iff_exists.mp hsome
  have hvalue := getD_against hsome
  rw [hy, Option.getD_some] at hvalue
  rw [hy, hvalue, Polynomials.adjoint]
  refine congrArg some (Block.ext_of_get? ?_ fun i k => ?_)
  · rw [Block.sizes_mapIdx, Block.sizes_mapIdx]
  · rw [Block.get?_mapIdx, Block.get?_mapIdx]
    cases he : x.get? i k with
    | none => rfl
    | some e => rw [Option.map_some, Option.map_some, hcolumn he, Option.getD_some]

/-- An evaluation of a callable with quadratic outputs, at any inputs and with any seeds: every forward direction has the
product of the Jacobian there with its seed, every adjoint one that of the transposed Jacobian, the outputs are those at
the inputs, and inputs and seeds are what they were. -/
theorem evaluate_exact (h : c.Quadratic P) {o : Options K} (hstep : 0 < o.step) (uid : Nat) :
    ∃ d, (Definition.ofCallable c o).run uid = (.ok d, uid+1) ∧
      ∀ (m : Machine K) (f a : Nat), m.frame.buffers.Shaped d.sig.inputSizes d.sig.outputSizes →
        f ≤ m.frame.buffers.forward → a ≤ m.frame.buffers.adjoint →
        ∃ r n, (d.evaluate f a).run m = (.ok r, n) ∧
          let b := m.frame.buffers
          let b' := n.frame.buffers
          (∀ k < f, b'.forwardSens[k]? = b.forwardSeed[k]?.map (P.forward b.input)) ∧
          (∀ k < a, b'.adjointSens[k]? = b.adjointSeed[k]?.map (P.adjoint b.input)) ∧
          b'.output = P.values b.input ∧ b'.input = b.input ∧
          b'.forwardSeed = b.forwardSeed ∧ b'.adjointSeed = b.adjointSeed := by
  have hrun : (Definition.ofCallable c o).run uid = (.ok (.external ⟨uid, o, c.inputs, c.outputs⟩ c), uid+1) := by
    have hpositive : (Number.less Number.zero o.step && Number.finite o.step) = true := by
      rw [Bool.and_eq_true, ExactOrder.less_iff, Number.zero_eq]
      exact ⟨hstep, ExactField.finite _⟩
    rw [Definition.ofCallable, hpositive]
    rfl
  refine ⟨_, hrun, fun m f a hm hf ha => ?_⟩
  let sig : Signature K := ⟨uid, o, c.inputs, c.outputs⟩
  have hdecides := Evaluate.decides_byDifferences (d := .external sig c) (Evaluate.answers_callable rfl rfl h.complete)
  have hquiet : (Effect.ofBody sig c.answer).Quiet sig := Effect.quiet_ofBody fun x y hx hy => by
    obtain rfl := Option.some.inj ((h.answer hx).symm.trans hy)
    exact (Polynomials.sizes_map _).trans h.sizes
  have hfits : m.Fits (.external sig c) (0,0) m.frame.buffers.directions :=
    ⟨⟨hm, ⟨Nat.zero_le _, Nat.le_refl _⟩, Nat.zero_le _, Nat.le_refl _⟩, trivial⟩
  have hforward {k : Nat} (hk : k < f) := h.along_eq hstep hm.input
    ((Buffers.sizes_getD hm.forwardSeed (Nat.lt_of_lt_of_le hk hf)).trans hm.input.symm)
  have hadjoint {k : Nat} (hk : k < a) := h.against_eq hstep hm.input
    (Buffers.sizes_getD hm.adjointSeed (Nat.lt_of_lt_of_le hk ha))
  obtain ⟨r, n, hn, hgives, hleft⟩ := hdecides.exists_run hquiet hfits hf ha
    ⟨Option.isSome_of_eq_some (h.answer hm.input), fun k hk => Option.isSome_of_eq_some (hforward hk),
      fun k hk => Option.isSome_of_eq_some (hadjoint hk)⟩
  have hget {bs : Array (Block K)} {k : Nat} (hk : k < bs.size) := getElem?_eq_some_getD hk #[]
  refine ⟨r, n, hn, fun k hk => ?_, fun k hk => ?_, ?_, hleft.input, hleft.forwardSeed, hleft.adjointSeed⟩
  · have hseed : k < m.frame.buffers.forwardSeed.size := Nat.lt_of_lt_of_le hk hf
    rw [hget (hleft.forward.trans hm.forward ▸ hseed), hget hseed, ← hgives.forward k hk]
    exact hforward hk
  · have hseed : k < m.frame.buffers.adjointSeed.size := Nat.lt_of_lt_of_le hk ha
    rw [hget (hleft.adjoint.trans hm.adjoint ▸ hseed), hget hseed, ← hgives.adjoint k hk]
    exact hadjoint hk
  · exact (Option.some.inj ((h.answer hm.input).symm.trans hgives.value)).symm

end Callable.Quadratic

/-- The outputs of the product. -/
noncomputable def productPolynomials : Polynomials ℚ := #[#[X (0,0) * X (0,1)]]

theorem productCallable_quadratic : productCallable.Quadratic productPolynomials where
  sizes := by simp [productPolynomials, productCallable, Block.sizes, Pattern.scalar]
  degree := by
    simp only [productPolynomials, List.mem_toArray, List.mem_singleton, forall_eq]
    exact (totalDegree_mul _ _).trans (by simp)
  evaluate x _ := by simp [productCallable, productPolynomials, Polynomials.values, Block.point, Block.entry]

theorem forward_product (a b v w : ℚ) : productPolynomials.forward #[#[a, b]] #[#[v, w]] = #[#[b*v + a*w]] := by
  simp [productPolynomials, Polynomials.forward, Block.slopes, Block.dot, Block.point, Block.entry, Block.get?,
    Finset.sum_range_succ, pderiv_X]

theorem adjoint_product (a b w : ℚ) : productPolynomials.adjoint #[#[a, b]] #[#[w]] = #[#[w*b, w*a]] := by
  simp [productPolynomials, Polynomials.adjoint, Polynomials.column, Block.dot, Block.point, Block.entry, Block.get?,
    pderiv_X]

/-- Two forward directions, of which the second has a seed of zeros, and an adjoint one. -/
def productBuffers : Buffers ℚ where
  input := #[#[3, 4]]
  output := #[#[0]]
  forwardSeed := #[#[#[1, 2]], #[#[0, 0]]]
  forwardSens := #[#[#[6]], #[#[6]]]
  adjointSeed := #[#[#[5]]]
  adjointSens := #[#[#[7, 7]]]

/-- The sensitivities of a product. -/
theorem Callable.Quadratic.evaluate_exact_product :
    productCallable.Quadratic productPolynomials ∧ (0 : ℚ) < (Options.standard 1).step ∧
    productBuffers.Shaped #[2] #[1] ∧ ∃ d r n,
      (Definition.ofCallable productCallable (.standard 1)).run 0 = (.ok d, 1) ∧
      (d.evaluate 2 1).run (stateOf productBuffers) = (.ok r, n) ∧
      n.frame.buffers.forwardSens[0]? = some #[#[10]] ∧ n.frame.buffers.forwardSens[1]? = some #[#[0]] ∧
      n.frame.buffers.adjointSens[0]? = some #[#[20, 15]] ∧ n.frame.buffers.input = #[#[3, 4]] := by
  have hshaped : productBuffers.Shaped #[2] #[1] := by
    constructor <;> simp [productBuffers, Block.sizes]
  obtain ⟨d, hd, hexact⟩ := productCallable_quadratic.evaluate_exact (o := .standard 1) (by decide) 0
  have hsig : d.sig.inputSizes = #[2] ∧ d.sig.outputSizes = #[1] := by
    cases hd
    exact ⟨by cbv, by cbv⟩
  obtain ⟨r, n, hrun, hforward, hadjoint, -, hinput, -⟩ := hexact (stateOf productBuffers) 2 1
    (hsig.1 ▸ hsig.2 ▸ hshaped) (by decide) (by decide)
  refine ⟨productCallable_quadratic, by decide, hshaped, d, r, n, hd, hrun, ?_, ?_, ?_, hinput⟩
  · exact (hforward 0 (by decide)).trans (congrArg some ((forward_product 3 4 1 2).trans (by norm_num)))
  · exact (hforward 1 (by decide)).trans (congrArg some ((forward_product 3 4 0 0).trans (by norm_num)))
  · exact (hadjoint 0 (by decide)).trans (congrArg some ((adjoint_product 3 4 5).trans (by norm_num)))

end Fluxion
