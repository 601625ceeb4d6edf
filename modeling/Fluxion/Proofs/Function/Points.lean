import Fluxion.Proofs.Function.Seated
import Fluxion.Proofs.Function.Sparsity

/-!
Jacobian values at the points of a list. A point lists the first inputs, so where none lists fewer than the one
before, the points may be divided among copies of the instance in any way; a shorter point reads what is left of an
earlier one.
-/
set_option autoImplicit false

namespace Fluxion

open Run

variable {K α : Type}

/-! ### Collected outcomes -/

theorem toOption_mapM {β : Type} (g : β → Except Fault α) (xs : List β) :
    (xs.mapM g).toOption = xs.mapM fun x => (g x).toOption := by
  induction xs with
  | nil => rfl
  | cons x xs ih =>
    rw [List.mapM_cons, List.mapM_cons, ← ih]
    cases g x with
    | error e => rfl
    | ok y => cases xs.mapM g <;> rfl

theorem Collects.toOption_eq {outcomes : List (Except Fault α)} {r : Except Fault (List α)} (h : Collects outcomes r) :
    r.toOption = outcomes.mapM Except.toOption := by
  refine Eq.trans ?_ (toOption_mapM id outcomes)
  cases hs : outcomes.mapM id with
  | ok ys => rw [(hs ▸ collects_sequence outcomes : Collects outcomes (.ok ys)).ok_unique h]
  | error e =>
    cases r with
    | error e' => rfl
    | ok ys => cases h.ok_unique (hs ▸ collects_sequence outcomes : Collects outcomes (.error e))

namespace Run

variable {β : Type} {m : Machine K}

theorem Yields.toOption_eq {o : Option α} {act : Run K α} {Q : α → Machine K → Prop} (h : Yields o m act Q) :
    (act.run m).1.toOption = o :=
  Option.ext fun _ => toOption_eq_some.trans h.iff_ok.symm

/-- An action on a copy: what it does to the copy is of no matter. -/
theorem Yields.onCopy {o : Option α} {act : Run K α} {Q : α → Machine K → Prop} (h : Yields o m act Q) :
    Yields o m (Definition.onCopy act) fun _ n => n.frame = m.frame ∧ n.inner = m.inner := by
  have hrun : (Definition.onCopy act).run m = ((act.run m).1, {m with journal := (act.run m).2.journal}) := rfl
  rw [Yields, Hinges] at h ⊢
  rw [hrun]
  generalize act.run m = r at h ⊢
  obtain ⟨r, n⟩ := r
  cases r with
  | ok a => exact ⟨h.1, h.2.1, rfl, rfl⟩
  | error e => exact h

/-- A list of actions, where the invariant may speak of what is still to come. -/
theorem Yields.mapM {act : β → Run K α} {g : β → Option α} (I : List β → Machine K → Prop)
    (step : ∀ x rest m, I (x :: rest) m → Yields (g x) m (act x) fun _ n => I rest n) (xs : List β) {m : Machine K}
    (hm : I xs m) : Yields (xs.mapM g) m (xs.mapM act) fun _ n => I [] n := by
  induction xs generalizing m with
  | nil => exact .pure hm
  | cons x xs ih =>
    rw [List.mapM_cons, List.mapM_cons]
    exact (step x xs m hm).bind fun y n _ hn => (ih hn).bind fun ys n' _ hn' => .pure hn'

end Run

/-! ### Inputs -/

/-- The vectors of `x`, and those of `y` after them. -/
def Block.onto {T : Type} (x y : Block T) : Block T := x ++ y.extract x.size

theorem Block.getElem?_onto {T : Type} (x y : Block T) (i : Nat) : (x.onto y)[i]? = x[i]?.or y[i]? := by
  rw [onto, Array.getElem?_append]
  split
  · next hi => rw [Array.getElem?_eq_getElem hi, Option.some_or]
  · next hi =>
    rw [Array.getElem?_eq_none (Nat.le_of_not_lt hi), Option.none_or]
    simp only [Array.getElem?_extract]
    split
    · congr 1
      omega
    · exact (Array.getElem?_eq_none (by omega)).symm

/-- One vector after the other is set. -/
theorem Block.setIfInBounds_onto {K : Type} {x y : Block K} {k : Nat} {v : Array K} (hv : x[k]? = some v)
    (hk : k < y.size) : (Block.onto (Array.extract x 0 k) y).setIfInBounds k v = Block.onto (Array.extract x 0 (k+1)) y := by
  have hx := (Array.getElem?_eq_some_iff.mp hv).1
  have hsize : k < (Block.onto (Array.extract x 0 k) y).size := by
    simp [Block.onto]
    omega
  refine Array.ext_getElem? fun i => ?_
  rw [Array.getElem?_setIfInBounds, Block.getElem?_onto, Block.getElem?_onto, Array.getElem?_extract,
    Array.getElem?_extract]
  obtain hi | rfl | hi := Nat.lt_trichotomy i k
  · rw [if_neg (by omega), if_pos (by omega), if_pos (by omega)]
  · rw [if_pos rfl, if_pos hsize, if_pos (by omega), Nat.zero_add, hv, Option.some_or]
  · rw [if_neg (by omega), if_neg (by omega), if_neg (by omega)]

theorem Block.onto_of_size {T : Type} {x y : Block T} (h : y.size ≤ x.size) : x.onto y = x := by
  rw [onto, Array.extract_empty_of_size_le_start h, Array.append_empty]

namespace Signature

variable (sig : Signature K)

/-- The inputs `y` with those of the point in place of the first ones, where all are of the right length. -/
def written (x y : Block K) : Option (Block K) :=
  if x.sizes.toList <+: sig.inputSizes.toList then some (x.onto y) else none

variable {sig}

/-- A point that lists no fewer inputs than the one before hides it. -/
theorem written_written {x x' y z : Block K} (hz : sig.written x y = some z) (hsize : x.size ≤ x'.size) :
    sig.written x' z = sig.written x' y := by
  rw [written] at hz
  split at hz
  · cases hz
    have hrest : x'.onto (x.onto y) = x'.onto y := by
      refine Array.ext_getElem? fun i => ?_
      rw [Block.getElem?_onto, Block.getElem?_onto, Block.getElem?_onto]
      cases hi : x'[i]? with
      | some v => rfl
      | none => rw [Array.getElem?_eq_none (Nat.le_trans hsize (Array.getElem?_eq_none_iff.mp hi)), Option.none_or]
    rw [written, written, hrest]
  · cases hz

theorem hinges_setInput (i : Nat) (x : Array K) (m : Machine K) :
    Hinges (sig.inputSizes[i]? = some x.size) m (sig.setInput i x) fun _ n =>
      n = m.withBuffers {m.frame.buffers with input := m.frame.buffers.input.setIfInBounds i x} := by
  by_cases hx : sig.inputSizes[i]? = some x.size
  · exact .intro_ok (run_setInput hx m) hx rfl
  · obtain ⟨e, he⟩ := setInput_refuses hx m
    exact .intro_error he hx

theorem sizes_prefix_iff {x : Block K} : x.sizes.toList <+: sig.inputSizes.toList ↔
    ∀ (i : Nat) (v : Array K), x[i]? = some v → sig.inputSizes[i]? = some v.size := by
  rw [List.prefix_iff_getElem?]
  constructor
  · intro h i v hv
    obtain ⟨hi, rfl⟩ := Array.getElem?_eq_some_iff.mp hv
    simpa [Block.sizes] using h i (by simpa [Block.sizes] using hi)
  · intro h i hi
    have hx : i < x.size := by simpa [Block.sizes] using hi
    simpa [Block.sizes, hx] using h i x[i] (Array.getElem?_eq_getElem hx)

end Signature

variable [Number K] {d : Definition K} {m : Machine K}

omit [Number K] in
theorem Machine.Seated.run {act : Run K α} (hm : m.Seated d)
    (hsafe : Safe True (Machine.Fits d d.sig.options.initial d.sig.options.limits) act)
    (hroomy : Keeps Frame.Roomy act) : (act.run m).2.Seated d := ⟨(hsafe m hm.fits).1, hroomy m hm.room⟩

omit [Number K] in
theorem Machine.Seated.setInput (hm : m.Seated d) (i : Nat) (x : Array K) :
    ((d.sig.setInput i x).run m).2.Seated d := hm.run (.setInput i x) (Frame.roomy_setInput i x)

omit [Number K] in
/-- The inputs that a point lists are set, the others stay. -/
theorem Machine.Seated.hinges_setInputs (hm : m.Seated d) (x : Block K) :
    Hinges (d.sig.written x m.frame.buffers.input).isSome m (d.sig.setInputs x) fun _ n =>
      n.Seated d ∧ d.sig.written x m.frame.buffers.input = some n.frame.buffers.input := by
  let after (k : Nat) := Block.onto (Array.extract x 0 k) m.frame.buffers.input
  have hstep (k : Nat) (v : Array K) (n : Machine K) (hv : x[k]? = some v)
      (hn : n.Seated d ∧ n.frame.buffers.input = after k) :
      Hinges (d.sig.inputSizes[k]? = some v.size) n (d.sig.setInput k v) fun _ n' =>
        n'.Seated d ∧ n'.frame.buffers.input = after (k+1) := by
    refine ((Signature.hinges_setInput k v n).and_run (hn.1.setInput k v)).mono fun _ n' hlen hn' => ⟨hn'.2, ?_⟩
    have hk : k < n.frame.buffers.input.size := by
      obtain ⟨hk, -⟩ := Array.getElem?_eq_some_iff.mp (hn.1.fits.frame.shaped.input ▸ hlen)
      simpa [Block.sizes] using hk
    have hinput : m.frame.buffers.input.size = n.frame.buffers.input.size :=
      Block.size_eq (hm.fits.frame.shaped.input.trans hn.1.fits.frame.shaped.input.symm)
    rw [hn'.1]
    change n.frame.buffers.input.setIfInBounds k v = _
    rw [hn.2]
    exact Block.setIfInBounds_onto hv (hinput ▸ hk)
  have hloop := Hinges.forM_zipIdx x (f := fun e => d.sig.setInput e.2 e.1)
    (C := fun k (v : Array K) => d.sig.inputSizes[k]? = some v.size)
    (fun k n => n.Seated d ∧ n.frame.buffers.input = after k) hstep ⟨hm, by simp [after, Block.onto]⟩
  rw [Signature.written]
  refine Hinges.congr (hloop.mono fun _ n hlen hn => ?_) ?_
  · have hwhole : after x.size = Block.onto x m.frame.buffers.input := congrArg (Block.onto · _) Array.extract_size
    exact ⟨hn.1, (if_pos (Signature.sizes_prefix_iff.mpr hlen)).trans (congrArg some (hn.2.trans hwhole).symm)⟩
  · rw [← Signature.sizes_prefix_iff]
    split <;> simp [*]

/-! ### Points -/

namespace Definition

/-- Jacobian values at the point, after which the instance has its inputs. -/
def jacobianValuesAt (d : Definition K) (iind oind : Nat) (x : Block K) : Run K (Matrix K) := do
  d.sig.setInputs x
  d.jacobianValues iind oind false

/-- One point after the other on one instance. -/
def jacobianValuesInTurn (d : Definition K) (iind oind : Nat) (points : List (Block K)) : Run K (List (Matrix K)) :=
  points.mapM (d.jacobianValuesAt iind oind)

/-- The Jacobian block where the point is set over the inputs `y`. -/
def answerOver (d : Definition K) (iind oind : Nat) (y x : Block K) : Option (Matrix K) :=
  d.sig.written x y >>= d.jacobianAnswer iind oind false

/-- Without a coloring of the block no point has an answer. -/
theorem partition_answerOver (iind oind : Nat) (y : Block K) {points : List (Block K)} (hne : points ≠ []) :
    ((d.partition iind oind true false).toOption >>= fun _ => points.mapM (d.answerOver iind oind y)) =
      points.mapM (d.answerOver iind oind y) := by
  cases hside : d.partition iind oind true false with
  | ok side => rfl
  | error e =>
    obtain ⟨x, xs, rfl⟩ := List.exists_cons_of_ne_nil hne
    have hnone : d.answerOver iind oind y x = none := by
      rw [answerOver]
      cases d.sig.written x y with
      | none => rfl
      | some z =>
        change d.jacobianAnswer iind oind false z = none
        rw [jacobianAnswer, hside]
        cases (d.jacSparsity iind oind true false).toOption <;> rfl
    rw [List.mapM_cons, hnone]
    rfl

end Definition

/-- What an instance answers to the points of a list, one after the other, also after one has failed. -/
def Instance.pointOutcomes (i : Instance K) (iind oind : Nat) : List (Block K) → List (Except Fault (Matrix K))
  | [] => []
  | x :: xs =>
    let (r, next, _) := i.run (i.definition.jacobianValuesAt iind oind x)
    r :: next.pointOutcomes iind oind xs

namespace Effect.Decides

variable {iind oind : Nat}

variable (iind oind) in
theorem yields_jacobianValuesAt (h : d.effect.Decides d d.evaluate) (hm : m.Seated d) (x : Block K) :
    Yields (d.answerOver iind oind m.frame.buffers.input x) m (d.jacobianValuesAt iind oind x) fun _ n =>
      n.Seated d ∧ d.sig.written x m.frame.buffers.input = some n.frame.buffers.input := by
  have hset := hm.hinges_setInputs x
  rw [Definition.answerOver]
  cases hy : d.sig.written x m.frame.buffers.input with
  | none =>
    rw [hy] at hset
    exact Yields.next (u := none) hset fun _ n hn => by cases hn.2
  | some y =>
    rw [hy] at hset
    refine Yields.next hset fun _ n hn => ?_
    obtain ⟨hseated, hinput⟩ := hn
    cases hinput
    exact (h.yields_jacobianValues hseated iind oind false).mono fun _ n' _ hn' => ⟨hn'.1, by rw [hn'.2]⟩

end Effect.Decides

/-- A machine to which the points are what they are over the inputs `y`: none of them lists fewer inputs than the one
before. -/
structure Machine.Awaits (d : Definition K) (y : Block K) (points : List (Block K)) (m : Machine K) : Prop where
  seated : m.Seated d
  sorted : points.Pairwise fun x x' => x.size ≤ x'.size
  alike : ∀ x ∈ points, d.sig.written x m.frame.buffers.input = d.sig.written x y

namespace Effect.Decides

variable {iind oind : Nat} {y : Block K} {points : List (Block K)}

variable (iind oind) in
theorem yields_next (h : d.effect.Decides d d.evaluate) {x : Block K} (hm : m.Awaits d y (x :: points)) :
    Yields (d.answerOver iind oind y x) m (d.jacobianValuesAt iind oind x) fun _ n => n.Awaits d y points := by
  obtain ⟨hseated, hsorted, hover⟩ := hm
  obtain ⟨hfirst, hsorted⟩ := List.pairwise_cons.mp hsorted
  obtain ⟨hx, hover⟩ := List.forall_mem_cons.mp hover
  have hanswer : d.answerOver iind oind m.frame.buffers.input x = d.answerOver iind oind y x := by
    rw [Definition.answerOver, hx, Definition.answerOver]
  refine ((h.yields_jacobianValuesAt iind oind hseated x).congr hanswer).mono fun _ n _ hn => ⟨hn.1, hsorted, fun x' hx' => ?_⟩
  exact (Signature.written_written hn.2 (hfirst x' hx')).trans (hover x' hx')

variable (iind oind) in
theorem yields_inTurn (h : d.effect.Decides d d.evaluate) (hm : m.Awaits d y points) :
    Yields (points.mapM (d.answerOver iind oind y)) m (d.jacobianValuesInTurn iind oind points) fun _ _ => True :=
  (Yields.mapM (Machine.Awaits d y) (fun _ _ _ hm => h.yields_next iind oind hm) points hm).mono fun _ _ _ _ => trivial

/-- On a copy each point is over the inputs of the instance. -/
theorem yields_onCopies (h : d.effect.Decides d d.evaluate) (hm : m.Seated d) (hne : points ≠ []) :
    Yields (points.mapM (d.answerOver iind oind m.frame.buffers.input)) m
      (d.jacobianValuesOnCopies iind oind points) fun _ _ => True := by
  have hpoints : Yields (points.mapM (d.answerOver iind oind m.frame.buffers.input)) m
      (points.mapM fun x => Definition.onCopy (d.jacobianValuesAt iind oind x)) _ := Yields.mapM
    (fun _ n => n.frame = m.frame ∧ n.inner = m.inner) (fun x _ n hn => by
      have hseated : n.Seated d := ⟨⟨hn.1 ▸ hm.fits.frame, hn.2 ▸ hm.fits.inner⟩, hn.1 ▸ hm.room⟩
      have hcopy := (h.yields_jacobianValuesAt iind oind hseated x).onCopy
      rw [hn.1] at hcopy
      exact hcopy.mono fun _ n' _ hn' => ⟨hn'.1, hn'.2.trans hn.2⟩) points ⟨rfl, rfl⟩
  refine Yields.congr ((Yields.lift (d.partition iind oind true false)).bind
    (k := fun _ => points.mapM (d.answerOver iind oind m.frame.buffers.input)) fun side n _ hn => ?_)
    (d.partition_answerOver iind oind _ hne)
  rw [hn]
  exact hpoints.mono fun _ _ _ _ => trivial

end Effect.Decides

namespace Instance

variable {i : Instance K} {iind oind : Nat} {y : Block K}

theorem toOption_pointOutcomes (h : d.effect.Decides d d.evaluate) (hdef : i.definition = d) {points : List (Block K)}
    (hi : i.machine.Awaits d y points) :
    (i.pointOutcomes iind oind points).mapM Except.toOption = points.mapM (d.answerOver iind oind y) := by
  subst hdef
  induction points generalizing i with
  | nil => rfl
  | cons x points ih =>
    have hnext := h.yields_next iind oind hi
    rw [pointOutcomes, List.mapM_cons, List.mapM_cons, ← hnext.toOption_eq]
    have hfirst : (i.run (i.definition.jacobianValuesAt iind oind x)).1 =
      ((i.definition.jacobianValuesAt iind oind x).run i.machine).1 := rfl
    rw [hfirst]
    cases hrun : ((i.definition.jacobianValuesAt iind oind x).run i.machine).1 with
    | error e => rfl
    | ok J =>
      obtain ⟨-, ⟨hfits, hroom⟩, hsorted, hover⟩ := hnext.of_ok (Prod.ext hrun rfl)
      rw [ih (i := (i.run (i.definition.jacobianValuesAt iind oind x)).2.1) h
        ⟨⟨⟨hfits.frame, hfits.inner⟩, hroom⟩, hsorted, hover⟩]
      rfl

variable (iind oind) in
/-- However the points are divided among copies of the instance. -/
theorem toOption_flatMap (h : d.effect.Decides d d.evaluate) (hdef : i.definition = d) {parts : List (List (Block K))}
    (hi : i.machine.Awaits d y parts.flatten) :
    (parts.flatMap (i.pointOutcomes iind oind)).mapM Except.toOption = parts.flatten.mapM (d.answerOver iind oind y) := by
  induction parts with
  | nil => rfl
  | cons points parts ih =>
    obtain ⟨hseated, hsorted, hover⟩ := hi
    obtain ⟨hfirst, hrest, -⟩ := List.pairwise_append.mp hsorted
    obtain ⟨hover, hovers⟩ := List.forall_mem_append.mp hover
    rw [List.flatMap_cons, List.flatten_cons, List.mapM_append, List.mapM_append, ih ⟨hseated, hrest, hovers⟩,
      toOption_pointOutcomes h hdef ⟨hseated, hfirst, hover⟩]

end Instance

/-- Where no point lists fewer inputs than the one before, Jacobian values at the points, in turn on one instance, are
those that each point has on an instance as it was at first. So they are collected exactly then, whether every point
has a copy of its own or the points are divided among copies in any way. -/
theorem Made.jacobianValues_divided {n : Nat} (h : Made Callable.Complete n d) {i : Instance K} (hi : i.Reached d)
    (iind oind : Nat) {points : List (Block K)} (hne : points ≠ [])
    (hsorted : points.Pairwise fun x x' => x.size ≤ x'.size) (Js : List (Matrix K)) :
    ((points.mapM fun x => (i.run (d.jacobianValuesAt iind oind x)).1) = .ok Js ↔
      (i.run (d.jacobianValuesInTurn iind oind points)).1 = .ok Js) ∧
    ((i.run (d.jacobianValuesOnCopies iind oind points)).1 = .ok Js ↔
      (i.run (d.jacobianValuesInTurn iind oind points)).1 = .ok Js) ∧
    ∀ parts : List (List (Block K)), parts.flatten = points → ∀ r, Collects (parts.flatMap (i.pointOutcomes iind oind)) r →
      ((do let _ ← d.partition iind oind true false; r) = .ok Js ↔
        (i.run (d.jacobianValuesInTurn iind oind points)).1 = .ok Js) := by
  have hdecides := h.decides hi.room
  obtain ⟨hdef, hseated⟩ := (h.sturdy hi.room (.inl trivial)).seated hi
  have hawaits : i.machine.Awaits d i.frame.buffers.input points := ⟨hseated, hsorted, fun _ _ => rfl⟩
  have hturn := hdecides.yields_inTurn iind oind hawaits
  refine ⟨?_, ?_, ?_⟩
  · refine Iff.trans ?_ hturn.iff_ok
    have hpoint (x : Block K) : (i.run (d.jacobianValuesAt iind oind x)).1.toOption =
        d.answerOver iind oind i.frame.buffers.input x := (hdecides.yields_jacobianValuesAt iind oind hseated x).toOption_eq
    rw [← toOption_eq_some, toOption_mapM, funext hpoint]
  · exact (hdecides.yields_onCopies hseated hne).iff_ok.symm.trans hturn.iff_ok
  · rintro parts rfl r hr
    have hr' := hr.toOption_eq.trans (Instance.toOption_flatMap iind oind hdecides hdef hawaits)
    have hpartition := d.partition_answerOver iind oind i.frame.buffers.input hne
    refine Iff.trans (toOption_eq_some.symm.trans ?_) hturn.iff_ok
    rw [← hpartition, ← hr']
    cases d.partition iind oind true false <;> exact Iff.rfl

def areaInputs : Array (Matrix (Expr ℚ)) := #[.column #[.symbol ⟨0,"x"⟩], .column #[.symbol ⟨1,"y"⟩]]

def areaOutputs : Array (Matrix (Expr ℚ)) :=
  #[.column #[.binary 2 .mul (.symbol ⟨0,"x"⟩) (.symbol ⟨1,"y"⟩)]]

/-- The area of a rectangle, from its two sides. -/
def area : Definition ℚ :=
  ((Definition.ofExpressions areaInputs areaOutputs (.standard 1)).run 3).1.toOption.get (by cbv)

theorem area_made : Made Callable.Complete 4 area := by
  have hrun : (Definition.ofExpressions areaInputs areaOutputs (.standard 1)).run 3 = (.ok area, 4) := by cbv
  have hproduct := ((Expr.Built.nil (K := ℚ) 0).symbol "x" |>.symbol "y" |>.apply
    (show Op.mul.isStructural = false from rfl) (a := .symbol ⟨0,"x"⟩) (b := .symbol ⟨1,"y"⟩) (.tail _ (.head _))
    (.head _)).numbered
  have hroots : ∀ e ∈ Matrix.entries areaInputs ++ Matrix.entries areaOutputs, Expr.ReachedFrom
      [.binary 2 .mul (.symbol ⟨0,"x"⟩) (.symbol ⟨1,"y"⟩), .symbol ⟨1,"y"⟩, .symbol ⟨0,"x"⟩] e := fun e he =>
    .root (by
      simp [Matrix.entries, areaInputs, areaOutputs, Matrix.column] at he ⊢
      tauto)
  refine .expressions (hproduct.of_reached hroots) ?_ ?_ hrun
  · simp [areaInputs, Matrix.sized_column]
  · simp [areaOutputs, Matrix.sized_column]

/-- The rectangle of the sides 1 and 4. -/
def areaHistory : List (Step ℚ) := [.call #[#[1], #[4]]]

/-- The first point lists one side and is over the other one that the instance has. -/
theorem Made.jacobianValues_divided_area :
    Made Callable.Complete 4 area ∧ ((Instance.of area).through areaHistory).Reached area ∧
    (((Instance.of area).through areaHistory).run
      (area.jacobianValuesInTurn 0 0 [#[#[2]], #[#[5], #[7]], #[#[6], #[8]]])).1 =
        .ok [.scalar 4, .scalar 7, .scalar 8] ∧
    (((Instance.of area).through areaHistory).run
      (area.jacobianValuesOnCopies 0 0 [#[#[2]], #[#[5], #[7]], #[#[6], #[8]]])).1 =
        .ok [.scalar 4, .scalar 7, .scalar 8] := by
  have hof : Instance.of? area = .ok (Instance.of area) := by cbv
  have hreached : ((Instance.of area).through areaHistory).Reached area := ⟨_, _, hof, rfl⟩
  have hturn : (((Instance.of area).through areaHistory).run
      (area.jacobianValuesInTurn 0 0 [#[#[2]], #[#[5], #[7]], #[#[6], #[8]]])).1 =
        .ok [.scalar 4, .scalar 7, .scalar 8] := by cbv
  obtain ⟨-, hcopies, -⟩ := jacobianValues_divided area_made hreached 0 0
    (show [#[#[2]], #[#[5], #[7]], #[#[6], #[8]]] ≠ [] by simp) (by simp) [.scalar 4, .scalar 7, .scalar 8]
  exact ⟨area_made, hreached, hturn, hcopies.mpr hturn⟩

/-- In turn a point that lists fewer inputs than the one before is over those that are left of it, on a copy over those of
the instance. -/
theorem Made.jacobianValues_not_divided :
    Made Callable.Complete 4 area ∧ (Instance.of area).Reached area ∧
    ((Instance.of area).run (area.jacobianValuesInTurn 0 0 [#[#[2], #[3]], #[#[5]]])).1 =
      .ok [.scalar 3, .scalar 3] ∧
    ((Instance.of area).run (area.jacobianValuesOnCopies 0 0 [#[#[2], #[3]], #[#[5]]])).1 =
      .ok [.scalar 3, .scalar 0] ∧
    [[#[#[2], #[3]]], [#[#[5]]]].flatMap ((Instance.of area).pointOutcomes 0 0) = [.ok (.scalar 3), .ok (.scalar 0)] := by
  have hof : Instance.of? area = .ok (Instance.of area) := by cbv
  exact ⟨area_made, ⟨_, [], hof, rfl⟩, by cbv, by cbv, by cbv⟩

end Fluxion
