import Fluxion.Proofs.Function.Points

/-!
Derivatives one seed at a time. A numeric derivative answers what evaluations of its parent with a single seed tell,
however many directions the parent may have at once.
-/
set_option autoImplicit false

namespace Fluxion

open Run

variable {K : Type}

/-! ### One direction on a side -/

/-- How many directions there are with one on this side. -/
def Direction.single : Direction → Nat × Nat
  | forward => (1,0)
  | reverse => (0,1)

/-- The directions on a side. -/
def Direction.select {T : Type} (side : Direction) (n : T × T) : T :=
  match side with
  | forward => n.1
  | reverse => n.2

namespace Buffers

variable (b : Buffers K)

/-- Seeds on a side. -/
def seeds (side : Direction) : Array (Block K) := side.select (b.forwardSeed, b.adjointSeed)

/-- Sensitivities on a side. -/
def sens (side : Direction) : Array (Block K) := side.select (b.forwardSens, b.adjointSens)

end Buffers

/-- Sensitivities on a side for one seed. -/
def Effect.sens (E : Effect K) (side : Direction) : Block K → Block K → Option (Block K) := side.select (E.forward, E.adjoint)

namespace Signature

variable (sig : Signature K)

/-- Sizes of a seed on a side. -/
def seedSizes (side : Direction) : Array Nat := side.select (sig.inputSizes, sig.outputSizes)

/-- Sets a vector of the seed of the first direction. -/
def setSeed (side : Direction) (i : Nat) (v : Array K) : Run K Unit :=
  match side with
  | .forward => sig.setForwardSeed 0 i v
  | .reverse => sig.setAdjointSeed 0 i v

end Signature

namespace Definition

variable [Number K]

/-- Sensitivities for one seed, from an evaluation with this seed only. -/
def sensitivities (d : Definition K) (side : Direction) (x seed : Block K) : Run K (Block K) := do
  let _ ← d.sig.requestDirections side.single.1 side.single.2
  d.sig.setInputs x
  seed.zipIdx.toList.forM fun (v, i) => d.sig.setSeed side i v
  let _ ← d.evaluate side.single.1 side.single.2
  return ((← Run.buffers).sens side).getD 0 #[]

/-- The outputs, and the sensitivities for `f` forward and `a` adjoint seeds, from one evaluation for each of them. The
seeds follow the inputs. -/
def oneByOne (d : Definition K) (f a : Nat) (x : Block K) : Run K (Block K) := do
  let ins := d.sig.inputs.size
  let point := x.extract 0 ins
  let y ← d.call point
  let forwards ← (List.range f).mapM fun i => d.sensitivities .forward point (piece x ins ins i)
  let adjoints ← (List.range a).mapM fun i => d.sensitivities .reverse point (piece x (ins + f*ins) d.sig.outputs.size i)
  return y ++ forwards.toArray.flatten ++ adjoints.toArray.flatten

end Definition

namespace Signature

variable {sig : Signature K} {m : Machine K} {i : Nat} {v : Array K}

theorem run_setForwardSeed {k : Nat} (hk : k < m.frame.buffers.forward) (hv : sig.inputSizes[i]? = some v.size) :
    (sig.setForwardSeed k i v).run m = (.ok (), m.withBuffers {m.frame.buffers with
      forwardSeed := m.frame.buffers.forwardSeed.modify k (·.setIfInBounds i v)}) := by
  rw [inputSizes, Array.getElem?_map, Option.map_eq_some_iff] at hv
  obtain ⟨p, hp, hnnz⟩ := hv
  have hcheck : (sig.checkForward k).run m = (.ok (), m) := by
    rw [checkForward, run_bind_ok (run_buffers m), if_neg (Nat.not_le.mpr hk)]
    rfl
  have hinput : sig.checkInput i = .ok p := by
    rw [checkInput, hp]
    rfl
  have hlength : sig.checkLength .forwardSeed i p.nnz v.size = .ok () := by
    rw [checkLength, if_pos hnnz]
    rfl
  rw [setForwardSeed, run_bind_ok hcheck, hinput, run_bind_ok (run_liftExcept _), hlength,
    run_bind_ok (run_liftExcept _)]
  exact run_modifyBuffers _ m

theorem run_setAdjointSeed {k : Nat} (hk : k < m.frame.buffers.adjoint) (hv : sig.outputSizes[i]? = some v.size) :
    (sig.setAdjointSeed k i v).run m = (.ok (), m.withBuffers {m.frame.buffers with
      adjointSeed := m.frame.buffers.adjointSeed.modify k (·.setIfInBounds i v)}) := by
  rw [outputSizes, Array.getElem?_map, Option.map_eq_some_iff] at hv
  obtain ⟨p, hp, hnnz⟩ := hv
  have hcheck : (sig.checkAdjoint k).run m = (.ok (), m) := by
    rw [checkAdjoint, run_bind_ok (run_buffers m), if_neg (Nat.not_le.mpr hk)]
    rfl
  have houtput : sig.checkOutput i = .ok p := by
    rw [checkOutput, hp]
    rfl
  have hlength : sig.checkLength .adjointSeed i p.nnz v.size = .ok () := by
    rw [checkLength, if_pos hnnz]
    rfl
  rw [setAdjointSeed, run_bind_ok hcheck, houtput, run_bind_ok (run_liftExcept _), hlength,
    run_bind_ok (run_liftExcept _)]
  exact run_modifyBuffers _ m

end Signature

variable [Number K] {d p : Definition K} {m : Machine K} {x seed : Block K}

/-- A machine at the inputs `x` with a direction on the side whose seed is `s`. -/
structure Machine.Aimed (d : Definition K) (side : Direction) (x s : Block K) (m : Machine K) : Prop where
  seated : m.Seated d
  input : m.frame.buffers.input = x
  count : 1 ≤ side.select m.frame.buffers.directions
  seed : (m.frame.buffers.seeds side).getD 0 #[] = s

theorem getD_modify_first {T : Type} {xs : Array (Array T)} (h : 0 < xs.size) (f : Array T → Array T) :
    (xs.modify 0 f).getD 0 #[] = f (xs.getD 0 #[]) := by
  simp [Array.getD_eq_getD_getElem?, Array.getElem_modify, h]

namespace Machine.Aimed

omit [Number K] in
/-- A vector of the seed is set, nothing else changes. -/
theorem setSeed {side : Direction} {s : Block K} (hm : m.Aimed d side x s) {i : Nat} {v : Array K}
    (hv : (d.sig.seedSizes side)[i]? = some v.size) :
    Hinges True m (d.sig.setSeed side i v) fun _ n => n.Aimed d side x (s.setIfInBounds i v) := by
  obtain ⟨hseated, hinput, hcount, hseed⟩ := hm
  cases side with
  | forward =>
    have hrun := Signature.run_setForwardSeed (m := m) (k := 0) hcount hv
    have hseated' := hseated.run (.setForwardSeed 0 i v) (Frame.roomy_setForwardSeed 0 i v)
    rw [hrun] at hseated'
    refine .intro_ok hrun trivial ⟨hseated', hinput, ?_, ?_⟩
    · simpa [Direction.select, Buffers.directions, Buffers.forward, Buffers.adjoint] using hcount
    · exact (getD_modify_first hcount (Array.setIfInBounds · i v)).trans (congrArg (Array.setIfInBounds · i v) hseed)
  | reverse =>
    have hrun := Signature.run_setAdjointSeed (m := m) (k := 0) hcount hv
    have hseated' := hseated.run (.setAdjointSeed 0 i v) (Frame.roomy_setAdjointSeed 0 i v)
    rw [hrun] at hseated'
    refine .intro_ok hrun trivial ⟨hseated', hinput, ?_, ?_⟩
    · simpa [Direction.select, Buffers.directions, Buffers.forward, Buffers.adjoint] using hcount
    · exact (getD_modify_first hcount (Array.setIfInBounds · i v)).trans (congrArg (Array.setIfInBounds · i v) hseed)

omit [Number K] in
/-- All vectors of a seed are set. -/
theorem setSeeds {side : Direction} {s : Block K} (hm : m.Aimed d side x s) (hs : s.size = seed.size)
    (hseed : seed.sizes = d.sig.seedSizes side) :
    Hinges True m (seed.zipIdx.toList.forM fun (v, i) => d.sig.setSeed side i v) fun _ n => n.Aimed d side x seed := by
  have hloop := Hinges.forM_zipIdx (m := m) seed (f := fun e => d.sig.setSeed side e.2 e.1) (C := fun _ _ => True)
    (fun k n => n.Aimed d side x (Block.onto (Array.extract seed 0 k) s))
    (fun k v n hv hn => by
      have hk : k < s.size := hs ▸ (Array.getElem?_eq_some_iff.mp hv).1
      rw [← Block.setIfInBounds_onto hv hk]
      exact hn.setSeed (by rw [← hseed, Block.sizes, Array.getElem?_map, hv]; rfl))
    (by simpa [Block.onto] using hm)
  refine (hloop.congr (by simp)).mono fun _ n _ hn => ?_
  rwa [Array.extract_size, Block.onto_of_size (Nat.le_of_eq hs)] at hn

omit [Number K] in
theorem sizes {side : Direction} {s : Block K} (hm : m.Aimed d side x s) : s.sizes = d.sig.seedSizes side := by
  have hcount := hm.count
  have hshaped := hm.seated.fits.frame.shaped
  have hfirst {bs : Array (Block K)} (hbs : 0 < bs.size) : bs.getD 0 #[] ∈ bs := by
    rw [Array.getD_eq_getD_getElem?, Array.getElem?_eq_getElem hbs]
    exact Array.getElem_mem hbs
  rw [← hm.seed]
  cases side with
  | forward => exact hshaped.forwardSeed _ (hfirst hcount)
  | reverse => exact hshaped.adjointSeed _ (hfirst hcount)

omit [Number K] in
/-- Whether an evaluation with this seed only returns. -/
theorem has_iff {E : Effect K} {side : Direction} {s : Block K} (hm : m.Aimed d side x s) :
    E.Has side.single.1 side.single.2 m.frame.buffers ↔ (E.value x >>= fun _ => E.sens side x s).isSome := by
  obtain ⟨-, rfl, -, rfl⟩ := hm
  have hboth {o o' : Option (Block K)} : (o >>= fun _ => o').isSome ↔ o.isSome ∧ o'.isSome := by
    cases o <;> cases o' <;> simp
  rw [hboth]
  cases side with
  | forward => exact ⟨fun h => ⟨h.value, h.forward 0 Nat.one_pos⟩,
      fun h => ⟨h.1, fun k hk => Nat.lt_one_iff.mp hk ▸ h.2, fun k hk => absurd hk (Nat.not_lt_zero k)⟩⟩
  | reverse => exact ⟨fun h => ⟨h.value, h.adjoint 0 Nat.one_pos⟩,
      fun h => ⟨h.1, fun k hk => absurd hk (Nat.not_lt_zero k), fun k hk => Nat.lt_one_iff.mp hk ▸ h.2⟩⟩

omit [Number K] in
/-- The sensitivities that it leaves. -/
theorem sens_eq {E : Effect K} {side : Direction} {s : Block K} (hm : m.Aimed d side x s) {b : Buffers K}
    (hb : E.Gives side.single.1 side.single.2 m.frame.buffers b) :
    (E.value x >>= fun _ => E.sens side x s) = some ((b.sens side).getD 0 #[]) := by
  obtain ⟨-, rfl, -, rfl⟩ := hm
  rw [hb.value]
  cases side with
  | forward => exact hb.forward 0 Nat.one_pos
  | reverse => exact hb.adjoint 0 Nat.one_pos

end Machine.Aimed

/-! ### One seed -/

namespace Machine.Seated

/-- The side has a direction once one is asked for. -/
theorem hinges_request (hm : m.Seated d) {side : Direction} (hone : 1 ≤ side.select d.sig.options.limits) :
    Hinges True m (d.sig.requestDirections side.single.1 side.single.2) fun _ n =>
      n.Seated d ∧ 1 ≤ side.select n.frame.buffers.directions := by
  generalize hc : Frame.asked d.sig.options m.frame.buffers side.single.1 side.single.2 = c
  have hcf : c.1 = max m.frame.buffers.forward (min side.single.1 d.sig.options.maxForward) := by rw [← hc]; rfl
  have hca : c.2 = max m.frame.buffers.adjoint (min side.single.2 d.sig.options.maxAdjoint) := by rw [← hc]; rfl
  have hf := hm.fits.frame.forward
  have ha := hm.fits.frame.adjoint
  have hasked : Room c := by
    have hsingle : side.single.1 ≤ 1 ∧ side.single.2 ≤ 1 := by cases side <;> decide
    exact ⟨hcf ▸ Frame.hasRoom_max_of_le_one hm.room.1 ((Nat.min_le_left _ _).trans hsingle.1),
      hca ▸ Frame.hasRoom_max_of_le_one hm.room.2 ((Nat.min_le_left _ _).trans hsingle.2)⟩
  have hselect : 1 ≤ side.select c := by
    cases side <;> simp only [Direction.select, Direction.single, Options.limits] at * <;> omega
  refine ((Frame.hinges_requestDirections d.sig side.single.1 side.single.2 m).congr
    (iff_true_intro (hc ▸ hasked))).mono fun c' n _ hn => ?_
  rw [hc] at hn
  obtain ⟨rfl, hbuffers, hinner⟩ := hn
  have hdirections : n.frame.buffers.directions = c' := by
    rw [hbuffers]
    exact Frame.directions_grown (by omega) (by omega)
  refine ⟨⟨⟨?_, hinner ▸ hm.fits.inner⟩, ?_⟩, hdirections ▸ hselect⟩
  · rw [hbuffers]
    refine Frame.fits_grown hm.fits.frame ?_ ?_ <;> simp only [Options.limits] at * <;> omega
  · rw [Frame.Roomy, hdirections]
    exact hasked

omit [Number K] in
/-- All inputs are set, and the directions stay. -/
theorem hinges_point (hm : m.Seated d) (hx : x.sizes = d.sig.inputSizes) :
    Hinges True m (d.sig.setInputs x) fun _ n =>
      n.Seated d ∧ n.frame.buffers.input = x ∧ n.frame.buffers.directions = m.frame.buffers.directions := by
  have hset := Signature.run_setInputs hx (Block.size_eq (hm.fits.frame.shaped.input.trans hx.symm))
  obtain ⟨-, hseated, -⟩ := (hm.hinges_setInputs x).of_ok hset
  exact .intro_ok hset trivial ⟨hseated, rfl, rfl⟩

end Machine.Seated

omit [Number K] in
/-- After an evaluation there are as many directions as before. -/
theorem Effect.Leaves.seated {E : Effect K} {f a : Nat} {n : Machine K}
    (h : E.Leaves d d.sig.options.initial d.sig.options.limits f a m n) (hm : m.Seated d) : n.Seated d := by
  obtain ⟨hfits, -, hsame⟩ := h.held
  exact ⟨hfits, by rw [Frame.Roomy, hsame]; exact hm.room⟩

namespace Effect.Decides

/-- The outputs at inputs that are all listed. -/
theorem yields_call (h : d.effect.Decides d d.evaluate) (hm : m.Seated d) (hx : x.sizes = d.sig.inputSizes) :
    Yields (d.effect.value x) m (d.call x) fun _ n => n.Seated d := by
  have hcount : d.sig.checkCount x.size = .ok () := by
    have hsize : x.size = d.sig.inputs.size := by simpa [Block.sizes, Signature.inputSizes] using congrArg Array.size hx
    rw [Signature.checkCount, if_pos hsize]
    rfl
  have hdef : d.call x = (do
      d.sig.setInputs x
      let _ ← d.evaluate 0 0
      return (← Run.buffers).output) := by
    rw [Definition.call, hcount]
    rfl
  rw [hdef]
  refine .after (hm.hinges_point hx) fun _ n hn => ?_
  obtain ⟨hseated, rfl, -⟩ := hn
  have hhas : d.effect.Has 0 0 n.frame.buffers ↔ (d.effect.value n.frame.buffers.input).isSome :=
    ⟨fun h => h.value, fun h => ⟨h, fun _ hk => absurd hk (Nat.not_lt_zero _), fun _ hk => absurd hk (Nat.not_lt_zero _)⟩⟩
  exact ((h _ _ 0 0 n hseated.fits (Nat.zero_le _) (Nat.zero_le _)).congr hhas).map fun _ n' _ hn' =>
    .reading (.pure ⟨hn'.gives.value, hn'.seated hseated⟩)

/-- The sensitivities for one seed, if there are outputs. -/
theorem yields_sensitivities (h : d.effect.Decides d d.evaluate) (hm : m.Seated d) (hx : x.sizes = d.sig.inputSizes)
    {side : Direction} (hone : 1 ≤ side.select d.sig.options.limits) (hseed : seed.sizes = d.sig.seedSizes side) :
    Yields (d.effect.value x >>= fun _ => d.effect.sens side x seed) m (d.sensitivities side x seed)
      fun _ n => n.Seated d := by
  refine .after (hm.hinges_request hone) fun _ n hn => .after (hn.1.hinges_point hx) fun _ n' hn' => ?_
  obtain ⟨hseated, hinput, hsame⟩ := hn'
  have haimed : n'.Aimed d side x ((n'.frame.buffers.seeds side).getD 0 #[]) := ⟨hseated, hinput, hsame ▸ hn.2, rfl⟩
  refine .after (haimed.setSeeds (Block.size_eq (haimed.sizes.trans hseed.symm)) hseed) fun _ n hn => ?_
  have hdirections : side.single.1 ≤ n.frame.buffers.forward ∧ side.single.2 ≤ n.frame.buffers.adjoint := by
    have hcount := hn.count
    cases side with
    | forward => exact ⟨hcount, Nat.zero_le _⟩
    | reverse => exact ⟨Nat.zero_le _, hcount⟩
  exact ((h _ _ _ _ n hn.seated.fits hdirections.1 hdirections.2).congr hn.has_iff).map fun _ n' _ hn' =>
    .reading (.pure ⟨hn.sens_eq hn'.gives, hn'.seated hn.seated⟩)

/-- One evaluation for each of the seeds. -/
theorem yields_mapM_sensitivities (h : d.effect.Decides d d.evaluate) (side : Direction) (hm : m.Seated d)
    (hx : x.sizes = d.sig.inputSizes) (hone : 1 ≤ side.select d.sig.options.limits) {count : Nat} {seeds : Nat → Block K}
    (hseeds : ∀ i < count, (seeds i).sizes = d.sig.seedSizes side) :
    Yields ((List.range count).mapM fun i => d.effect.value x >>= fun _ => d.effect.sens side x (seeds i)) m
      ((List.range count).mapM fun i => d.sensitivities side x (seeds i)) fun _ n => n.Seated d :=
  (Yields.mapM (fun rest n => (∀ i ∈ rest, i < count) ∧ n.Seated d) (fun i _ _ hn =>
    (h.yields_sensitivities hn.2 hx hone (hseeds i (hn.1 i (.head _)))).mono fun _ _ _ hn' =>
      ⟨fun k hk => hn.1 k (.tail _ hk), hn'⟩)
    (List.range count) ⟨fun _ => List.mem_range.mp, hm⟩).mono fun _ _ _ hn => hn.2

end Effect.Decides

/-! ### All seeds of a derivative -/

/-- A list of values, where all of them are there. -/
theorem mapM_eq_ite {α β : Type} (g : α → Option β) (b : β) (xs : List α) :
    xs.mapM g = if ∀ x ∈ xs, (g x).isSome then some (xs.map fun x => (g x).getD b) else none := by
  induction xs with
  | nil => simp
  | cons x xs ih =>
    rw [List.mapM_cons, ih]
    cases hx : g x with
    | none => simp [hx]
    | some y =>
      by_cases hall : ∀ x ∈ xs, (g x).isSome
      · rw [if_pos hall, if_pos (List.forall_mem_cons.mpr ⟨by simp [hx], hall⟩)]
        simp [hx]
      · rw [if_neg hall, if_neg fun h => hall (List.forall_mem_cons.mp h).2]
        rfl

namespace Effect

variable {E : Effect K} {f a : Nat}

omit [Number K] in
/-- What evaluations for one seed each have, a derivative of a parent that serves them has. -/
theorem derivative_eq_oneByOne (hp : p.Serves f a) (x : Block K) :
    (do
      let y ← E.value (x.extract 0 p.sig.inputs.size)
      let forwards ← (List.range f).mapM fun i =>
        E.value (x.extract 0 p.sig.inputs.size) >>= fun _ => E.forwardAt p x i
      let adjoints ← (List.range a).mapM fun i =>
        E.value (x.extract 0 p.sig.inputs.size) >>= fun _ => E.adjointAt p f x i
      return y ++ forwards.toArray.flatten ++ adjoints.toArray.flatten) = E.derivative p f a x := by
  rw [derivative]
  cases hy : E.value (x.extract 0 p.sig.inputs.size) with
  | none => split <;> rfl
  | some y =>
    simp only [Option.bind_eq_bind, Option.bind_some, mapM_eq_ite _ #[], List.mem_range, Option.map_some]
    have hflat {n : Nat} (u : Nat → Block K) : ((List.range n).map u).toArray = (Array.range n).map u := by
      rw [← Array.toList_inj]
      simp
    by_cases hforward : ∀ i < f, (E.forwardAt p x i).isSome
    · by_cases hadjoint : ∀ i < a, (E.adjointAt p f x i).isSome
      · rw [if_pos hforward, if_pos hadjoint, if_pos ⟨hp, hforward, hadjoint⟩]
        simp only [Option.bind_some, hflat]
        rfl
      · have hnot : ¬(p.Serves f a ∧ (∀ i < f, (E.forwardAt p x i).isSome) ∧ ∀ i < a, (E.adjointAt p f x i).isSome) :=
          fun h => hadjoint h.2.2
        rw [if_pos hforward, if_neg hadjoint, if_neg hnot]
        rfl
    · have hnot : ¬(p.Serves f a ∧ (∀ i < f, (E.forwardAt p x i).isSome) ∧ ∀ i < a, (E.adjointAt p f x i).isSome) :=
        fun h => hforward h.2.1
      rw [if_neg hforward, if_neg hnot]
      rfl

namespace Decides

/-- One evaluation after the other. -/
theorem yields_oneByOne (h : p.effect.Decides p p.evaluate) (hm : m.Seated p)
    (hx : x.sizes = arranged p.sig.inputSizes p.sig.outputSizes f a) (hp : p.Serves f a)
    (hone : 1 ≤ p.sig.options.maxForward ∧ 1 ≤ p.sig.options.maxAdjoint) :
    Yields (p.effect.derivative p f a x) m (p.oneByOne f a x) fun _ n => n.Seated p := by
  have hpoint := sizes_point hx
  rw [← derivative_eq_oneByOne hp]
  refine (h.yields_call hm hpoint).bind fun y n _ hn => ?_
  refine (h.yields_mapM_sensitivities .forward hn hpoint hone.1 fun _ hi => sizes_forwardSeed hx hi).bind
    fun forwards n _ hn => (h.yields_mapM_sensitivities .reverse hn hpoint hone.2
      fun _ hi => sizes_adjointSeed hx hi).bind fun adjoints n _ hn => .pure hn

end Decides

end Effect

/-! ### Numeric derivatives -/

namespace Effect

variable {s : Signature K}

theorem passes_append (y z : Block K) : passes s (y ++ z) = (passes s y && passes s z) := by
  rw [passes, passes, passes, finite, Array.all_append]
  cases s.options.regularityCheck <;> rfl

theorem passes_flatten {ys : Array (Block K)} (h : ∀ y ∈ ys, passes s y = true) : passes s ys.flatten = true := by
  cases hcheck : s.options.regularityCheck with
  | false => simp [passes, hcheck]
  | true =>
    have hall : ∀ y ∈ ys, finite y = true := by simpa [passes, hcheck] using h
    rw [passes, hcheck, finite, Array.all_flatten]
    exact Array.all_eq_true_iff_forall_mem.mpr hall

theorem passes_of_filter {o : Option (Block K)} (h : (o.filter (passes s)).isSome = true) :
    passes s ((o.filter (passes s)).getD #[]) = true := by
  obtain ⟨y, hy⟩ := Option.isSome_iff_exists.mp h
  rw [hy, Option.getD_some]
  exact (Option.filter_eq_some_iff.mp hy).2

/-- What the parts of a derivative pass, the whole passes. -/
theorem filter_derivative (E : Effect K) (p : Definition K) (f a : Nat) (x : Block K) :
    ((E.checking s).derivative p f a x).filter (passes s) = (E.checking s).derivative p f a x := by
  rw [derivative]
  split
  · next hall =>
    obtain ⟨-, hforward, hadjoint⟩ := hall
    cases hy : (E.checking s).value (x.extract 0 p.sig.inputs.size) with
    | none => rfl
    | some y =>
      have hvalue : passes s y = true := (Option.filter_eq_some_iff.mp hy).2
      have hpieces {n : Nat} {u : Nat → Option (Block K)} (hu : ∀ i < n, ((u i).filter (passes s)).isSome) :
          passes s ((Array.range n).map fun i => ((u i).filter (passes s)).getD #[]).flatten = true := by
        refine passes_flatten fun z hz => ?_
        obtain ⟨i, hi, rfl⟩ := Array.mem_map.mp hz
        exact passes_of_filter (hu i (by simpa using hi))
      rw [Option.map_some, Option.filter_some, passes_append, passes_append, hvalue]
      rw [if_pos]
      exact Bool.and_eq_true_iff.mpr ⟨hpieces hforward, hpieces hadjoint⟩
  · rfl

end Effect

namespace Definition

/-- Without a tape a derivative is numeric. -/
theorem derive_derivative (h : p.tape? = none) {f a k k' : Nat} (hrun : (p.derive (.derivative f a)).run k = (.ok d, k')) :
    d.sig.inputSizes = arranged p.sig.inputSizes p.sig.outputSizes f a ∧ d.effect.value = p.effect.derivative p f a := by
  have heffect (s : Signature K) (hs : s.options.regularityCheck = p.sig.options.regularityCheck) :
      (Definition.derivative s f a p).effect.value = p.effect.derivative p f a := by
    funext x
    have hpasses : Effect.passes s = Effect.passes p.sig := by
      funext y
      rw [Effect.passes, Effect.passes, hs]
    change ((Effect.skipping s (Definition.derivative s f a p).bareEffect).value x).filter (Effect.passes s) = _
    rw [Effect.value_skipping, hpasses]
    exact Effect.filter_derivative _ p f a x
  have hsizes (s : Signature K) (hs : s.inputs = arranged p.sig.inputs p.sig.outputs f a) :
      s.inputSizes = arranged p.sig.inputSizes p.sig.outputSizes f a := by
    rw [Signature.inputSizes, hs, map_arranged]
    rfl
  cases p with
  | expressions s t inputs => cases h
  | external s c =>
    cases hrun
    exact ⟨hsizes _ rfl, heffect _ rfl⟩
  | jacobian s b p =>
    cases hrun
    exact ⟨hsizes _ rfl, heffect _ rfl⟩
  | derivative s f a p =>
    cases hrun
    exact ⟨hsizes _ rfl, heffect _ rfl⟩

end Definition

/-- Whatever was asked before, a numeric derivative answers what its parent does if it is asked for the outputs, and
then for one seed at a time. -/
theorem Made.derivative_iff_oneByOne {n : Nat} (h : Made Callable.Complete n p) (ht : p.tape? = none)
    (hone : 1 ≤ p.sig.options.maxForward ∧ 1 ≤ p.sig.options.maxAdjoint) {f a k k' : Nat} (hk : n ≤ k)
    (hrun : (p.derive (.derivative f a)).run k = (.ok d, k')) {i j : Instance K} (hi : i.Reached d) (hj : j.Reached p)
    (hx : x.sizes = d.sig.inputSizes) (y : Block K) :
    (i.run (d.call x)).1 = .ok y ↔ Room (p.sig.options.granted f a) ∧ (j.run (p.oneByOne f a x)).1 = .ok y := by
  obtain ⟨hsizes, hvalue⟩ := Definition.derive_derivative ht hrun
  have hd : Made Callable.Complete k' d := .derived h hk hrun
  have hseated := ((hd.sturdy hi.room (.inl trivial)).seated hi).2
  have hcall := ((hd.decides hi.room).yields_call hseated hx).iff_ok (a := y)
  rw [hvalue] at hcall
  refine hcall.symm.trans ?_
  by_cases hroom : Room (p.sig.options.granted f a)
  · have hgranted {n k max : Nat} (hmax : 1 ≤ max) : k = 0 ∨ 1 ≤ Max.max n (min k max) := by omega
    have hserves : p.Serves f a := ⟨hroom, hgranted hone.1, hgranted hone.2⟩
    have hparent := (h.decides hj.room).yields_oneByOne ((h.sturdy hj.room (.inl trivial)).seated hj).2
      (hx.trans hsizes) hserves hone
    rw [and_iff_right hroom]
    exact hparent.iff_ok
  · refine iff_of_false (fun hy => ?_) fun hy => hroom hy.1
    exact hroom (Effect.isSome_derivative_iff.mp (Option.isSome_of_eq_some hy)).1.room

end Fluxion
