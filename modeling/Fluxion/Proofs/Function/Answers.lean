import Fluxion.Proofs.Function.Effect

/-!
Difference quotients, direction by direction. A body answers every point by itself, and the quotients along a seed
are taken from its answers at points around the inputs.
-/
set_option autoImplicit false

namespace Fluxion

open Run

variable {K α : Type} {d : Definition K} {low high : Nat × Nat} {m n : Machine K}
  {g : Block K → Option (Block K)} {body : Body K}

/-- The instance after it asked a body: only instances of the parents changed. -/
structure Machine.Asked (d : Definition K) (low high : Nat × Nat) (m n : Machine K) : Prop where
  frame : n.frame = m.frame
  fits : n.Fits d low high

/-- The body answers `g`: outputs where there are some, and a fault elsewhere. -/
def Body.Answers (g : Block K → Option (Block K)) (d : Definition K) (body : Body K) : Prop :=
  ∀ low high m x y, m.Fits d low high → x.sizes = d.sig.inputSizes → y.sizes = d.sig.outputSizes →
    Hinges True m (body x y) fun r n => (g x = if r.2.isSome then none else some r.1) ∧
      r.1.sizes = d.sig.outputSizes ∧ m.Asked d low high n

namespace Block

variable {T : Type}

theorem get?_mapIdx (x : Block K) (F : Nat → Nat → K → T) (i k : Nat) :
    get? (x.mapIdx fun i v => v.mapIdx fun k e => F i k e) i k = (x.get? i k).map (F i k) := by
  cases hi : x[i]? with
  | none => simp [get?, hi]
  | some v => simp [get?, hi]

theorem sizes_mapIdx (x : Block K) (F : Nat → Nat → K → T) :
    sizes (x.mapIdx fun i v => v.mapIdx fun k e => F i k e) = x.sizes := by
  refine Array.ext_getElem? fun i => ?_
  cases hi : x[i]? with
  | none => simp [sizes, hi]
  | some v => simp [sizes, hi]

theorem ext_of_get? {x y : Block T} (hs : x.sizes = y.sizes) (h : ∀ i k, x.get? i k = y.get? i k) : x = y :=
  ext_get? hs fun i k _ hx => (h i k).symm.trans hx

theorem set_set (x : Block T) (i k : Nat) (v w : T) : (x.set i k v).set i k w = x.set i k w := by
  refine ext_of_get? (by simp only [sizes_set]) fun j l => ?_
  by_cases h : (i,k) = (j,l)
  · obtain ⟨rfl, rfl⟩ := Prod.mk.inj h
    cases hx : x.get? i k with
    | none =>
      have hnone (v : T) (y : Block T) (hy : y.get? i k = none) : (y.set i k v).get? i k = none := by
        simp only [get?, set, Array.getElem?_modify, if_pos] at hy ⊢
        cases hi : y[i]? <;> simp_all
      rw [hnone _ _ (hnone _ _ hx), hnone _ _ hx]
    | some e =>
      have hsome {y : Block T} (hy : (y.get? i k).isSome) : (y.set i k v).get? i k = some v := get?_set_self hy v
      have hx : (x.get? i k).isSome := by rw [hx]; rfl
      rw [get?_set_self (by rw [hsome hx]; rfl), get?_set_self hx]
  · rw [get?_set_of_ne h, get?_set_of_ne h, get?_set_of_ne h]

/-- Setting an entry to what it is. -/
theorem set_get? {x : Block T} {i k : Nat} {e : T} (h : x.get? i k = some e) : x.set i k e = x := by
  refine ext_of_get? (sizes_set _ _ _ _) fun j l => ?_
  by_cases hik : (i,k) = (j,l)
  · obtain ⟨rfl, rfl⟩ := Prod.mk.inj hik
    rw [get?_set_self (by rw [h]; rfl), h]
  · exact get?_set_of_ne hik _

theorem all_eq_true_iff {x : Block T} {p : T → Bool} :
    x.all (·.all p) = true ↔ ∀ i k e, x.get? i k = some e → p e = true := by
  simp only [get?, Option.bind_eq_some_iff, Array.all_eq_true_iff_forall_mem, Array.mem_iff_getElem?,
    forall_exists_index, and_imp]
  exact ⟨fun h i k e v hv he => h v i hv e k he, fun h v i hv e k he => h i k e v hv he⟩

/-- All entries, if all of them are there. -/
def whole (x : Block (Option T)) (zero : T) : Option (Block T) :=
  if x.all (·.all Option.isSome) then some (x.map (·.map (·.getD zero))) else none

theorem isSome_whole_iff {x : Block (Option T)} {zero : T} :
    (x.whole zero).isSome = true ↔ ∀ i k o, x.get? i k = some o → o.isSome = true := by
  rw [whole, ← all_eq_true_iff]
  split
  · next h => exact ⟨fun _ => h, fun _ => rfl⟩
  · next h => exact ⟨fun h => (by cases h), fun h' => absurd h' h⟩

theorem getD_whole {x : Block (Option T)} {zero : T} (h : (x.whole zero).isSome = true) :
    (x.whole zero).getD #[] = x.map (·.map (·.getD zero)) := by
  rw [whole] at h ⊢
  split
  · rfl
  · next hne =>
    rw [if_neg hne] at h
    cases h

end Block

namespace Differences

variable [Number K]

open Number

/-- Quotients along a forward seed. -/
def along (g : Block K → Option (Block K)) (step : K) (outs : Array Nat) (x seed : Block K) : Option (Block K) :=
  let norm := maxAbs seed
  if isZero norm then some (.filled outs zero)
  else do
    let h := div (mul step (add one (maxAbs x))) norm
    return zipBlocks (quotient h) (← g (perturb x seed h)) (← g (perturb x seed (neg h)))

/-- Column `k` of input `i`, times an adjoint seed. -/
def column (g : Block K → Option (Block K)) (h : K) (x seed : Block K) (i k : Nat) (e : K) : Option K := do
  return contract h seed (← g (x.set i k (add e h))) (← g (x.set i k (sub e h)))

/-- All columns, times an adjoint seed. -/
def against (g : Block K → Option (Block K)) (step : K) (x seed : Block K) : Option (Block K) :=
  Block.whole (x.mapIdx fun i v => v.mapIdx fun k e => column g (mul step (add one (maxAbs x))) x seed i k e) zero

omit [Number K] in
theorem yields_outputsAt (hbody : body.Answers g d) (hm : m.Fits d low high) {x y : Block K}
    (hx : x.sizes = d.sig.inputSizes) (hy : y.sizes = d.sig.outputSizes) :
    Yields (g x) m (outputsAt body x y) fun z n => z.sizes = d.sig.outputSizes ∧ m.Asked d low high n := by
  refine Yields.after (hbody low high m x y hm hx hy) fun r n ⟨hg, hz, hn⟩ => ?_
  obtain ⟨z, e⟩ := r
  dsimp only at hg hz
  cases e with
  | none => exact .congr (.pure ⟨hz, hn⟩) hg.symm
  | some e => exact .congr .throw hg.symm

omit [Number K] in
theorem hinges_between (hbody : body.Answers g d) (hm : m.Fits d low high) {s : Scratch K}
    (hs : s.Shaped d.sig.inputSizes d.sig.outputSizes) {p q : Block K} (hp : p.sizes = d.sig.inputSizes)
    (hq : q.sizes = d.sig.inputSizes) : Hinges ((g p).isSome ∧ (g q).isSome) m (s.between body p q) fun t n =>
      (g p = some t.plus ∧ g q = some t.minus ∧ t.point = q) ∧ t.Shaped d.sig.inputSizes d.sig.outputSizes ∧
        m.Asked d low high n := by
  refine Hinges.bind (yields_outputsAt hbody hm hp hs.plus) fun z n _ ⟨hz, hsizes, hn⟩ => ?_
  refine Hinges.map (yields_outputsAt hbody hn.fits hq hs.minus) fun w n' _ ⟨hw, hsizes', hn'⟩ => ?_
  exact .pure ⟨⟨hz, hw, rfl⟩, ⟨hq, hsizes, hsizes'⟩, hn'.frame.trans hn.frame, hn'.fits⟩

theorem hinges_forwardSens (hbody : body.Answers g d) (hm : m.Fits d low high) {x seed : Block K} {s : Scratch K}
    (hx : x.sizes = d.sig.inputSizes) (hs : s.Shaped d.sig.inputSizes d.sig.outputSizes)
    (hseed : seed.sizes = d.sig.inputSizes) (step : K) : Hinges (along g step d.sig.outputSizes x seed).isSome m
      (forwardSens body step (add one (maxAbs x)) x seed s) fun z n =>
        along g step d.sig.outputSizes x seed = some z.1 ∧ z.1.sizes = d.sig.outputSizes ∧
          z.2.Shaped d.sig.inputSizes d.sig.outputSizes ∧ m.Asked d low high n := by
  have hpoint (h : K) : Block.sizes (perturb x seed h) = d.sig.inputSizes := sizes_zipBlocks _ hx hseed
  rw [forwardSens, along]
  dsimp only
  split
  · refine .intro_ok rfl rfl ⟨?_, ?_, hs, rfl, hm⟩
    · rw [Block.clear_eq, hs.plus]
    · rw [Block.clear_eq, hs.plus, Block.sizes_filled]
  · generalize div (mul step (add one (maxAbs x))) (maxAbs seed) = h
    have hboth : ((g (perturb x seed h)).isSome ∧ (g (perturb x seed (neg h))).isSome) ↔
        (do return zipBlocks (quotient h) (← g (perturb x seed h)) (← g (perturb x seed (neg h))) :
          Option (Block K)).isSome := by
      cases g (perturb x seed h) with
      | none => simp
      | some p => cases g (perturb x seed (neg h)) <;> simp
    refine ((hinges_between hbody hm hs (hpoint h) (hpoint (neg h))).map fun t n _ hends => .pure ?_).congr hboth
    obtain ⟨⟨hp, hq, -⟩, ht, hn⟩ := hends
    refine ⟨?_, sizes_zipBlocks _ ht.plus ht.minus, ht, hn⟩
    rw [hp, hq]
    rfl

/-! ### All directions -/

section Directions

variable (g : Block K → Option (Block K)) (step : K) (d : Definition K) (b : Buffers K)

/-- The buffers with the sensitivities of the first `f` forward directions. -/
def withForward (f : Nat) : Buffers K :=
  let sens k := (along g step d.sig.outputSizes b.input (b.forwardSeed.getD k #[])).getD #[]
  {b with forwardSens := Buffers.firstBlocks f sens b.forwardSens}

/-- The buffers with the sensitivities of the first `a` adjoint directions. -/
def withAdjoint (a : Nat) : Buffers K :=
  let sens k := (against g step b.input (b.adjointSeed.getD k #[])).getD #[]
  {b with adjointSens := Buffers.firstBlocks a sens b.adjointSens}

end Directions

variable {b : Buffers K} {step : K}

theorem hinges_forward (hbody : body.Answers g d) (hb : b.Shaped d.sig.inputSizes d.sig.outputSizes)
    {k : Nat} (hk : k < b.forward) {s : Scratch K} (hs : s.Shaped d.sig.inputSizes d.sig.outputSizes)
    (hn : n.frame.buffers = withForward g step d b k ∧ n.Fits d low high) :
    Hinges (along g step d.sig.outputSizes b.input (b.forwardSeed.getD k #[])).isSome n
      (forward body step (add one (maxAbs b.input)) b.input s k) fun t n' =>
        t.Shaped d.sig.inputSizes d.sig.outputSizes ∧ n'.frame.buffers = withForward g step d b (k+1) ∧ n'.Fits d low high := by
  obtain ⟨hbuffers, hfits⟩ := hn
  refine .reading ?_
  have hseed : n.frame.buffers.forwardSeed = b.forwardSeed := by rw [hbuffers]; rfl
  rw [hseed]
  refine Hinges.map (hinges_forwardSens hbody hfits hb.input hs (Buffers.sizes_getD hb.forwardSeed hk) step)
    fun z n' _ ⟨hz, hsizes, ht, hn'⟩ => ?_
  have hsens : z.1 = (along g step d.sig.outputSizes b.input (b.forwardSeed.getD k #[])).getD #[] := by
    rw [hz, Option.getD_some]
  refine .writing (.pure ⟨ht, ?_, ⟨⟨hn'.fits.frame.shaped.setForwardSens k hsizes, hn'.fits.frame.forward,
    hn'.fits.frame.adjoint⟩, hn'.fits.inner⟩⟩)
  change {n'.frame.buffers with forwardSens := n'.frame.buffers.forwardSens.setIfInBounds k z.1} = _
  rw [hn'.frame, hbuffers, hsens, withForward, withForward]
  dsimp only
  rw [Buffers.firstBlocks_succ]

/-- The columns before column `k` of input `i`; the others are zero. -/
def partly (col : Nat → Nat → K → K) (x : Block K) (i k : Nat) : Block K :=
  x.mapIdx fun i' v => v.mapIdx fun k' e => if i' < i ∨ i' = i ∧ k' < k then col i' k' e else zero

theorem sizes_partly (col : Nat → Nat → K → K) (x : Block K) (i k : Nat) : (partly col x i k).sizes = x.sizes :=
  Block.sizes_mapIdx x _

theorem get?_partly (col : Nat → Nat → K → K) (x : Block K) (i k i' k' : Nat) :
    (partly col x i k).get? i' k' =
      (x.get? i' k').map fun e => if i' < i ∨ i' = i ∧ k' < k then col i' k' e else zero :=
  Block.get?_mapIdx x _ i' k'

variable {col : Nat → Nat → K → K} {x : Block K} {i k : Nat}

theorem partly_zero : partly col x 0 0 = .filled x.sizes zero := by
  refine Block.ext_of_get? ?_ fun i k => ?_
  · rw [sizes_partly, Block.sizes_filled]
  · rw [get?_partly]
    cases hi : x[i]? with
    | none => simp [Block.get?, Block.filled, Block.sizes, hi]
    | some v =>
      by_cases hk : k < v.size <;> simp [Block.get?, Block.filled, Block.sizes, hi, hk]

theorem set_partly {e : K} (he : x.get? i k = some e) :
    (partly col x i k).set i k (col i k e) = partly col x i (k+1) := by
  have hsome : ((partly col x i k).get? i k).isSome := by
    rw [get?_partly, he]
    rfl
  refine Block.ext_of_get? ?_ fun i' k' => ?_
  · rw [Block.sizes_set, sizes_partly, sizes_partly]
  · by_cases hik : (i,k) = (i',k')
    · obtain ⟨rfl, rfl⟩ := Prod.mk.inj hik
      rw [Block.get?_set_self hsome, get?_partly, he, Option.map_some, if_pos (.inr ⟨rfl, Nat.lt_succ_self k⟩)]
    · rw [Block.get?_set_of_ne hik, get?_partly, get?_partly]
      have hne : ¬(i' = i ∧ k' = k) := fun h => hik (by rw [h.1, h.2])
      have hiff : (i' < i ∨ i' = i ∧ k' < k) ↔ (i' < i ∨ i' = i ∧ k' < k+1) := by omega
      simp only [hiff]

/-- After the last column of an input comes the first one of the next. -/
theorem partly_next {v : Array K} (hv : x[i]? = some v) : partly col x i v.size = partly col x (i+1) 0 := by
  refine Block.ext_of_get? ?_ fun i' k' => ?_
  · rw [sizes_partly, sizes_partly]
  · rw [get?_partly, get?_partly]
    cases he : x.get? i' k' with
    | none => rfl
    | some e =>
      have hlt (h : i' = i) : k' < v.size := by
        subst h
        rw [Block.get?, hv, Option.bind_some] at he
        exact (Array.getElem?_eq_some_iff.mp he).1
      have hiff : (i' < i ∨ i' = i ∧ k' < v.size) ↔ (i' < i+1 ∨ i' = i+1 ∧ k' < 0) := by
        by_cases h : i' = i
        · simp [h, hlt h]
        · omega
      simp only [hiff]

theorem partly_all : partly col x x.size 0 = x.mapIdx fun i v => v.mapIdx fun k e => col i k e := by
  refine Block.ext_of_get? ?_ fun i k => ?_
  · rw [sizes_partly, Block.sizes_mapIdx]
  · rw [get?_partly, Block.get?_mapIdx]
    cases he : x.get? i k with
    | none => rfl
    | some e =>
      have hi : i < x.size := by
        by_contra hi
        rw [Block.get?, Array.getElem?_eq_none (Nat.le_of_not_lt hi), Option.bind_none] at he
        cases he
      rw [Option.map_some, Option.map_some, if_pos (.inl hi)]

/-- The points around an entry have answers. -/
def Around (g : Block K → Option (Block K)) (h : K) (x : Block K) (i k : Nat) (e : K) : Prop :=
  (g (x.set i k (add e h))).isSome ∧ (g (x.set i k (sub e h))).isSome

theorem isSome_column_iff {h : K} (seed : Block K) {e : K} :
    (column g h x seed i k e).isSome = true ↔ Around g h x i k e := by
  rw [column, Around]
  cases g (x.set i k (add e h)) with
  | none => simp
  | some p => cases g (x.set i k (sub e h)) <;> simp

theorem isSome_against_iff {seed : Block K} : (against g step x seed).isSome = true ↔
    ∀ i k e, x.get? i k = some e → Around g (mul step (add one (maxAbs x))) x i k e := by
  simp only [against, Block.isSome_whole_iff, Block.get?_mapIdx, Option.map_eq_some_iff, forall_exists_index, and_imp,
    forall_apply_eq_imp_iff₂, isSome_column_iff]

theorem getD_against {seed : Block K} (h : (against g step x seed).isSome = true) : (against g step x seed).getD #[] =
    x.mapIdx fun i v => v.mapIdx fun k e => (column g (mul step (add one (maxAbs x))) x seed i k e).getD zero := by
  rw [against, Block.getD_whole h]
  refine Array.ext_getElem? fun i => ?_
  rw [Array.getElem?_map, Array.getElem?_mapIdx, Array.getElem?_mapIdx, Option.map_map]
  refine congrArg (fun F => Option.map F x[i]?) (funext fun v => Array.ext_getElem? fun k => ?_)
  simp [Function.comp_def]

/-- The buffers when the columns before column `k` of input `i` are done. -/
def withColumns (g : Block K → Option (Block K)) (h : K) (b : Buffers K) (a i k : Nat) : Buffers K :=
  let sens q := partly (fun i k e => (column g h b.input (b.adjointSeed.getD q #[]) i k e).getD zero) b.input i k
  {b with adjointSens := Buffers.firstBlocks a sens b.adjointSens}

theorem fits_withColumns {sig : Signature K} (hb : b.Fits sig low high) (h : K) (a i k : Nat) :
    (withColumns g h b a i k).Fits sig low high :=
  ⟨hb.shaped.withAdjointSens a _ fun _ => (sizes_partly _ _ _ _).trans hb.shaped.input, hb.forward, hb.adjoint⟩

/-- Both quotients of an entry are known, so that its column is. -/
theorem withColumns_succ {h e : K} {a : Nat} {p q : Block K} (he : b.input.get? i k = some e)
    (hp : g (b.input.set i k (add e h)) = some p) (hq : g (b.input.set i k (sub e h)) = some q) :
    let c := withColumns g h b a i k
    let sens := (List.range a).foldl (fun sens d =>
      sens.modify d (Block.set · i k (contract h (c.adjointSeed.getD d #[]) p q))) c.adjointSens
    {c with adjointSens := sens} = withColumns g h b a i (k+1) := by
  intro c sens
  rw [withColumns, Buffers.mk.injEq]
  refine ⟨rfl, rfl, rfl, rfl, rfl, Array.ext_getElem? fun z => ?_⟩
  rw [getElem?_modifies a i k (fun d => contract h (c.adjointSeed.getD d #[]) p q) c.adjointSens z,
    Buffers.getElem?_firstBlocks]
  change Option.map _ (Buffers.firstBlocks _ _ _)[z]? = _
  rw [Buffers.getElem?_firstBlocks, Option.map_map]
  refine congrArg (fun F => Option.map F b.adjointSens[z]?) (funext fun old => ?_)
  rw [Function.comp_apply]
  split
  · have hcolumn : contract h (c.adjointSeed.getD z #[]) p q =
        (column g h b.input (b.adjointSeed.getD z #[]) i k e).getD zero := by
      rw [column, hp, hq]
      rfl
    rw [hcolumn]
    exact set_partly he
  · rfl

/-- Between two columns: the point is the inputs, and the columns before column `k` of input `i` are done. -/
structure Columns (g : Block K → Option (Block K)) (d : Definition K) (h : K) (b : Buffers K) (a i k : Nat)
    (s : Scratch K) (n : Machine K) : Prop where
  scratch : s.Shaped d.sig.inputSizes d.sig.outputSizes
  point : s.point = b.input
  buffers : n.frame.buffers = withColumns g h b a i k
  inner : d.InnerFits n.inner

theorem hinges_adjointColumn (hbody : body.Answers g d) (hb : b.Fits d.sig low high) {h e : K} {a : Nat} {s : Scratch K}
    (he : b.input.get? i k = some e) (hn : Columns g d h b a i k s n) :
    Hinges (Around g h b.input i k e) n (adjointColumn body h a i k e s) (Columns g d h b a i (k+1)) := by
  have hfits : n.Fits d low high := ⟨hn.buffers ▸ fits_withColumns hb h a i k, hn.inner⟩
  have hpoint (v : K) : Block.sizes (b.input.set i k v) = d.sig.inputSizes := by rw [Block.sizes_set, hb.shaped.input]
  rw [adjointColumn, hn.point, Block.set_set]
  refine Hinges.map (hinges_between hbody hfits hn.scratch (hpoint _) (hpoint _)) fun t n' _ ⟨⟨hp, hq, hat⟩, ht, hn'⟩ => ?_
  have hback : t.point.set i k e = b.input := by rw [hat, Block.set_set, Block.set_get? he]
  refine .writing (.pure ⟨⟨?_, ht.plus, ht.minus⟩, hback, ?_, hn'.fits.inner⟩)
  · exact (congrArg Block.sizes hback).trans hb.shaped.input
  · have hbuffers : n'.frame.buffers = withColumns g h b a i k := by rw [hn'.frame, hn.buffers]
    rw [← withColumns_succ he hp hq, ← hbuffers]
    rfl

/-- All columns of an input. -/
theorem hinges_adjointColumns (hbody : body.Answers g d) (hb : b.Fits d.sig low high) {h : K} {a : Nat} {v : Array K}
    {s : Scratch K} (hv : b.input[i]? = some v) (hn : Columns g d h b a i 0 s n) :
    Hinges (∀ k e, v[k]? = some e → Around g h b.input i k e) n
      (v.zipIdx.toList.foldlM (fun s e => adjointColumn body h a i e.2 e.1 s) s) (Columns g d h b a (i+1) 0) := by
  have hnext : withColumns g h b a i v.size = withColumns g h b a (i+1) 0 := by
    simp only [withColumns, partly_next hv]
  refine (Hinges.foldlM_zipIdx v (Columns g d h b a i) (fun k e s n he hn => hinges_adjointColumn hbody hb ?_ hn) hn).mono
    fun s n _ hn => ⟨hn.scratch, hn.point, hn.buffers.trans hnext, hn.inner⟩
  rw [Block.get?, hv, Option.bind_some, he]

/-- All columns. -/
theorem hinges_columns (hbody : body.Answers g d) (hb : b.Fits d.sig low high) {h : K} {a : Nat} {s : Scratch K}
    (hn : Columns g d h b a 0 0 s n) : Hinges (∀ i k e, b.input.get? i k = some e → Around g h b.input i k e) n
      (b.input.zipIdx.toList.foldlM (fun s v => v.1.zipIdx.toList.foldlM (fun s e =>
        adjointColumn body h a v.2 e.2 e.1 s) s) s) (Columns g d h b a b.input.size 0) := by
  have hloop := Hinges.foldlM_zipIdx b.input
    (f := fun s v => v.1.zipIdx.toList.foldlM (fun s e => adjointColumn body h a v.2 e.2 e.1 s) s)
    (C := fun i v => ∀ k e, v[k]? = some e → Around g h b.input i k e)
    (fun i => Columns g d h b a i 0) (fun i v s n hv hn => by
      have hcolumns := hinges_adjointColumns (h := h) (a := a) (v := v) (s := s) (i := i) (n := n) hbody hb hv hn
      exact hcolumns) hn
  refine hloop.congr ⟨fun h i k e he => ?_, fun h i v hv k e he => h i k e ?_⟩
  · obtain ⟨v, hv, he⟩ := Option.bind_eq_some_iff.mp he
    exact h i v hv k e he
  · rw [Block.get?, hv, Option.bind_some, he]

theorem hinges_adjoint (hbody : body.Answers g d) (hb : b.Fits d.sig low high) {h : K} {a : Nat} {s : Scratch K}
    (hs : s.Shaped d.sig.inputSizes d.sig.outputSizes) (hn : n.frame.buffers = b ∧ d.InnerFits n.inner) :
    Hinges (∀ i k e, b.input.get? i k = some e → Around g h b.input i k e) n
      (adjoint body h b.input a s) (Columns g d h b a b.input.size 0) := by
  have hstart :
      let sens := b.adjointSens.mapIdx fun d v => if d < a then (v.map (·.map fun _ => zero) : Block K) else v
      {b with adjointSens := sens} = withColumns g h b a 0 0 := by
    intro sens
    rw [withColumns, Buffers.mk.injEq]
    refine ⟨rfl, rfl, rfl, rfl, rfl, Array.ext_getElem? fun z => ?_⟩
    rw [Buffers.getElem?_firstBlocks, Array.getElem?_mapIdx]
    cases hz : b.adjointSens[z]? with
    | none => rfl
    | some old =>
      rw [Option.map_some, Option.map_some, Block.clear_eq, hb.shaped.adjointSens _ (Array.mem_of_getElem? hz),
        partly_zero, hb.shaped.input]
  refine .writing (hinges_columns hbody hb ⟨⟨hb.shaped.input, hs.plus, hs.minus⟩, rfl, ?_, hn.2⟩)
  rw [hn.1]
  exact hstart

/-- Where all columns are known, the products with the seeds are there. -/
theorem withColumns_all {a : Nat}
    (h : ∀ k < a, (against g step b.input (b.adjointSeed.getD k #[])).isSome) :
    withColumns g (mul step (add one (maxAbs b.input))) b a b.input.size 0 = withAdjoint g step b a := by
  rw [withColumns, withAdjoint, Buffers.mk.injEq]
  refine ⟨rfl, rfl, rfl, rfl, rfl, Array.ext_getElem? fun z => ?_⟩
  rw [Buffers.getElem?_firstBlocks, Buffers.getElem?_firstBlocks]
  refine congrArg (fun F => Option.map F b.adjointSens[z]?) (funext fun old => ?_)
  split
  · next hz => rw [partly_all, getD_against (h z hz)]
  · rfl

/-- The directions that are asked for get their quotients, if there are answers at the points around the inputs. -/
theorem hinges_directions (hbody : body.Answers g d) (hn : n.Fits d low high) {f a : Nat}
    (hf : f ≤ n.frame.buffers.forward) :
    Hinges ((∀ k < f, (along g step d.sig.outputSizes n.frame.buffers.input (n.frame.buffers.forwardSeed.getD k #[])).isSome) ∧
        ∀ k < a, (against g step n.frame.buffers.input (n.frame.buffers.adjointSeed.getD k #[])).isSome) n
      (directions body step f a) fun _ n' =>
        n'.frame.buffers = withAdjoint g step (withForward g step d n.frame.buffers f) a ∧ n'.Fits d low high := by
  have hzero {b : Buffers K} : withAdjoint g step b 0 = b := by
    rw [withAdjoint, Buffers.firstBlocks_zero]
  have hstart : withForward g step d n.frame.buffers 0 = n.frame.buffers := by
    rw [withForward, Buffers.firstBlocks_zero]
  rw [directions]
  refine .ite (fun h0 => ?_) fun _ => .reading ?_
  · obtain ⟨rfl, rfl⟩ : f = 0 ∧ a = 0 := by simpa using h0
    refine .intro_ok rfl ⟨fun k hk => absurd hk (by omega), fun k hk => absurd hk (by omega)⟩ ⟨?_, hn⟩
    rw [hstart, hzero]
  generalize hb : n.frame.buffers = b at hf hstart ⊢
  have hshaped := hn.frame.shaped
  rw [hb] at hshaped
  dsimp only
  have hloop := Hinges.foldlM_range (f := forward body step (add one (maxAbs b.input)) b.input)
    (C := fun k => (along g step d.sig.outputSizes b.input (b.forwardSeed.getD k #[])).isSome)
    (fun k s n => s.Shaped d.sig.inputSizes d.sig.outputSizes ∧ n.frame.buffers = withForward g step d b k ∧
      n.Fits d low high) (n := f) (m := n) (b := ⟨b.input, b.output, b.output⟩)
    (fun k s m hk hm => hinges_forward hbody hshaped (Nat.lt_of_lt_of_le hk hf) hm.1 hm.2)
    ⟨⟨hshaped.input, hshaped.output, hshaped.output⟩, hb.trans hstart.symm, hn⟩
  refine hloop.bind fun s n₁ _ hends => ?_
  obtain ⟨hs, hn₁⟩ := hends
  refine .ite (fun h0 => ?_) fun h0 => ?_
  · subst h0
    rw [← hzero (b := withForward g step d b f)] at hn₁
    exact .intro_ok rfl (fun k hk => absurd hk (by omega)) hn₁
  · have hfits : (withForward g step d b f).Fits d.sig low high := hn₁.1 ▸ hn₁.2.frame
    have hall : (∀ i k e, b.input.get? i k = some e → Around g (mul step (add one (maxAbs b.input))) b.input i k e) ↔
        ∀ k < a, (against g step b.input (b.adjointSeed.getD k #[])).isSome :=
      ⟨fun h k _ => isSome_against_iff.mpr h, fun h => isSome_against_iff.mp (h 0 (Nat.pos_of_ne_zero h0))⟩
    refine ((hinges_adjoint hbody hfits hs ⟨hn₁.1, hn₁.2.inner⟩).congr hall).map fun _ n₂ hsome hn₂ => .pure ?_
    have hbuffers := hn₂.buffers.trans (withColumns_all (b := withForward g step d b f) hsome)
    exact ⟨hbuffers, ⟨hn₂.buffers ▸ fits_withColumns hfits _ _ _ _, hn₂.inner⟩⟩

end Differences

/-- What an evaluation by differences tells, of a body that answers `g`. -/
def Effect.ofBody [Number K] (s : Signature K) (g : Block K → Option (Block K)) : Effect K where
  value := g
  forward := Differences.along g s.options.step s.outputSizes
  adjoint := Differences.against g s.options.step

namespace Evaluate

variable [Number K]

/-- Outputs from the body, and quotients of its answers. -/
theorem decides_byDifferences (hbody : body.Answers g d) :
    (Effect.ofBody d.sig g).Decides d (byDifferences d.sig body) := by
  intro low high f a m hm hf ha
  refine .reading ?_
  dsimp only
  generalize hb : m.frame.buffers = b at hf ha ⊢
  have hfits := hm.frame
  rw [hb] at hfits
  refine (hbody low high m _ _ hm hfits.shaped.input hfits.shaped.output).after fun r n ⟨hg, hsizes, hn⟩ => .writing ?_
  obtain ⟨y, e⟩ := r
  dsimp only at hg hsizes ⊢
  rw [hn.frame, hb]
  have hwritten : (n.withBuffers {b with output := y}).Fits d low high :=
    ⟨⟨hfits.shaped.withOutput hsizes, hfits.forward, hfits.adjoint⟩, hn.fits.inner⟩
  cases e with
  | some e =>
    refine .intro_error rfl fun hhas => ?_
    have hvalue : (g b.input).isSome := hhas.value
    rw [hg] at hvalue
    cases hvalue
  | none =>
    have hvalue : g b.input = some y := hg
    refine ((Differences.hinges_directions hbody hwritten hf (a := a)).congr ?_).mono fun _ n' hhas hn' => ?_
    · exact ⟨fun h => ⟨Option.isSome_of_eq_some hvalue, h.1, h.2⟩, fun h => ⟨h.forward, h.adjoint⟩⟩
    · obtain ⟨hbuffers, hfits'⟩ := hn'
      have hsome {o : Option (Block K)} (h : o.isSome = true) : o = some (o.getD #[]) := by
        cases o with
        | none => cases h
        | some z => rfl
      refine ⟨hb ▸ hbuffers ▸ ⟨hvalue, fun k hk => ?_, fun k hk => ?_⟩, hb ▸ hbuffers ▸ ?_, hfits'⟩
      · let sens k := ((Effect.ofBody d.sig g).forward b.input (b.forwardSeed.getD k #[])).getD #[]
        have hlt : k < b.forwardSens.size := Nat.lt_of_lt_of_le hk (hfits.shaped.forward ▸ hf)
        exact (hsome (hhas.forward k hk)).trans (congrArg some (Buffers.getD_firstBlocks hk hlt sens).symm)
      · let sens k := ((Effect.ofBody d.sig g).adjoint b.input (b.adjointSeed.getD k #[])).getD #[]
        have hlt : k < b.adjointSens.size := Nat.lt_of_lt_of_le hk (hfits.shaped.adjoint ▸ ha)
        exact (hsome (hhas.adjoint k hk)).trans (congrArg some (Buffers.getD_firstBlocks hk hlt sens).symm)
      · exact ⟨rfl, rfl, rfl, Array.size_mapIdx, Array.size_mapIdx⟩

end Evaluate

end Fluxion
