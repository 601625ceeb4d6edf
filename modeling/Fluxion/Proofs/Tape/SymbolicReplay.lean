import Fluxion.Proofs.Expr.Returns
import Fluxion.Proofs.Tape.Symbolic

/-!
Whole replays over expressions. Sweeps and passes follow the numeric ones over the values, so a replay leaves
buffers whose expressions have the values that a numeric evaluation leaves.
-/
set_option autoImplicit false

namespace Fluxion

variable {K R T U : Type}

namespace Tape

section Replays

open Fluxion.Expr

variable [CommRing K] [Number K] [ExactRing K] [CommRing R] [Number R] [ExactRing R]
  {ok : Op → Prop} {symbols roots : List (Expr K)} {f : K →+* R} {ρ : Symbol → R} {t : Tape K}
  {partials : Array (Expr K × Expr K)} {seed sens : Block (Expr K)} {work : Array (Expr K)}

omit [CommRing K] [Number K] [ExactRing K] in
theorem Recorded.subset {roots' : List (Expr K)} (h : Recorded roots partials) (hr : roots ⊆ roots') :
    Recorded roots' partials :=
  fun p hp => ⟨(h p hp).1.subset hr, (h p hp).2.subset hr⟩

theorem yields_forwardSweep (hf : Reading ok f) (hp : Recorded roots partials) (hseed : seed.Held roots)
    (hw : ∀ x ∈ work, ReachedFrom roots x) (hs : sens.Held roots) :
    Yields ok symbols roots (t.forwardSweep Arithmetic.symbolic partials work seed sens)
      (Sweep.Mirrors (meaning f ρ) ((t.map f).forwardSweep Arithmetic.numeric
        (partials.map (Prod.map (meaning f ρ) (meaning f ρ))) (work.map (meaning f ρ))
        (seed.image (meaning f ρ)) (sens.image (meaning f ρ)))) := by
  have hloop : Yields ok symbols roots
      (t.elements.toList.foldlM (Sweep.forward Arithmetic.symbolic partials seed) ⟨work, sens, 0⟩)
      fun roots' s => s.Held roots' ∧
        (t.elements.toList.map (Element.map f)).foldlM (Sweep.forward Arithmetic.numeric
          (partials.map (Prod.map (meaning f ρ) (meaning f ρ))) (seed.image (meaning f ρ)))
          (Sweep.image (meaning f ρ) ⟨work, sens, 0⟩) = (pure (s.image (meaning f ρ)) : Id (Sweep R)) :=
    yields_foldlM (fun roots' s el hr _ hs =>
      yields_forward hf (hp.subset hr) (hseed.subset hr) hs el) ⟨hw, hs⟩
  rw [forwardSweep, forwardSweep, ← Array.foldlM_toList, ← Array.foldlM_toList, Tape.map, Array.toList_map]
  exact hloop

omit [ExactRing R] in
theorem yields_zeros (f : K →+* R) (ρ : Symbol → R) (xs : Array (Expr K)) :
    Yields ok symbols roots (xs.mapM fun _ => (Arithmetic.symbolic : Arithmetic K _ _).zero)
      fun roots' ys => (∀ y ∈ ys, ReachedFrom roots' y) ∧ ys.map (meaning f ρ) = xs.map fun _ => 0 :=
  yields_mapM (fun _ _ _ hr hx => ReachedFrom.subset hx hr) fun _ _ _ _ => yields_zero f ρ

omit [ExactRing R] in
theorem yields_zeroBlock (f : K →+* R) (ρ : Symbol → R) (sens : Block (Expr K)) :
    Yields ok symbols roots
      (sens.mapM fun v => v.mapM fun _ => (Arithmetic.symbolic : Arithmetic K _ _).zero) fun roots' b =>
        Block.Held roots' b ∧ Block.image (meaning f ρ) b = sens.map (·.map fun _ => 0) :=
  yields_mapM (fun _ _ _ hr hv x hx => (hv x hx).subset hr) fun _ v _ _ => yields_zeros f ρ v

theorem yields_adjointSweep (hf : Reading ok f) (hp : Recorded roots partials) (hseed : seed.Held roots)
    (hw : ∀ x ∈ work, ReachedFrom roots x) :
    Yields ok symbols roots (t.adjointSweep Arithmetic.symbolic partials work seed sens)
      (Sweep.Mirrors (meaning f ρ) ((t.map f).adjointSweep Arithmetic.numeric
        (partials.map (Prod.map (meaning f ρ) (meaning f ρ))) (work.map (meaning f ρ))
        (seed.image (meaning f ρ)) (sens.image (meaning f ρ)))) := by
  rw [adjointSweep, adjointSweep, clear_eq, pure_bind]
  refine .bind (yields_zeroBlock f ρ sens) fun roots' zeros hr hz => ?_
  have hloop : Yields ok symbols roots'
      (t.elements.toList.foldrM (fun el s => Sweep.adjoint Arithmetic.symbolic partials seed s el)
        ⟨work, zeros, partials.size⟩)
      fun roots' s => s.Held roots' ∧
        (t.elements.toList.map (Element.map f)).foldrM (fun el s => Sweep.adjoint Arithmetic.numeric
          (partials.map (Prod.map (meaning f ρ) (meaning f ρ))) (seed.image (meaning f ρ)) s el)
          (Sweep.image (meaning f ρ) ⟨work, zeros, partials.size⟩) =
          (pure (s.image (meaning f ρ)) : Id (Sweep R)) :=
    yields_foldrM (fun roots'' s el hr' _ hs => yields_adjoint hf
      (hp.subset (List.Subset.trans hr hr')) (hseed.subset (List.Subset.trans hr hr')) hs el)
      ⟨fun x hx => (hw x hx).subset hr, hz.1⟩
  rw [← Array.foldrM_toList, ← Array.foldrM_toList, Tape.map, Array.toList_map]
  refine hloop.mono fun roots'' s _ hs => ⟨hs.1, ?_⟩
  rw [← hs.2, Sweep.image, hz.2]
  simp [Block.image, Function.comp_def]

/-- Everything in a replay is there. -/
structure Replay.Held (roots : List (Expr K)) (r : Replay (Expr K)) : Prop where
  work : ∀ x ∈ r.work, ReachedFrom roots x
  partials : Recorded roots r.partials
  buffers : r.buffers.Held roots

omit [CommRing K] [Number K] [ExactRing K] in
theorem held_getD {bs : Array (Block (Expr K))} (h : ∀ x ∈ bs, x.Held roots) (d : Nat) :
    (bs.getD d #[]).Held roots := by
  rw [Array.getD_eq_getD_getElem?]
  cases hd : bs[d]? with
  | none => simp [Block.Held]
  | some b => exact h b (Array.mem_of_getElem? hd)

omit [CommRing K] [Number K] [ExactRing K] in
theorem held_setIfInBounds_block {bs : Array (Block (Expr K))} (h : ∀ x ∈ bs, x.Held roots)
    {b : Block (Expr K)} (hb : b.Held roots) (d : Nat) : ∀ x ∈ bs.setIfInBounds d b, x.Held roots := by
  intro x hx
  obtain hx | rfl := Array.mem_or_eq_of_mem_setIfInBounds hx
  · exact h x hx
  · exact hb

omit [CommRing K] [Number K] [ExactRing K] [CommRing R] [Number R] [ExactRing R] in
theorem getD_image (g : T → U) (bs : Array (Block T)) (d : Nat) :
    (bs.map (Block.image g)).getD d #[] = (bs.getD d #[]).image g := by
  cases hd : bs[d]? <;> simp [Array.getD_eq_getD_getElem?, hd, Block.image]

omit [CommRing K] [Number K] [ExactRing K] in
theorem Block.Held.subsets {roots' : List (Expr K)} {bs : Array (Block (Expr K))}
    (h : ∀ x ∈ bs, x.Held roots) (hr : roots ⊆ roots') : ∀ x ∈ bs, x.Held roots' :=
  fun x hx => (h x hx).subset hr

omit [CommRing K] [Number K] [ExactRing K] in
theorem held_subset {roots' : List (Expr K)} {b : Buffers (Expr K)} (h : b.Held roots)
    (hr : roots ⊆ roots') : b.Held roots' :=
  ⟨h.input.subset hr, h.output.subset hr, Block.Held.subsets h.forwardSeed hr,
    Block.Held.subsets h.forwardSens hr, Block.Held.subsets h.adjointSeed hr,
    Block.Held.subsets h.adjointSens hr⟩

namespace Replay.Held

variable {roots' : List (Expr K)} {work : Array (Expr K)} {partials : Array (Expr K × Expr K)} {b : Buffers (Expr K)}
  {x y : Expr K}

omit [CommRing K] [Number K] [ExactRing K]

theorem subset {s : Replay (Expr K)} (h : s.Held roots) (hr : roots ⊆ roots') : s.Held roots' :=
  ⟨fun x hx => (h.work x hx).subset hr, h.partials.subset hr, held_subset h.buffers hr⟩

theorem write {s : Replay (Expr K)} (h : s.Held roots) (hx : ReachedFrom roots x) (slot : Nat) :
    (s.write slot x).Held roots :=
  ⟨held_setIfInBounds h.work hx slot, h.partials, h.buffers⟩

theorem record (h : Replay.Held roots ⟨work, partials, b⟩) (hx : ReachedFrom roots x) (hy : ReachedFrom roots y) :
    Replay.Held roots ⟨work, partials.push (x,y), b⟩ :=
  ⟨h.work, Array.forall_mem_push.mpr ⟨⟨hx, hy⟩, h.partials⟩, h.buffers⟩

theorem store (h : Replay.Held roots ⟨work, partials, b⟩) (hx : ReachedFrom roots x) (i k : Nat) :
    Replay.Held roots ⟨work, partials, {b with output := b.output.set i k x}⟩ :=
  ⟨h.work, h.partials, h.buffers.input, h.buffers.output.set hx i k, h.buffers.forwardSeed, h.buffers.forwardSens,
    h.buffers.adjointSeed, h.buffers.adjointSens⟩

/-- After a sweep of a direction its sensitivities are those of the sweep. -/
theorem setForwardSens (h : Replay.Held roots ⟨work, partials, b⟩) {s : Sweep (Expr K)} (hs : s.Held roots) (d : Nat) :
    Replay.Held roots ⟨s.work, partials, {b with forwardSens := b.forwardSens.setIfInBounds d s.sens}⟩ :=
  ⟨hs.work, h.partials, h.buffers.input, h.buffers.output, h.buffers.forwardSeed,
    held_setIfInBounds_block h.buffers.forwardSens hs.sens d, h.buffers.adjointSeed, h.buffers.adjointSens⟩

theorem setAdjointSens (h : Replay.Held roots ⟨work, partials, b⟩) {s : Sweep (Expr K)} (hs : s.Held roots) (d : Nat) :
    Replay.Held roots ⟨s.work, partials, {b with adjointSens := b.adjointSens.setIfInBounds d s.sens}⟩ :=
  ⟨hs.work, h.partials, h.buffers.input, h.buffers.output, h.buffers.forwardSeed, h.buffers.forwardSens,
    h.buffers.adjointSeed, held_setIfInBounds_block h.buffers.adjointSens hs.sens d⟩

end Replay.Held

theorem yields_forwardSweeps (hf : Reading ok f) (n : Nat) {r : Replay (Expr K)} (hr : r.Held roots) :
    Yields ok symbols roots (t.forwardSweeps Arithmetic.symbolic n r) fun roots' r' =>
      r'.Held roots' ∧ (t.map f).forwardSweeps Arithmetic.numeric n (r.image (meaning f ρ)) =
        (pure (r'.image (meaning f ρ)) : Id (Replay R)) := by
  refine yields_range (fun roots' r d _ hr => ?_) hr
  obtain ⟨work, partials, buffers⟩ := r
  refine .bind (yields_forwardSweep (ρ := ρ) hf hr.partials (held_getD hr.buffers.forwardSeed d)
    hr.work (held_getD hr.buffers.forwardSens d)) fun roots'' s hr' hs =>
      .pure ⟨(hr.subset hr').setForwardSens hs.1 d, ?_⟩
  simp only [Replay.image, Buffers.image, getD_image, hs.2, pure_bind, Sweep.image, Array.map_setIfInBounds]

theorem yields_adjointSweeps (hf : Reading ok f) (n : Nat) {r : Replay (Expr K)} (hr : r.Held roots) :
    Yields ok symbols roots (t.adjointSweeps Arithmetic.symbolic n r) fun roots' r' =>
      r'.Held roots' ∧ (t.map f).adjointSweeps Arithmetic.numeric n (r.image (meaning f ρ)) =
        (pure (r'.image (meaning f ρ)) : Id (Replay R)) := by
  unfold adjointSweeps
  split
  · exact .pure ⟨hr, rfl⟩
  · obtain ⟨work, partials, buffers⟩ := r
    refine .bind (yields_zeros f ρ work) fun roots' cleared hr' hc => ?_
    have hclear : ((work.map (meaning f ρ)).mapM fun _ => (Arithmetic.numeric : Arithmetic R R Id).zero) =
        (pure (cleared.map (meaning f ρ)) : Id (Array R)) := by
      rw [hc.2]
      simp [Arithmetic.numeric_zero, Function.comp_def]
    have hstart : Replay.Held roots' ⟨cleared, partials, buffers⟩ :=
      ⟨hc.1, hr.partials.subset hr', held_subset hr.buffers hr'⟩
    have himage : Replay.image (meaning f ρ) ⟨work, partials, buffers⟩ =
        ⟨work.map (meaning f ρ), partials.map (Prod.map (meaning f ρ) (meaning f ρ)),
          buffers.image (meaning f ρ)⟩ := rfl
    rw [himage]
    simp only [hclear, pure_bind]
    refine yields_range (m := Id) (g := Replay.image (meaning f ρ)) (fun roots' r d _ hr => ?_) hstart
    obtain ⟨work, partials, buffers⟩ := r
    refine .bind (yields_adjointSweep (ρ := ρ) hf hr.partials (held_getD hr.buffers.adjointSeed d)
      hr.work) fun roots'' s hr' hs => .pure ⟨(hr.subset hr').setAdjointSens hs.1 d, ?_⟩
    simp only [Replay.image, Buffers.image, getD_image, hs.2, pure_bind, Sweep.image, Array.map_setIfInBounds]

/-- The derivatives of an operation are made, and have the values of the numeric ones. -/
def Derives (ok : Op → Prop) (symbols : List (Expr K)) (f : K →+* R) (ρ : Symbol → R) (op : Op) : Prop :=
  ∀ roots a b r, ReachedFrom roots a → ReachedFrom roots b → ReachedFrom roots r →
    Yields ok symbols roots ((Arithmetic.symbolic : Arithmetic K _ _).partials op a b r) fun roots' p? =>
      ∃ p, p? = some p ∧ ReachedFrom roots' p.1 ∧ ReachedFrom roots' p.2 ∧
        (Arithmetic.numeric : Arithmetic R R Id).partials op (a.meaning f ρ) (b.meaning f ρ)
          (r.meaning f ρ) = pure (some (Prod.map (meaning f ρ) (meaning f ρ) p))

theorem derives_rational (hf : Reading ok f) {op : Op} (hop : op.isRational = true) (hok : ok op) :
    Derives ok symbols f ρ op := by
  intro roots a b r ha hb hr
  have hone (roots : List (Expr K)) : Yields ok symbols roots Arithmetic.symbolic.one
      (Denotes (meaning f ρ) 1) := yields_one f ρ
  have hzero (roots : List (Expr K)) : Yields ok symbols roots Arithmetic.symbolic.zero
      (Denotes (meaning f ρ) 0) := yields_zero f ρ
  have held {x : Expr K} (hx : ReachedFrom roots x) : Denotes (meaning f ρ) (x.meaning f ρ) roots x :=
    ⟨hx, rfl⟩
  cases op
  case add =>
    refine .bind (hone _) fun _ x h₁ hx => .bind (hone _) fun _ y h₂ hy =>
      .pure ⟨(x,y), rfl, hx.1.subset h₂, hy.1, ?_⟩
    simp [Arithmetic.partials, Arithmetic.numeric_one, hx.2, hy.2]
  case sub =>
    refine .bind (hone _) fun _ x h₁ hx => .bind (hone _) fun _ z h₂ hz =>
      .bind (yields_neg hf hz) fun _ y h₃ hy => .pure ⟨(x,y), rfl, (hx.1.subset h₂).subset h₃, hy.1, ?_⟩
    simp [Arithmetic.partials, Arithmetic.numeric_one, Arithmetic.numeric_neg, hx.2, hy.2]
  case mul => exact .pure ⟨(b,a), rfl, hb, ha, rfl⟩
  case div =>
    refine .bind (hone _) fun _ w h₁ hw => .bind (yields_div hf hok hw ((held hb).subset h₁))
      fun _ x h₂ hx => .bind (yields_div hf hok (((held hr).subset h₁).subset h₂)
        (((held hb).subset h₁).subset h₂)) fun _ z h₃ hz =>
      .bind (yields_neg hf hz) fun _ y h₄ hy => .pure ⟨(x,y), rfl, (hx.1.subset h₃).subset h₄, hy.1, ?_⟩
    simp [Arithmetic.partials, Arithmetic.numeric_one, Arithmetic.numeric_div, Arithmetic.numeric_neg,
      hx.2, hy.2]
  case neg =>
    refine .bind (hone _) fun _ z h₁ hz => .bind (yields_neg hf hz) fun _ x h₂ hx =>
      .bind (hzero _) fun _ y h₃ hy => .pure ⟨(x,y), rfl, hx.1.subset h₃, hy.1, ?_⟩
    simp [Arithmetic.partials, Arithmetic.numeric_one, Arithmetic.numeric_neg, Arithmetic.numeric_zero,
      hx.2, hy.2]
  case recip =>
    refine .bind (yields_mul hf (held hr) (held hr)) fun _ z h₁ hz => .bind (yields_neg hf hz)
      fun _ x h₂ hx => .bind (hzero _) fun _ y h₃ hy => .pure ⟨(x,y), rfl, hx.1.subset h₃, hy.1, ?_⟩
    simp [Arithmetic.partials, Arithmetic.numeric_mul, Arithmetic.numeric_neg, Arithmetic.numeric_zero,
      hx.2, hy.2]
  case sq =>
    refine .bind (yields_two f ρ) fun _ z h₁ hz => .bind (yields_mul hf hz ((held ha).subset h₁))
      fun _ x h₂ hx => .bind (hzero _) fun _ y h₃ hy => .pure ⟨(x,y), rfl, hx.1.subset h₃, hy.1, ?_⟩
    simp [Arithmetic.partials, Arithmetic.numeric_two, Arithmetic.numeric_mul, Arithmetic.numeric_zero,
      hx.2, hy.2]
  all_goals cases hop

variable {taping : Bool} {s : Replay (Expr K)} {el : Element K} {s' : Replay R}

theorem returns_operation (hf : Reading ok f) (hop : el.op.isStructural = false) (hok : ok el.op)
    (hd : taping = true → Derives ok symbols f ρ el.op) (hunary : el.op.arity = 1 → el.left = el.right)
    (hs : s.Held roots)
    (hnum : (s.image (meaning f ρ)).step Arithmetic.numeric (t.map f) taping (el.map f) =
      (pure s' : ExceptT (Stopped R) Id (Replay R))) :
    Returns ok symbols roots (s.step Arithmetic.symbolic t taping el) fun roots' r =>
      r.Held roots' ∧ r.image (meaning f ρ) = s' := by
  have hop' : (el.map f).op.isStructural = false := hop
  obtain ⟨work, partials, buffers⟩ := s
  rw [Replay.step_eq Arithmetic.symbolic hop]
  rw [Replay.step_eq Arithmetic.numeric hop'] at hnum
  simp only [Replay.image, Array.getElem?_map, Element.left_map, Element.right_map, Element.op_map,
    Element.result_map] at hnum
  -- The numeric step returned, so both operands are there.
  cases hx : work[el.left]? with
  | none =>
    rw [hx] at hnum
    cases hnum
  | some x =>
    cases hy : work[el.right]? with
    | none =>
      rw [hx, hy] at hnum
      cases hnum
    | some y =>
      rw [hx, hy] at hnum
      simp only [Option.map_some] at hnum
      have happly : (Arithmetic.numeric : Arithmetic R R Id).apply el.op (x.meaning f ρ) (y.meaning f ρ) =
          pure (Number.eval el.op (x.meaning f ρ) (y.meaning f ρ)) := rfl
      rw [happly, liftM_pure, pure_bind] at hnum
      have hxh := hs.work x (Array.mem_of_getElem? hx)
      have hyh := hs.work y (Array.mem_of_getElem? hy)
      have hxy : el.op.arity = 1 → x = y := fun h => Option.some.inj (by rw [← hx, ← hy, hunary h])
      refine .bind (.lift (yields_apply (ρ := ρ) hf hop hok hxh hyh hxy)) fun roots' r hr hval => ?_
      have hwritten := (hs.subset hr).write hval.1 el.result
      cases taping with
      | false =>
        obtain rfl := Except.ok.inj hnum
        refine .pure ⟨hwritten, ?_⟩
        simp only [Replay.image, Replay.write, Array.map_setIfInBounds, hval.2]
      | true =>
        have hparts := hd rfl roots' x y r (hxh.subset hr) (hyh.subset hr) hval.1
        refine .bind (.lift hparts) fun roots'' p? hr' hpart => ?_
        obtain ⟨p, rfl, hp, hq, hpnum⟩ := hpart
        rw [← hval.2, hpnum, liftM_pure, pure_bind] at hnum
        obtain rfl := Except.ok.inj hnum
        refine .pure ⟨(hwritten.subset hr').record hp hq, ?_⟩
        simp only [Replay.image, Array.map_setIfInBounds, Array.map_push]

theorem returns_step (hf : Reading ok f) (hok : el.op.isStructural = false → ok el.op)
    (hd : taping = true → el.op.isStructural = false → Derives ok symbols f ρ el.op)
    (hunary : el.op.isStructural = false → el.op.arity = 1 → el.left = el.right) (hs : s.Held roots)
    (hnum : (s.image (meaning f ρ)).step Arithmetic.numeric (t.map f) taping (el.map f) =
      (pure s' : ExceptT (Stopped R) Id (Replay R))) :
    Returns ok symbols roots (s.step Arithmetic.symbolic t taping el) fun roots' r =>
      r.Held roots' ∧ r.image (meaning f ρ) = s' := by
  cases hop : el.op.isStructural with
  | false => exact returns_operation hf hop (hok hop) (fun h => hd h hop) (hunary hop) hs hnum
  | true =>
    obtain ⟨op, result, left, right, v⟩ := el
    obtain ⟨work, partials, buffers⟩ := s
    cases op
    case input =>
      cases hx : buffers.input.get? left right with
      | none =>
        simp only [Replay.step, Element.map, Replay.image, Buffers.image, Block.get?_image, hx] at hnum
        cases hnum
      | some x =>
        simp only [Replay.step, Element.map, Replay.image, Buffers.image, Block.get?_image, hx] at hnum ⊢
        obtain rfl := Except.ok.inj hnum
        refine .pure ⟨hs.write (hs.buffers.input.get? hx) _, ?_⟩
        simp [Replay.write, Array.map_setIfInBounds]
    case output =>
      cases hx : work[left]? with
      | none =>
        simp only [Replay.step, Element.map, Replay.image, Array.getElem?_map, hx] at hnum
        cases hnum
      | some x =>
        cases hy : buffers.output.get? result right with
        | none =>
          simp only [Replay.step, Element.map, Replay.image, Buffers.image, Array.getElem?_map, hx,
            Block.get?_image, hy] at hnum
          cases hnum
        | some y =>
          simp only [Replay.step, Element.map, Replay.image, Buffers.image, Array.getElem?_map, hx,
            Block.get?_image, hy] at hnum ⊢
          obtain rfl := Except.ok.inj hnum
          refine .pure ⟨hs.store (hs.work x (Array.mem_of_getElem? hx)) _ _, ?_⟩
          simp [Block.image_set]
    case const =>
      obtain rfl := Except.ok.inj hnum
      refine .bind (.lift (yields_newConst (f := f) (ρ := ρ) v)) fun roots' x hr hx =>
        .pure ⟨(hs.subset hr).write hx.1 result, ?_⟩
      simp [Replay.image, Replay.write, Array.map_setIfInBounds, hx.2]
      rfl
    case parameter =>
      -- The numeric replay stops at a free symbol, whatever it is.
      have hnone : (Tape.map f t).free[left]?.bind (Arithmetic.numeric : Arithmetic R R Id).free = none := by
        cases (Tape.map f t).free[left]? <;> rfl
      simp only [Replay.step, Element.map, hnone] at hnum
      cases hnum
    all_goals cases hop

/-- Operations that are `ok`, with their one operand twice if they are unary. -/
structure Admits (ok : Op → Prop) (t : Tape K) : Prop where
  op : ∀ el ∈ t.elements, el.op.isStructural = false → ok el.op
  unary : ∀ el ∈ t.elements, el.op.isStructural = false → el.op.arity = 1 → el.left = el.right

theorem returns_forwardPass (hf : Reading ok f) (ht : t.Admits ok)
    (hd : taping = true → ∀ op, op.isStructural = false → ok op → Derives ok symbols f ρ op)
    {b : Buffers (Expr K)} (hb : b.Held roots)
    (hnum : (t.map f).forwardPass Arithmetic.numeric taping (b.image (meaning f ρ)) =
      (pure s' : ExceptT (Stopped R) Id (Replay R))) :
    Returns ok symbols roots (t.forwardPass Arithmetic.symbolic taping b) fun roots' r =>
      r.Held roots' ∧ r.image (meaning f ρ) = s' := by
  have helements : (t.map f).elements.toList = t.elements.toList.map (Element.map f) := Array.toList_map
  rw [forwardPass, Arithmetic.numeric_zero, liftM_pure, pure_bind, ← Array.foldlM_toList, helements] at hnum
  rw [forwardPass]
  refine .bind (.lift (yields_zero f ρ)) fun roots' z hr hz => ?_
  have hstart : Replay.Held roots' ⟨.replicate t.worksize z, #[], b⟩ :=
    ⟨fun x hx => (Array.mem_replicate.mp hx).2 ▸ hz.1, by simp [Recorded], held_subset hb hr⟩
  rw [← Array.foldlM_toList]
  refine returns_foldlM (g := Replay.image (meaning f ρ)) (h := Element.map f)
    (fun roots'' s el s' _ hel hs hstep => returns_step hf (ht.op el (by simpa using hel))
      (fun htape hop => hd htape el.op hop (ht.op el (by simpa using hel) hop))
      (ht.unary el (by simpa using hel)) hs hstep) hstart ?_
  rw [← hnum]
  simp [Replay.image, hz.2]
  rfl

/-- A replay over expressions returns when the numeric replay over their values does, and what it makes has
the values that the numeric one computes. -/
theorem returns_evaluate (hf : Reading ok f) (ht : t.Admits ok)
    (hd : ∀ op, op.isStructural = false → ok op → Derives ok symbols f ρ op)
    {b : Buffers (Expr K)} (hb : b.Held roots) {n m : Nat} {b' : Buffers R}
    (hnum : (t.map f).evaluate Arithmetic.numeric (b.image (meaning f ρ)) n m =
      (pure b' : ExceptT (Stopped R) Id (Buffers R))) :
    Returns ok symbols roots (t.evaluate Arithmetic.symbolic b n m) fun roots' c =>
      c.Held roots' ∧ c.image (meaning f ρ) = b' := by
  rw [evaluate] at hnum
  obtain ⟨r, hpass, hnum⟩ := exists_of_bind_eq_pure hnum
  refine .bind (returns_forwardPass hf ht (fun _ => hd) hb hpass) fun roots₁ r₁ h₁ hvalues => ?_
  obtain ⟨hheld₁, himage₁⟩ := hvalues
  refine .bind (.lift (yields_forwardSweeps (ρ := ρ) hf n hheld₁)) fun roots₂ r₂ h₂ hforward => ?_
  obtain ⟨hheld₂, hnum₂⟩ := hforward
  refine .bind (.lift (yields_adjointSweeps (ρ := ρ) hf m hheld₂)) fun roots₃ r₃ h₃ hadjoint => ?_
  obtain ⟨hheld₃, hnum₃⟩ := hadjoint
  rw [← himage₁, hnum₂, liftM_pure, pure_bind, hnum₃, liftM_pure, pure_bind] at hnum
  obtain rfl := Except.ok.inj hnum
  exact .pure ⟨hheld₃.buffers, rfl⟩

end Replays

end Tape

end Fluxion
