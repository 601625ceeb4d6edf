import Fluxion.Proofs.Expr.Grows
import Fluxion.Proofs.Tape.Beside
import Fluxion.Proofs.Tape.SymbolicReplay

/-!
Replays over expressions, over any numbers. Whatever the tape and however the replay ends, what it leaves in the
buffers refers to nodes that are there, in blocks of the sizes that were there.
-/
set_option autoImplicit false

namespace Fluxion.Tape

open Fluxion.Expr

variable {K : Type} [Number K] {roots : List (Expr K)} {t : Tape K} {partials : Array (Expr K × Expr K)}
  {seed sens : Block (Expr K)} {work : Array (Expr K)} {ns ins outs : Array Nat} {dirs : Nat × Nat}

/-! ### Sweeps -/

/-- A sweep whose expressions are there, with sensitivities of the given sizes. -/
structure Sweep.Stands (ns : Array Nat) (roots : List (Expr K)) (s : Sweep (Expr K)) : Prop where
  held : s.Held roots
  sizes : s.sens.sizes = ns

omit [Number K] in
theorem Sweep.Stands.subset {roots' : List (Expr K)} {s : Sweep (Expr K)} (h : s.Stands ns roots)
    (hr : roots ⊆ roots') : s.Stands ns roots' :=
  ⟨⟨fun x hx => (h.held.work x hx).subset hr, h.held.sens.subset hr⟩, h.sizes⟩

omit [Number K] in
theorem Sweep.Stands.write {s : Sweep (Expr K)} (h : s.Stands ns roots) {x : Expr K} (hx : ReachedFrom roots x)
    (i next : Nat) : Sweep.Stands ns roots ⟨s.work.setIfInBounds i x, s.sens, next⟩ :=
  ⟨⟨held_setIfInBounds h.held.work hx i, h.held.sens⟩, h.sizes⟩

omit [Number K] in
theorem Sweep.Stands.put {s : Sweep (Expr K)} (h : s.Stands ns roots) {x : Expr K} (hx : ReachedFrom roots x)
    (i k next : Nat) : Sweep.Stands ns roots ⟨s.work, s.sens.set i k x, next⟩ :=
  ⟨⟨h.held.work, h.held.sens.set hx i k⟩, (Block.sizes_set _ _ _ _).trans h.sizes⟩

theorem grows_mul {x y : Expr K} (hx : ReachedFrom roots x) (hy : ReachedFrom roots y) :
    Grows roots ((Arithmetic.symbolic : Arithmetic K (Expr K) Fresh).mul x y) ReachedFrom :=
  grows_apply .mul rfl hx hy

theorem grows_add {x y : Expr K} (hx : ReachedFrom roots x) (hy : ReachedFrom roots y) :
    Grows roots ((Arithmetic.symbolic : Arithmetic K (Expr K) Fresh).add x y) ReachedFrom :=
  grows_apply .add rfl hx hy

theorem grows_zero : Grows roots (Arithmetic.symbolic : Arithmetic K (Expr K) Fresh).zero ReachedFrom :=
  grows_const _

/-- The derivative of an operation, from those of its operands. -/
theorem grows_slope {left right : Nat} {p q x y : Expr K} {α : Type} {next : Expr K → Fresh α}
    {Q : List (Expr K) → α → Prop} (hp : ReachedFrom roots p) (hq : ReachedFrom roots q)
    (hx : ReachedFrom roots x) (hy : ReachedFrom roots y)
    (hnext : ∀ roots' d, roots ⊆ roots' → ReachedFrom roots' d → Grows roots' (next d) Q) :
    Grows roots
      (if left = right then do
        let d ← Arithmetic.symbolic.mul (← (Arithmetic.symbolic : Arithmetic K _ _).add p q) x
        next d
      else do
        let d ← Arithmetic.symbolic.add (← (Arithmetic.symbolic : Arithmetic K _ _).mul p x)
          (← Arithmetic.symbolic.mul q y)
        next d) Q := by
  split
  · exact .bind (grows_add hp hq) fun _ _ hr hsum => .bind (grows_mul hsum (hx.subset hr)) fun _ d hr' hd =>
      hnext _ d (List.Subset.trans hr hr') hd
  · exact .bind (grows_mul hp hx) fun _ _ hr hleft => .bind (grows_mul (hq.subset hr) (hy.subset hr))
      fun _ _ hr' hright => .bind (grows_add (hleft.subset hr') hright) fun _ d hr'' hd =>
        hnext _ d (List.Subset.trans hr (List.Subset.trans hr' hr'')) hd

theorem grows_clear {s : Sweep (Expr K)} (hs : s.Stands ns roots) (i : Nat) :
    Grows roots (do
      let x ← (Arithmetic.symbolic : Arithmetic K _ _).zero
      return ⟨s.work.setIfInBounds i x, s.sens, s.next⟩) (Sweep.Stands ns) :=
  .bind grows_zero fun _ _ hr hx => .pure ((hs.subset hr).write hx _ _)

theorem grows_forward (hp : Recorded roots partials) (hseed : seed.Held roots) {s : Sweep (Expr K)}
    (hs : s.Stands ns roots) (el : Element K) :
    Grows roots (Sweep.forward .symbolic partials seed s el) (Sweep.Stands ns) := by
  have hwork {i : Nat} {x : Expr K} (hx : s.work[i]? = some x) : ReachedFrom roots x :=
    hs.held.work x (Array.mem_of_getElem? hx)
  cases hop : el.op.isStructural with
  | false =>
    rw [Sweep.forward_eq _ hop]
    split
    · next p q x y hpq hx hy =>
      have hpart := hp (p,q) (Array.mem_of_getElem? hpq)
      exact grows_slope hpart.1 hpart.2 (hwork hx) (hwork hy) fun _ d hr hd => .pure ((hs.subset hr).write hd _ _)
    · exact .pure ⟨⟨hs.held.work, hs.held.sens⟩, hs.sizes⟩
  | true =>
    obtain ⟨op, result, left, right, v⟩ := el
    cases op
    case input =>
      cases hx : seed.get? left right with
      | none =>
        simp only [Sweep.forward, hx]
        exact .pure hs
      | some x =>
        simp only [Sweep.forward, hx]
        exact .pure (hs.write (hseed.get? hx) _ _)
    case output =>
      cases hx : s.work[left]? with
      | none =>
        simp only [Sweep.forward, hx]
        exact .pure hs
      | some x =>
        simp only [Sweep.forward, hx]
        exact .pure (hs.put (hwork hx) _ _ _)
    case const | parameter => exact grows_clear hs result
    all_goals cases hop

theorem grows_accumulate (hw : ∀ x ∈ work, ReachedFrom roots x) (slot : Nat) {d : Fresh (Expr K)}
    (hd : Grows roots d ReachedFrom) : Grows roots (Sweep.accumulate .symbolic work slot d) fun roots' work' =>
      ∀ x ∈ work', ReachedFrom roots' x := by
  cases hx : work[slot]? with
  | none =>
    simp only [Sweep.accumulate, hx]
    exact .pure hw
  | some x =>
    simp only [Sweep.accumulate, hx]
    refine .bind hd fun _ y hr hy => .bind (grows_add ((hw x (Array.mem_of_getElem? hx)).subset hr) hy)
      fun _ z hr' hz => .pure ?_
    exact held_setIfInBounds (fun x hx => ((hw x hx).subset hr).subset hr') hz slot

theorem grows_adjoint_operation (hp : Recorded roots partials) {s : Sweep (Expr K)} (hs : s.Stands ns roots)
    {el : Element K} (hop : el.op.isStructural = false) :
    Grows roots (Sweep.adjoint .symbolic partials seed s el) (Sweep.Stands ns) := by
  rw [Sweep.adjoint_eq _ hop]
  split
  · next p q d hpq hd =>
    have hpart := hp (p,q) (Array.mem_of_getElem? hpq)
    have hheld := hs.held.work d (Array.mem_of_getElem? hd)
    refine .bind grows_zero fun roots' z hr hz => ?_
    have hcleared := (hs.subset hr).write hz el.result (s.next-1)
    split
    · exact .pure hcleared
    · split
      · have hact : Grows roots' (do
            Arithmetic.symbolic.mul (← (Arithmetic.symbolic : Arithmetic K _ _).add p q) d) ReachedFrom :=
          .bind (grows_add (hpart.1.subset hr) (hpart.2.subset hr)) fun _ _ hr' hsum =>
            grows_mul hsum ((hheld.subset hr).subset hr')
        exact .bind (grows_accumulate hcleared.held.work el.left hact) fun _ w hr' hw =>
          .pure ⟨⟨hw, hcleared.held.sens.subset hr'⟩, hcleared.sizes⟩
      · refine .bind (grows_accumulate hcleared.held.work el.left
          (grows_mul (hpart.1.subset hr) (hheld.subset hr))) fun _ w hr' hw => ?_
        refine .bind (grows_accumulate hw el.right (grows_mul ((hpart.2.subset hr).subset hr')
          ((hheld.subset hr).subset hr'))) fun _ v hr'' hv => ?_
        exact .pure ⟨⟨hv, (hcleared.held.sens.subset hr').subset hr''⟩, hcleared.sizes⟩
  · exact .pure ⟨⟨hs.held.work, hs.held.sens⟩, hs.sizes⟩

theorem grows_adjoint (hp : Recorded roots partials) (hseed : seed.Held roots) {s : Sweep (Expr K)}
    (hs : s.Stands ns roots) (el : Element K) :
    Grows roots (Sweep.adjoint .symbolic partials seed s el) (Sweep.Stands ns) := by
  cases hop : el.op.isStructural with
  | false => exact grows_adjoint_operation hp hs hop
  | true =>
    obtain ⟨op, result, left, right, v⟩ := el
    cases op
    case input =>
      cases hx : s.work[result]? with
      | none =>
        simp only [Sweep.adjoint, hx]
        exact .pure hs
      | some x =>
        simp only [Sweep.adjoint, hx]
        have hheld := hs.held.work x (Array.mem_of_getElem? hx)
        exact .bind grows_zero fun _ z hr hz => .pure (((hs.subset hr).write hz _ s.next).put (hheld.subset hr) _ _ _)
    case output =>
      cases hx : seed.get? result right with
      | none =>
        simp only [Sweep.adjoint, hx]
        exact .pure hs
      | some d =>
        simp only [Sweep.adjoint, hx]
        split
        · exact .pure hs
        · exact .bind (grows_accumulate hs.held.work left (.pure (hseed.get? hx))) fun _ w hr hw =>
            .pure ⟨⟨hw, hs.held.sens.subset hr⟩, hs.sizes⟩
    case const | parameter => exact grows_clear hs result
    all_goals cases hop

theorem grows_forwardSweep (hp : Recorded roots partials) (hseed : seed.Held roots)
    (hw : ∀ x ∈ work, ReachedFrom roots x) (hs : sens.Held roots) :
    Grows roots (t.forwardSweep Arithmetic.symbolic partials work seed sens) (Sweep.Stands sens.sizes) := by
  rw [forwardSweep, ← Array.foldlM_toList]
  exact .foldlM (fun roots' s el hr _ hs => grows_forward (hp.subset hr) (hseed.subset hr) hs el) ⟨⟨hw, hs⟩, rfl⟩

theorem grows_zeros (xs : Array (Expr K)) :
    Grows roots (xs.mapM fun _ => (Arithmetic.symbolic : Arithmetic K (Expr K) Fresh).zero) fun roots' zs =>
      (∀ z ∈ zs, ReachedFrom roots' z) ∧ zs.size = xs.size :=
  (Grows.mapM (g := fun _ => ()) (h := fun _ => ()) (fun _ _ _ hr hz => hz.subset hr) fun _ _ _ _ =>
    grows_zero.mono fun _ _ _ hz => ⟨hz, rfl⟩).mono fun _ zs _ h => ⟨h.1, by simpa using congrArg Array.size h.2⟩

theorem grows_zeroBlock (sens : Block (Expr K)) :
    Grows roots (sens.mapM fun v => v.mapM fun _ => (Arithmetic.symbolic : Arithmetic K (Expr K) Fresh).zero)
      fun roots' zs => Block.Held roots' zs ∧ Block.sizes zs = sens.sizes :=
  .mapM (fun _ _ _ hr hv x hx => (hv x hx).subset hr) fun _ v _ _ => grows_zeros v

theorem grows_adjointSweep (hp : Recorded roots partials) (hseed : seed.Held roots)
    (hw : ∀ x ∈ work, ReachedFrom roots x) :
    Grows roots (t.adjointSweep Arithmetic.symbolic partials work seed sens) (Sweep.Stands sens.sizes) := by
  unfold adjointSweep
  refine .bind (grows_zeroBlock sens) fun roots' zs hr hzs => ?_
  rw [← Array.foldrM_toList]
  exact .foldrM (fun roots'' s el hr' _ hs => grows_adjoint ((hp.subset hr).subset hr')
    ((hseed.subset hr).subset hr') hs el) ⟨⟨fun x hx => (hw x hx).subset hr, hzs.1⟩, hzs.2⟩

/-! ### Passes over all directions -/

/-- A replay whose expressions are there, in blocks of the given sizes and in as many directions as `dirs`. -/
structure Replay.Stands (ins outs : Array Nat) (dirs : Nat × Nat) (roots : List (Expr K)) (r : Replay (Expr K)) :
    Prop where
  held : r.Held roots
  shaped : r.buffers.Shaped ins outs
  directions : r.buffers.directions = dirs

omit [Number K] in
/-- The sensitivities of a direction, put back where they were. -/
theorem sizes_putBack {bs : Array (Block (Expr K))} (h : ∀ x ∈ bs, x.sizes = ns) {d : Nat} {x : Block (Expr K)}
    (hx : x.sizes = (bs.getD d #[]).sizes) : ∀ y ∈ bs.setIfInBounds d x, y.sizes = ns := by
  by_cases hd : d < bs.size
  · exact Assemble.mem_setIfInBounds h d (hx.trans (Buffers.sizes_getD h hd))
  · rwa [Array.setIfInBounds_eq_of_size_le (Nat.le_of_not_lt hd)]

namespace Replay.Stands

variable {roots' : List (Expr K)} {r : Replay (Expr K)} {x y : Expr K}

omit [Number K]

theorem subset (h : r.Stands ins outs dirs roots) (hr : roots ⊆ roots') : r.Stands ins outs dirs roots' :=
  ⟨h.held.subset hr, h.shaped, h.directions⟩

theorem write (h : r.Stands ins outs dirs roots) (hx : ReachedFrom roots x) (slot : Nat) :
    (r.write slot x).Stands ins outs dirs roots :=
  ⟨h.held.write hx slot, h.shaped, h.directions⟩

end Replay.Stands

theorem grows_forwardSweeps (n : Nat) {r : Replay (Expr K)} (hr : r.Stands ins outs dirs roots) :
    Grows roots (t.forwardSweeps Arithmetic.symbolic n r) (Replay.Stands ins outs dirs) := by
  refine .foldlM (fun roots' r d _ _ hr => ?_) hr
  obtain ⟨work, partials, b⟩ := r
  have hb : b.Held roots' := hr.held.buffers
  have hshaped : b.Shaped ins outs := hr.shaped
  refine .bind (grows_forwardSweep hr.held.partials (held_getD hb.forwardSeed d) hr.held.work
    (held_getD hb.forwardSens d)) fun roots'' s hr' hs =>
      .pure ⟨(hr.held.subset hr').setForwardSens hs.held d, ?_, hr.directions⟩
  exact ⟨hshaped.input, hshaped.output, hshaped.forwardSeed, sizes_putBack hshaped.forwardSens hs.sizes,
    hshaped.adjointSeed, hshaped.adjointSens, Array.size_setIfInBounds.trans hshaped.forward, hshaped.adjoint⟩

theorem grows_adjointSweeps (n : Nat) {r : Replay (Expr K)} (hr : r.Stands ins outs dirs roots) :
    Grows roots (t.adjointSweeps Arithmetic.symbolic n r) (Replay.Stands ins outs dirs) := by
  unfold adjointSweeps
  split
  · exact .pure hr
  obtain ⟨work, partials, b⟩ := r
  refine .bind (grows_zeros work) fun roots' zs hr' hzs => ?_
  refine .foldlM (fun roots'' r d hr'' _ hr => ?_)
    ⟨⟨hzs.1, hr.held.partials.subset hr', held_subset hr.held.buffers hr'⟩, hr.shaped, hr.directions⟩
  obtain ⟨work, partials, b⟩ := r
  have hb : b.Held roots'' := hr.held.buffers
  have hshaped : b.Shaped ins outs := hr.shaped
  refine .bind (grows_adjointSweep hr.held.partials (held_getD hb.adjointSeed d) hr.held.work)
    fun roots₃ s hr' hs => .pure ⟨(hr.held.subset hr').setAdjointSens hs.held d, ?_, hr.directions⟩
  exact ⟨hshaped.input, hshaped.output, hshaped.forwardSeed, hshaped.forwardSens, hshaped.adjointSeed,
    sizes_putBack hshaped.adjointSens hs.sizes, hshaped.forward, Array.size_setIfInBounds.trans hshaped.adjoint⟩

theorem attempts_operation (taping : Bool) {r : Replay (Expr K)} (hr : r.Stands ins outs dirs roots)
    {el : Element K} (hop : el.op.isStructural = false) :
    Attempts roots (r.step Arithmetic.symbolic t taping el) (Replay.Stands ins outs dirs) := by
  obtain ⟨work, partials, b⟩ := r
  have hwork {i : Nat} {x : Expr K} (hx : work[i]? = some x) : ReachedFrom roots x :=
    hr.held.work x (Array.mem_of_getElem? hx)
  rw [Replay.step_eq _ hop]
  split
  · next x y hx hy =>
    refine .bind (.lift (grows_apply _ hop (hwork hx) (hwork hy))) fun roots' z hr' hz => ?_
    have hwritten := (hr.subset hr').write hz el.result
    split
    · refine .bind (.lift (grows_partials el.op ((hwork hx).subset hr') ((hwork hy).subset hr') hz))
        fun roots'' p? hr'' hp => ?_
      split
      · next p =>
        have hboth := hp p rfl
        exact .pure ⟨(hwritten.subset hr'').held.record hboth.1 hboth.2, hr.shaped, hr.directions⟩
      · exact .throw
    · exact .pure hwritten
  · exact .throw

/-- One element of the forward pass; the free symbols of the tape are there. An output that was stored has its
place. -/
theorem attempts_step (hfree : ∀ s ∈ t.free, ReachedFrom roots (.symbol s)) (taping : Bool) {r : Replay (Expr K)}
    (hr : r.Stands ins outs dirs roots) (el : Element K) :
    Attempts roots (r.step Arithmetic.symbolic t taping el) fun roots' r' => r'.Stands ins outs dirs roots' ∧
      (el.op = .output → el.right < outs.getD el.result 0) := by
  cases hop : el.op.isStructural with
  | false =>
    refine (attempts_operation taping hr hop).mono fun _ _ _ h => ⟨h, fun hout => ?_⟩
    rw [hout] at hop
    cases hop
  | true =>
    obtain ⟨work, partials, b⟩ := r
    have hshaped : b.Shaped ins outs := hr.shaped
    obtain ⟨op, result, left, right, v⟩ := el
    cases op
    case input =>
      cases hx : b.input.get? left right with
      | none =>
        simp only [Replay.step, hx]
        exact .throw
      | some x =>
        simp only [Replay.step, hx]
        exact .pure ⟨hr.write (hr.held.buffers.input.get? hx) result, fun h => by cases h⟩
    case output =>
      simp only [Replay.step]
      split
      · next x y hx hy =>
        have hplace : right < outs.getD result 0 := by
          obtain ⟨n, hn, hlt⟩ := (Block.get?_isSome hshaped.output).mp (Option.isSome_iff_exists.mpr ⟨y, hy⟩)
          rwa [Array.getD_eq_getD_getElem?, hn]
        exact .pure ⟨⟨hr.held.store (hr.held.work x (Array.mem_of_getElem? hx)) _ _,
          hshaped.withOutput ((Block.sizes_set _ _ _ _).trans hshaped.output), hr.directions⟩, fun _ => hplace⟩
      · exact .throw
    case const =>
      exact .bind (.lift (grows_const v)) fun roots' x hr' hx =>
        .pure ⟨(hr.subset hr').write hx result, fun h => by cases h⟩
    case parameter =>
      simp only [Replay.step]
      split
      · next x hx =>
        obtain ⟨s, hs, hxs⟩ := Option.bind_eq_some_iff.mp hx
        obtain rfl : Expr.symbol s = x := Option.some.inj hxs
        exact .pure ⟨hr.write (hfree s (Array.mem_of_getElem? hs)) result, fun h => by cases h⟩
      · exact .throw
    all_goals cases hop

/-- A replay that ends leaves all its expressions in place, and had a place for every output. -/
theorem attempts_evaluate (hfree : ∀ s ∈ t.free, ReachedFrom roots (.symbol s)) {b : Buffers (Expr K)}
    (hb : b.Held roots) (hshaped : b.Shaped ins outs) (f a : Nat) :
    Attempts roots (t.evaluate Arithmetic.symbolic b f a) fun roots' c => c.Held roots' ∧ c.Shaped ins outs ∧
      c.directions = b.directions ∧ t.storesWithin outs = true := by
  have hpass : Attempts roots (t.forwardPass Arithmetic.symbolic (0 < f || 0 < a) b) fun roots' r =>
      r.Stands ins outs b.directions roots' ∧ ∀ el ∈ t.elements.toList, el.op = .output →
        el.right < outs.getD el.result 0 := by
    refine .bind (.lift grows_zero) fun roots' z hr hz => ?_
    rw [← Array.foldlM_toList]
    refine .foldlM (fun roots'' r el hr' _ h => attempts_step (fun s hs => ((hfree s hs).subset hr).subset hr') _ h el)
      ⟨⟨fun x hx => ?_, fun p hp => absurd hp (by simp), held_subset hb hr⟩, hshaped, rfl⟩
    rwa [(Array.mem_replicate.mp hx).2]
  refine .bind hpass fun _ r _ hr => ?_
  refine .bind (.lift (grows_forwardSweeps f hr.1)) fun _ r' _ hr' => ?_
  refine .bind (.lift (grows_adjointSweeps a hr')) fun _ r'' _ hr'' => .pure ⟨hr''.held.buffers, hr''.shaped,
    hr''.directions, ?_⟩
  rw [storesWithin, Array.all_eq_true']
  intro el hel
  by_cases hop : el.op = .output
  · simpa [hop] using hr.2 el (Array.mem_toList_iff.mpr hel) hop
  · simp [hop]

end Fluxion.Tape
