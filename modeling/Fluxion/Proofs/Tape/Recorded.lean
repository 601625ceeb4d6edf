import Fluxion.Proofs.Tape.Against
import Fluxion.Proofs.Tape.Along

/-!
Evaluations of a tape, over numbers of which nothing is known. A pass stores the outputs and records
derivatives; every direction then has the sensitivities of its own seed.
-/
set_option autoImplicit false

namespace Fluxion.Tape

variable {K : Type} [Number K] {inputs outputs : Array (Matrix (Expr K))}
  {places : Std.HashMap Nat (Nat × Nat)} {l l₁ l₂ : List (Node K)} {slot : Nat → Nat} {t : Tape K}
  {partials : Array (K × K)} {ins outs : Array Nat}

/-! ### The pass -/

/-- A step of a pass that records goes as far without recording. -/
theorem step_taped {s r : Replay K} {el : Element K} (h : (Replay.step .numeric t true s el).run = .ok r) :
    r.work.size = s.work.size ∧
    r.partials.size = s.partials.size + (if el.op.isStructural then 0 else 1) ∧
    ∀ ps, (Replay.step .numeric t false ⟨s.work, ps, s.buffers⟩ el).run = .ok ⟨r.work, ps, r.buffers⟩ := by
  obtain ⟨work, partials, b⟩ := s
  obtain ⟨op, result, left, right, v⟩ := el
  cases hop : op.isStructural with
  | true =>
    cases op
    case input | output | parameter =>
      simp only [Replay.step] at h ⊢
      split at h
      · cases h
        exact ⟨by simp [Replay.write], rfl, fun _ => rfl⟩
      · cases h
    case const =>
      cases h
      exact ⟨by simp [Replay.write], rfl, fun _ => rfl⟩
    all_goals cases hop
  | false =>
    have hreads : ∃ x y, work[left]? = some x ∧ work[right]? = some y := by
      cases hx : work[left]? with
      | none =>
        cases op
        case input | output | const | parameter => cases hop
        all_goals
          simp only [Replay.step, hx] at h
          cases h
      | some x =>
        cases hy : work[right]? with
        | none =>
          cases op
          case input | output | const | parameter => cases hop
          all_goals
            simp only [Replay.step, hx, hy] at h
            cases h
        | some y => exact ⟨x, y, rfl, rfl⟩
    obtain ⟨x, y, hx, hy⟩ := hreads
    rw [step_operation _ t true _ hop hx hy] at h
    change (Replay.taped ⟨work, partials, b⟩ ⟨op, result, left, right, v⟩ x y).run = _ at h
    rw [Replay.taped] at h
    split at h
    · cases h
      refine ⟨by simp, by simp, fun ps => ?_⟩
      rw [step_operation _ t false _ hop hx hy]
      rfl
    · cases h

/-- A pass that records comes to the same outputs without recording, and has a record for every operation. -/
theorem foldlM_untaped (els : List (Element K)) {s r : Replay K}
    (h : (els.foldlM (Replay.step .numeric t true) s).run = .ok r) :
    r.work.size = s.work.size ∧
    r.partials.size = s.partials.size + els.countP (!·.op.isStructural) ∧
    ∀ ps, (els.foldlM (Replay.step .numeric t false) ⟨s.work, ps, s.buffers⟩).run = .ok ⟨r.work, ps, r.buffers⟩ := by
  induction els generalizing s with
  | nil =>
    cases h
    exact ⟨rfl, rfl, fun _ => rfl⟩
  | cons el els ih =>
    rw [List.foldlM_cons, ExceptT.run_bind] at h
    cases hstep : (Replay.step .numeric t true s el).run with
    | error e =>
      rw [hstep] at h
      cases h
    | ok mid =>
      rw [hstep] at h
      obtain ⟨hsize, hcount, hplain⟩ := ih h
      obtain ⟨hsize', hcount', hplain'⟩ := step_taped hstep
      refine ⟨hsize.trans hsize', ?_, fun ps => ?_⟩
      · rw [hcount, hcount', List.countP_cons]
        cases el.op.isStructural <;> simp [Nat.add_assoc, Nat.add_comm]
      · rw [List.foldlM_cons, ExceptT.run_bind, hplain' ps]
        exact hplain ps

theorem forwardPass_eq (t : Tape K) (taping : Bool) (b : Buffers K) :
    t.forwardPass .numeric taping b = (t.elements.toList.foldlM (Replay.step .numeric t taping)
      ⟨.replicate t.worksize Number.zero, #[], b⟩ : ExceptT (Stopped K) Id (Replay K)) := by
  rw [Array.foldlM_toList]
  rfl

/-- Outputs that a pass stores and derivatives that it records, if it comes to its end. -/
def recorded (t : Tape K) (outs : Array Nat) (taping : Bool) (x : Block K) : Option (Block K × Array (K × K)) :=
  match (t.forwardPass .numeric taping ⟨x, .filled outs Number.zero, #[], #[], #[], #[]⟩).run with
  | .ok r => some (r.buffers.output, r.partials)
  | .error _ => none

theorem recorded_untaped {x y : Block K} {ps : Array (K × K)} (h : t.recorded outs true x = some (y, ps)) :
    t.recorded outs false x = some (y, #[]) := by
  rw [recorded, forwardPass_eq] at h ⊢
  split at h
  · next r hr =>
    cases h
    rw [(foldlM_untaped _ hr).2.2 #[]]
  · cases h

/-- There is a record for every operation. -/
theorem size_recorded (hc : Compiled inputs outputs places l slot t) {x y : Block K} {ps : Array (K × K)}
    (h : t.recorded outs true x = some (y, ps)) : ps.size = (Order.operations l).length := by
  rw [recorded, forwardPass_eq] at h
  split at h
  · next r hr =>
    cases h
    rw [(foldlM_untaped _ hr).2.1, ← hc.operationCount_eq, operationCount, ← Array.countP_toList, Array.size_empty,
      Nat.zero_add]
  · cases h

/-- A pass over buffers ends as one over the inputs alone, with the outputs that this one stores. -/
theorem forwardPass_recorded (hcovers : t.Covers outs) (taping : Bool) {b : Buffers K} (hb : b.output.sizes = outs) :
    match t.recorded outs taping b.input with
    | some (y, ps) => y.sizes = outs ∧ ∃ work, (taping = true → work.size = t.worksize) ∧
        (t.forwardPass .numeric taping b).run = .ok ⟨work, ps, {b with output := y}⟩
    | none => ∃ s, (t.forwardPass .numeric taping b).run = .error s := by
  have hends := forwardPass_beside (b := ⟨b.input, .filled outs Number.zero, #[], #[], #[], #[]⟩) t taping
    (show b.input = b.input from rfl) (Block.sizes_filled _ _) hb
  rw [recorded]
  cases hr : (t.forwardPass .numeric taping ⟨b.input, .filled outs Number.zero, #[], #[], #[], #[]⟩ :
      ExceptT (Stopped K) Id (Replay K)).run with
  | error s =>
    cases hr' : (t.forwardPass .numeric taping b : ExceptT (Stopped K) Id (Replay K)).run with
    | error s' => exact ⟨s', rfl⟩
    | ok r' =>
      rw [hr, hr'] at hends
      exact hends.elim
  | ok r =>
    cases hr' : (t.forwardPass .numeric taping b : ExceptT (Stopped K) Id (Replay K)).run with
    | error s' =>
      rw [hr, hr'] at hends
      exact hends.elim
    | ok r' =>
      rw [hr, hr'] at hends
      have hout := hcovers.eq hends.sizes hends.sizes' fun el hel => hends.stored el (Array.mem_toList_iff.mpr hel)
      refine ⟨hends.sizes, r'.work, fun ht => ?_, ?_⟩
      · subst ht
        rw [forwardPass_eq] at hr'
        exact (foldlM_untaped _ hr').1.trans (by simp)
      · obtain ⟨work', partials', c'⟩ := r'
        have hpartials : partials' = r.partials := hends.partials
        have hright : c' = {b with output := c'.output} := hends.right
        have hout : c'.output = r.buffers.output := hout
        rw [hpartials, hright, hout]

/-! ### All directions -/

theorem forwardSweeps_along (hc : Compiled inputs outputs places l slot t)
    (hu : Expr.Coherent (Matrix.entries outputs)) (hcovers : t.Covers outs)
    (hp : partials.size = (Order.operations l).length) {work : Array K} (hwork : work.size = t.worksize)
    {b : Buffers K} (hb : b.Shaped (inputs.map Matrix.nnz) outs) {n : Nat} (hn : n ≤ b.forward) :
    ∃ work', t.forwardSweeps .numeric n ⟨work, partials, b⟩ =
      (pure ⟨work', partials, {b with
        forwardSens := Buffers.firstBlocks n (fun d => t.along outs partials (b.forwardSeed.getD d #[])) b.forwardSens}⟩ :
        Id (Replay K)) ∧ work'.size = t.worksize := by
  induction n with
  | zero =>
    refine ⟨work, ?_, hwork⟩
    rw [Buffers.firstBlocks_zero]
    rfl
  | succ n ih =>
    obtain ⟨mid, heq, hmid⟩ := ih (by omega)
    have hlt : n < b.forwardSeed.size := hn
    have hmade := hb.withForwardSens n (fun d => t.along outs partials (b.forwardSeed.getD d #[]))
      fun d => sizes_along _ _ _ _
    have hsens := Buffers.sizes_getD hmade.forwardSens (d := n) (by rw [hmade.forward]; exact hlt)
    obtain ⟨s, hs, hwork', halong, -⟩ := forwardSweep_along hc hu hcovers hp
      (Buffers.sizes_getD hb.forwardSeed hlt) hmid hsens
    refine ⟨s.work, ?_, hwork'⟩
    rw [forwardSweeps, List.range_succ, List.foldlM_append]
    rw [forwardSweeps] at heq
    rw [heq, pure_bind]
    simp only [List.foldlM_cons, List.foldlM_nil, bind_pure]
    rw [hs, pure_bind, halong, ← Buffers.firstBlocks_succ n]

theorem adjointSweeps_against (hc : Compiled inputs outputs places l slot t)
    (hu : Expr.Coherent (Matrix.entries outputs)) (hp : partials.size = (Order.operations l).length)
    {work : Array K} (hwork : work.size = t.worksize) {b : Buffers K} (hb : b.Shaped ins outs) {n : Nat}
    (hn : n ≤ b.adjoint) :
    ∃ work', t.adjointSweeps .numeric n ⟨work, partials, b⟩ =
      (pure ⟨work', partials, {b with
        adjointSens := Buffers.firstBlocks n (fun d => t.against ins partials (b.adjointSeed.getD d #[])) b.adjointSens}⟩ :
        Id (Replay K)) := by
  by_cases h0 : n = 0
  · subst h0
    refine ⟨work, ?_⟩
    rw [Buffers.firstBlocks_zero]
    rfl
  have hclear : (work.mapM fun _ => (Arithmetic.numeric : Arithmetic K K Id).zero) =
      (pure (.replicate t.worksize Number.zero) : Id (Array K)) := by
    have hzero : (Arithmetic.numeric : Arithmetic K K Id).zero = pure Number.zero := rfl
    rw [← hwork, ← Array.map_const']
    simp [hzero]
  -- Each sweep leaves zeros for the next one.
  have general (k : Nat) (hk : k ≤ b.adjoint) : ((List.range k).foldlM (fun r d => do
        let s ← t.adjointSweep Arithmetic.numeric r.partials r.work (r.buffers.adjointSeed.getD d #[])
          (r.buffers.adjointSens.getD d #[])
        return ⟨s.work, r.partials, {r.buffers with adjointSens := r.buffers.adjointSens.setIfInBounds d s.sens}⟩)
      (⟨.replicate t.worksize Number.zero, partials, b⟩ : Replay K) : Id (Replay K)) =
      pure ⟨.replicate t.worksize Number.zero, partials, {b with
        adjointSens := Buffers.firstBlocks k (fun d => t.against ins partials (b.adjointSeed.getD d #[])) b.adjointSens}⟩ := by
    induction k with
    | zero =>
      rw [Buffers.firstBlocks_zero]
      rfl
    | succ k ih =>
      have hlt : k < b.adjointSeed.size := hk
      have hmade := hb.withAdjointSens k (fun d => t.against ins partials (b.adjointSeed.getD d #[]))
        fun d => sizes_against _ _ _ _
      have hsens := Buffers.sizes_getD hmade.adjointSens (d := k) (by rw [hmade.adjoint]; exact hlt)
      rw [List.range_succ, List.foldlM_append, ih (by omega), pure_bind]
      simp only [List.foldlM_cons, List.foldlM_nil, bind_pure]
      rw [(adjointSweep_against hc hu hp _ hsens).1, pure_bind, ← Buffers.firstBlocks_succ k]
  refine ⟨.replicate t.worksize Number.zero, ?_⟩
  rw [adjointSweeps, if_neg h0]
  simp only [hclear, pure_bind]
  exact general n hn

/-- An evaluation ends with what a pass over its inputs stores and, for each direction, with the sensitivities
that its own seed has under the derivatives of that pass. -/
theorem evaluate_recorded (hc : Compiled inputs outputs places l slot t)
    (hu : Expr.Coherent (Matrix.entries outputs)) (hcovers : t.Covers outs) {b : Buffers K}
    (hb : b.Shaped (inputs.map Matrix.nnz) outs) {n m : Nat} (hn : n ≤ b.forward) (hm : m ≤ b.adjoint) :
    match t.recorded outs (0 < n || 0 < m) b.input with
    | some (y, ps) => y.sizes = outs ∧ (t.evaluate .numeric b n m).run = .ok {b with
        output := y
        forwardSens := Buffers.firstBlocks n (fun d => t.along outs ps (b.forwardSeed.getD d #[])) b.forwardSens
        adjointSens := Buffers.firstBlocks m (fun d => t.against (inputs.map Matrix.nnz) ps (b.adjointSeed.getD d #[]))
          b.adjointSens}
    | none => ∃ s, (t.evaluate .numeric b n m).run = .error s := by
  have hpass := forwardPass_recorded hcovers (0 < n || 0 < m) hb.output
  rw [evaluate]
  cases hrec : t.recorded outs (0 < n || 0 < m) b.input with
  | none =>
    rw [hrec] at hpass
    obtain ⟨s, hs⟩ := hpass
    exact ⟨s, by rw [ExceptT.run_bind, hs]; rfl⟩
  | some yp =>
    obtain ⟨y, ps⟩ := yp
    rw [hrec] at hpass
    obtain ⟨hy, work, hwork, hrun⟩ := hpass
    refine ⟨hy, ?_⟩
    rw [ExceptT.run_bind, hrun]
    by_cases h0 : n = 0 ∧ m = 0
    · obtain ⟨rfl, rfl⟩ := h0
      rw [Buffers.firstBlocks_zero, Buffers.firstBlocks_zero]
      rfl
    have htaping : (decide (0 < n) || decide (0 < m)) = true := by
      simp only [Bool.or_eq_true, decide_eq_true_eq]
      omega
    rw [htaping] at hrec
    have hp := size_recorded hc hrec
    obtain ⟨work₁, hforward, hwork₁⟩ := forwardSweeps_along hc hu hcovers hp (hwork htaping)
      (hb.withOutput hy) hn
    obtain ⟨work₂, hadjoint⟩ := adjointSweeps_against hc hu hp hwork₁
      ((hb.withOutput hy).withForwardSens n _ fun d => sizes_along t outs ps (b.forwardSeed.getD d #[])) hm
    dsimp only at hforward hadjoint ⊢
    change (((t.forwardSweeps .numeric n ⟨work, ps, {b with output := y}⟩ : Id (Replay K)) >>= fun r =>
      (t.adjointSweeps .numeric m r : Id (Replay K)) >>= fun r => pure (Except.ok r.buffers)) :
        Id (Except (Stopped K) (Buffers K))) = _
    rw [hforward, pure_bind, hadjoint]
    rfl

/-! ### Stores -/

/-- A store that is done had its place. -/
theorem step_stored {s r : Replay K} {el : Element K} (h : (Replay.step .numeric t false s el).run = .ok r)
    (hs : s.buffers.output.sizes = outs) :
    r.buffers.output.sizes = outs ∧ (el.op = .output → el.right < outs.getD el.result 0) := by
  unfold Replay.step at h
  split at h
  · next hop =>
    split at h
    · cases h
      exact ⟨hs, fun ho => by simp [hop] at ho⟩
    · cases h
  · split at h
    · next x y hx hy =>
      cases h
      refine ⟨(Block.sizes_set _ _ _ _).trans hs, fun _ => ?_⟩
      obtain ⟨n, hn, hlt⟩ := (Block.get?_isSome hs).mp (Option.isSome_iff_exists.mpr ⟨y, hy⟩)
      rwa [Array.getD_eq_getD_getElem?, hn]
    · cases h
  · next hop =>
    cases h
    exact ⟨hs, fun ho => by simp [hop] at ho⟩
  · next hop =>
    split at h
    · cases h
      exact ⟨hs, fun ho => by simp [hop] at ho⟩
    · cases h
  · next hout _ _ =>
    split at h
    · cases h
      exact ⟨hs, fun ho => absurd ho hout⟩
    · cases h

/-- A pass that comes to its end had places for all that it stored. -/
theorem storesWithin_recorded {x : Block K} {r : Block K × Array (K × K)} (h : t.recorded outs false x = some r) :
    t.storesWithin outs = true := by
  have hloop (els : List (Element K)) {s r : Replay K} (hs : s.buffers.output.sizes = outs)
      (h : (els.foldlM (Replay.step .numeric t false) s).run = .ok r) :
      ∀ el ∈ els, el.op = .output → el.right < outs.getD el.result 0 := by
    induction els generalizing s with
    | nil => simp
    | cons el els ih =>
      rw [List.foldlM_cons, ExceptT.run_bind] at h
      cases hstep : (Replay.step .numeric t false s el).run with
      | error e =>
        rw [hstep] at h
        cases h
      | ok mid =>
        rw [hstep] at h
        obtain ⟨hmid, hplace⟩ := step_stored hstep hs
        exact List.forall_mem_cons.mpr ⟨hplace, ih hmid h⟩
  rw [recorded, forwardPass_eq] at h
  split at h
  · next r hr =>
    rw [storesWithin, Array.all_eq_true']
    intro el hel
    by_cases hop : el.op = .output
    · simpa [hop] using hloop _ (Block.sizes_filled _ _) hr el (Array.mem_toList_iff.mpr hel) hop
    · simp [hop]
  · cases h

end Fluxion.Tape
