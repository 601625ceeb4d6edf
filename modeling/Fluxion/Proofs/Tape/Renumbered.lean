import Fluxion.Proofs.Expr.Renumbered
import Fluxion.Proofs.Tape.SymbolicReplay

/-!
Replays whatever the numbers of the nodes. Where one arithmetic repeats another, so does a replay over it, element by
element and direction by direction. So a replay over expressions comes to the same from every number on.
-/
set_option autoImplicit false

namespace Fluxion

variable {K T U : Type} [Number K] {g : T → U} {A : Arithmetic K T Fresh} {B : Arithmetic K U Id}

namespace Tape

variable (h : A.Repeats g B)
include h

/-! ### Sweeps -/

omit [Number K] in
theorem Sweep.repeats_accumulate {d : Fresh T} {d' : Id U} (hd : d.Repeats g d') (work : Array T) (slot : Nat) :
    Fresh.Repeats (Array.map g) (Sweep.accumulate A work slot d) (Sweep.accumulate B (work.map g) slot d') := by
  unfold Sweep.accumulate
  rw [Array.getElem?_map]
  cases work[slot]? with
  | none => exact .pure rfl
  | some x => exact .bind hd fun y => .bind (h.add x y) fun z => .pure Array.map_setIfInBounds

variable (partials : Array (T × T)) (seed : Block T)

theorem Sweep.repeats_clear (s : Sweep T) (i : Nat) :
    Fresh.Repeats (Sweep.image g) (do return ⟨s.work.setIfInBounds i (← A.zero), s.sens, s.next⟩)
      (do return ⟨(s.image g).work.setIfInBounds i (← B.zero), (s.image g).sens, (s.image g).next⟩) :=
  .bind h.zero fun z => .pure (by simp [Sweep.image, Array.map_setIfInBounds])

theorem Sweep.repeats_forward (s : Sweep T) (el : Element K) :
    Fresh.Repeats (Sweep.image g) (Sweep.forward A partials seed s el)
      (Sweep.forward B (partials.map (Prod.map g g)) (seed.image g) (s.image g) el) := by
  cases hop : el.op.isStructural with
  | true =>
    obtain ⟨op, result, left, right, v⟩ := el
    cases op
    case input =>
      simp only [Sweep.forward, Block.get?_image]
      cases seed.get? left right with
      | none => exact .pure rfl
      | some x => exact .pure (by simp [Sweep.image, Array.map_setIfInBounds])
    case output =>
      simp only [Sweep.forward, Sweep.image, Array.getElem?_map]
      cases s.work[left]? with
      | none => exact .pure rfl
      | some x => exact .pure (by simp [Sweep.image, Block.image_set])
    case const | parameter => exact repeats_clear h s result
    all_goals cases hop
  | false =>
    obtain ⟨work, sens, next⟩ := s
    rw [Sweep.forward_eq A hop, Sweep.forward_eq B hop]
    simp only [Sweep.image, Array.getElem?_map]
    cases partials[next]? with
    | none => exact .pure rfl
    | some pq =>
    cases work[el.left]? with
    | none => exact .pure rfl
    | some x =>
    cases work[el.right]? with
    | none => exact .pure rfl
    | some y =>
    have hwrite (d : T) : Sweep.image g ⟨work.setIfInBounds el.result d, sens, next+1⟩ =
        ⟨(work.map g).setIfInBounds el.result (g d), sens.image g, next+1⟩ := by
      rw [Sweep.image, Array.map_setIfInBounds]
    dsimp only [Option.map_some, Prod.map]
    split
    · exact .bind (h.add _ _) fun _ => .bind (h.mul _ _) fun d => .pure (hwrite d)
    · exact .bind (h.mul _ _) fun _ => .bind (h.mul _ _) fun _ => .bind (h.add _ _) fun d => .pure (hwrite d)

theorem Sweep.repeats_adjoint (s : Sweep T) (el : Element K) :
    Fresh.Repeats (Sweep.image g) (Sweep.adjoint A partials seed s el)
      (Sweep.adjoint B (partials.map (Prod.map g g)) (seed.image g) (s.image g) el) := by
  cases hop : el.op.isStructural with
  | true =>
    obtain ⟨op, result, left, right, v⟩ := el
    cases op
    case input =>
      simp only [Sweep.adjoint, Sweep.image, Array.getElem?_map]
      cases s.work[result]? with
      | none => exact .pure rfl
      | some x =>
        exact .bind h.zero fun z => .pure (by simp [Sweep.image, Array.map_setIfInBounds, Block.image_set])
    case output =>
      simp only [Sweep.adjoint, Block.get?_image]
      cases seed.get? result right with
      | none => exact .pure rfl
      | some d =>
        dsimp only [Option.map_some]
        rw [h.isZero]
        split
        · exact .pure rfl
        · exact .bind (repeats_accumulate h (.pure rfl) s.work left) fun work => .pure rfl
    case const | parameter => exact repeats_clear h s result
    all_goals cases hop
  | false =>
    obtain ⟨work, sens, next⟩ := s
    rw [Sweep.adjoint_eq A hop, Sweep.adjoint_eq B hop]
    simp only [Sweep.image, Array.getElem?_map]
    cases partials[next-1]? with
    | none => exact .pure rfl
    | some pq =>
    cases work[el.result]? with
    | none => exact .pure rfl
    | some d =>
    dsimp only [Option.map_some, Prod.map]
    refine .bind h.zero fun z => ?_
    rw [h.isZero, ← Array.map_setIfInBounds]
    split
    · exact .pure rfl
    split
    · have hact : Fresh.Repeats g (do A.mul (← A.add pq.1 pq.2) d) (do B.mul (← B.add (g pq.1) (g pq.2)) (g d)) :=
        .bind (h.add _ _) fun sum => h.mul sum d
      exact .bind (repeats_accumulate h hact _ _) fun work => .pure rfl
    · exact .bind (repeats_accumulate h (h.mul _ _) _ _) fun work =>
        .bind (repeats_accumulate h (h.mul _ _) _ _) fun work => .pure rfl

theorem repeats_forwardSweep (t : Tape K) (work : Array T) (sens : Block T) :
    Fresh.Repeats (Sweep.image g) (t.forwardSweep A partials work seed sens)
      (t.forwardSweep B (partials.map (Prod.map g g)) (work.map g) (seed.image g) (sens.image g)) := by
  rw [forwardSweep, forwardSweep, ← Array.foldlM_toList, ← Array.foldlM_toList]
  exact .foldlM (fun s el => Sweep.repeats_forward h partials seed s el) t.elements.toList ⟨work, sens, 0⟩

theorem repeats_zeros (xs : Array T) :
    Fresh.Repeats (Array.map g) (xs.mapM fun _ => A.zero) ((xs.map g).mapM fun _ => B.zero) :=
  .mapM (f := g) (fun _ => h.zero) xs

theorem repeats_adjointSweep (t : Tape K) (work : Array T) (sens : Block T) :
    Fresh.Repeats (Sweep.image g) (t.adjointSweep A partials work seed sens)
      (t.adjointSweep B (partials.map (Prod.map g g)) (work.map g) (seed.image g) (sens.image g)) := by
  rw [adjointSweep, adjointSweep, Array.size_map]
  refine .bind (.mapM (fun v => repeats_zeros h v) sens) fun zeros => ?_
  simp only [← Array.foldrM_toList]
  exact .foldrM (fun s el => Sweep.repeats_adjoint h partials seed s el) t.elements.toList
    ⟨work, zeros, partials.size⟩

/-! ### Passes over all directions -/

theorem repeats_forwardSweeps (t : Tape K) (n : Nat) (r : Replay T) :
    Fresh.Repeats (Replay.image g) (t.forwardSweeps A n r) (t.forwardSweeps B n (r.image g)) := by
  refine .foldlM (fun r d => ?_) (List.range n) r
  obtain ⟨work, partials, b⟩ := r
  simp only [Replay.image, Buffers.image, getD_image]
  exact .bind (repeats_forwardSweep h partials _ t work _) fun s => .pure (by
    simp [Replay.image, Buffers.image, Sweep.image, Array.map_setIfInBounds])

theorem repeats_adjointSweeps (t : Tape K) (n : Nat) (r : Replay T) :
    Fresh.Repeats (Replay.image g) (t.adjointSweeps A n r) (t.adjointSweeps B n (r.image g)) := by
  unfold adjointSweeps
  split
  · exact .pure rfl
  obtain ⟨work, partials, b⟩ := r
  refine .bind (repeats_zeros h work) fun zeros => ?_
  refine .foldlM (fun r d => ?_) (List.range n) (⟨zeros, partials, b⟩ : Replay T)
  obtain ⟨work, partials, b⟩ := r
  simp only [Replay.image, Buffers.image, getD_image]
  exact .bind (repeats_adjointSweep h partials _ t work _) fun s => .pure (by
    simp [Replay.image, Buffers.image, Sweep.image, Array.map_setIfInBounds])

/-- A replay that stopped, as `g` sees it. -/
def Stopped.image (g : T → U) (s : Stopped T) : Stopped U := ⟨s.fault, s.buffers.image g⟩

theorem Replay.repeats_step (t : Tape K) (taping : Bool) (s : Replay T) (el : Element K) :
    Make.Repeats (Stopped.image g) (Replay.image g) (s.step A t taping el) ((s.image g).step B t taping el) := by
  obtain ⟨work, partials, b⟩ := s
  have hwrite (i : Nat) (x : T) : Replay.image g (Replay.write ⟨work, partials, b⟩ i x) =
      Replay.write (Replay.image g ⟨work, partials, b⟩) i (g x) := by
    simp [Replay.image, Replay.write, Array.map_setIfInBounds]
  cases hop : el.op.isStructural with
  | true =>
    obtain ⟨op, result, left, right, v⟩ := el
    cases op
    case input =>
      simp only [Replay.step, Replay.image, Buffers.image, Block.get?_image]
      cases b.input.get? left right with
      | none => exact .throw rfl
      | some x => exact .pure (hwrite _ _)
    case output =>
      simp only [Replay.step, Replay.image, Buffers.image, Block.get?_image, Array.getElem?_map]
      cases work[left]? with
      | none => exact .throw rfl
      | some x =>
        cases b.output.get? result right with
        | none => exact .throw rfl
        | some y => exact .pure (by simp [Replay.image, Buffers.image, Block.image_set])
    case const => exact .bind (.lift (h.lift v)) fun x => .pure (hwrite _ _)
    case parameter =>
      have hfree : t.free[left]?.bind B.free = (t.free[left]?.bind A.free).map g := by
        cases t.free[left]? with
        | none => rfl
        | some s => exact h.free s
      simp only [Replay.step, hfree]
      cases t.free[left]?.bind A.free with
      | none => exact .throw rfl
      | some x => exact .pure (hwrite _ _)
    all_goals cases hop
  | false =>
    rw [Replay.step_eq A hop, Replay.step_eq B hop]
    simp only [Replay.image, Array.getElem?_map]
    cases work[el.left]? with
    | none => exact .throw rfl
    | some x =>
    cases work[el.right]? with
    | none => exact .throw rfl
    | some y =>
    refine .bind (.lift (h.apply el.op x y)) fun r => ?_
    split
    · refine .bind (.lift (h.partials el.op x y r)) fun p? => ?_
      cases p? with
      | none => exact .throw rfl
      | some p => exact .pure (by simp [Replay.image, Array.map_setIfInBounds])
    · exact .pure (hwrite _ _)

theorem repeats_forwardPass (t : Tape K) (taping : Bool) (b : Buffers T) :
    Make.Repeats (Stopped.image g) (Replay.image g) (t.forwardPass A taping b)
      (t.forwardPass B taping (b.image g)) := by
  refine .bind (.lift h.zero) fun z => ?_
  have hstart : (⟨.replicate t.worksize (g z), #[], b.image g⟩ : Replay U) =
      Replay.image g ⟨.replicate t.worksize z, #[], b⟩ := by simp [Replay.image]
  rw [hstart, ← Array.foldlM_toList, ← Array.foldlM_toList]
  exact .foldlM (fun s el => Replay.repeats_step h t taping s el) t.elements.toList _

/-- A replay leaves the same, and stops with the same fault. -/
theorem repeats_evaluate (t : Tape K) (b : Buffers T) (f a : Nat) :
    Make.Repeats (Stopped.image g) (Buffers.image g) (t.evaluate A b f a) (t.evaluate B (b.image g) f a) :=
  .bind (repeats_forwardPass h t _ b) fun r => .bind (.lift (repeats_forwardSweeps h t f r)) fun r =>
    .bind (.lift (repeats_adjointSweeps h t a r)) fun _ => .pure rfl

end Tape

end Fluxion
