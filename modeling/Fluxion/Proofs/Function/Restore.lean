import Mathlib
import Fluxion.Proofs.Function.Ready

/-!
What an evaluation leaves as it was. It may permute the seeds on the way and may end in the middle of a
tape, of a difference or of the function that it stands on; afterwards inputs and seeds are in their places
again. The counters change where the evaluator came to its end, and tell what it swept.
-/
set_option autoImplicit false

namespace Fluxion

variable {K T α β : Type}

/-- Buffers that differ in outputs and sensitivities at most. -/
structure Buffers.Undisturbed (b b' : Buffers T) : Prop where
  input : b'.input = b.input
  forwardSeed : b'.forwardSeed = b.forwardSeed
  adjointSeed : b'.adjointSeed = b.adjointSeed
  forward : b'.forwardSens.size = b.forwardSens.size
  adjoint : b'.adjointSens.size = b.adjointSens.size

namespace Buffers.Undisturbed

theorem refl (b : Buffers T) : b.Undisturbed b := ⟨rfl, rfl, rfl, rfl, rfl⟩

theorem trans {b b' b'' : Buffers T} (h : b.Undisturbed b') (h' : b'.Undisturbed b'') :
    b.Undisturbed b'' :=
  ⟨h'.input.trans h.input, h'.forwardSeed.trans h.forwardSeed, h'.adjointSeed.trans h.adjointSeed,
    h'.forward.trans h.forward, h'.adjoint.trans h.adjoint⟩

theorem withOutput {b b' : Buffers T} (h : b.Undisturbed b') (y : Block T) :
    b.Undisturbed {b' with output := y} := ⟨h.input, h.forwardSeed, h.adjointSeed, h.forward, h.adjoint⟩

theorem withForwardSens {b b' : Buffers T} (h : b.Undisturbed b') {s : Array (Block T)}
    (hs : s.size = b'.forwardSens.size) : b.Undisturbed {b' with forwardSens := s} :=
  ⟨h.input, h.forwardSeed, h.adjointSeed, hs.trans h.forward, h.adjoint⟩

theorem withAdjointSens {b b' : Buffers T} (h : b.Undisturbed b') {s : Array (Block T)}
    (hs : s.size = b'.adjointSens.size) : b.Undisturbed {b' with adjointSens := s} :=
  ⟨h.input, h.forwardSeed, h.adjointSeed, h.forward, hs.trans h.adjoint⟩

end Buffers.Undisturbed

/-- Frames of which one is left by an evaluator that started from the other. -/
structure Frame.Undisturbed (g g' : Frame K) : Prop where
  buffers : g.buffers.Undisturbed g'.buffers
  stats : g'.stats = g.stats

theorem Frame.Undisturbed.refl (g : Frame K) : g.Undisturbed g := ⟨.refl _, rfl⟩

namespace Tape

variable {A : Arithmetic K T Id} {b : Buffers T}

/-- Where a replay stops or ends, inputs and seeds are there. -/
def Leaves (b : Buffers T) (buffers : α → Buffers T) (act : ExceptT (Stopped T) Id α) : Prop :=
  match act.run with
  | .ok x => b.Undisturbed (buffers x)
  | .error s => b.Undisturbed s.buffers

theorem Leaves.bind {f : α → Buffers T} {g : β → Buffers T} {act : ExceptT (Stopped T) Id α}
    {rest : α → ExceptT (Stopped T) Id β} (h : Leaves b f act)
    (hrest : ∀ a, b.Undisturbed (f a) → Leaves b g (rest a)) : Leaves b g (act >>= rest) := by
  rw [Leaves] at h
  cases hact : act.run with
  | ok a =>
    rw [hact] at h
    have hrun : (act >>= rest).run = (rest a).run := by
      rw [ExceptT.run_bind, hact]
      rfl
    rw [Leaves, hrun]
    exact hrest a h
  | error s =>
    rw [hact] at h
    have hrun : (act >>= rest).run = .error s := by
      rw [ExceptT.run_bind, hact]
      rfl
    rw [Leaves, hrun]
    exact h

theorem leaves_foldlM {f : β → Buffers T} {step : β → α → ExceptT (Stopped T) Id β}
    (hstep : ∀ s x, b.Undisturbed (f s) → Leaves b f (step s x)) (xs : List α) {s : β}
    (h : b.Undisturbed (f s)) : Leaves b f (xs.foldlM step s) := by
  induction xs generalizing s with
  | nil => exact h
  | cons x xs ih =>
    rw [List.foldlM_cons]
    exact (hstep s x h).bind fun _ => ih

variable [Number K]

theorem leaves_step (t : Tape K) (taping : Bool) (s : Replay T) (el : Element K)
    (h : b.Undisturbed s.buffers) : Leaves b Replay.buffers (Replay.step A t taping s el) := by
  unfold Replay.step
  split
  · split
    · exact h
    · exact h
  · split
    · exact h.withOutput _
    · exact h
  · exact h
  · split
    · exact h
    · exact h
  · split
    · next x y _ _ =>
      cases taping with
      | false => exact h
      | true =>
        change Leaves b Replay.buffers (match A.partials el.op x y (A.apply el.op x y) with
          | some p => pure ⟨s.work.setIfInBounds el.result (A.apply el.op x y), s.partials.push p, s.buffers⟩
          | none => s.stop (.missingDerivative el.op))
        split
        · exact h
        · exact h
    · exact h

theorem undisturbed_forwardSweeps (t : Tape K) (n : Nat) {r : Replay T} (h : b.Undisturbed r.buffers) :
    b.Undisturbed (Replay.buffers (t.forwardSweeps A n r)) := by
  rw [forwardSweeps]
  refine foldlM_id (P := fun r : Replay T => b.Undisturbed r.buffers) (fun r d h => ?_) (List.range n) h
  exact h.withForwardSens Array.size_setIfInBounds

theorem undisturbed_adjointSweeps (t : Tape K) (n : Nat) {r : Replay T} (h : b.Undisturbed r.buffers) :
    b.Undisturbed (Replay.buffers (t.adjointSweeps A n r)) := by
  rw [adjointSweeps]
  split
  · exact h
  · refine foldlM_id (P := fun r : Replay T => b.Undisturbed r.buffers) (fun r d h => ?_) (List.range n) h
    exact h.withAdjointSens Array.size_setIfInBounds

theorem leaves_evaluate (t : Tape K) (b : Buffers T) (f a : Nat) :
    Leaves b id (t.evaluate A b f a) := by
  refine Leaves.bind (f := Replay.buffers) ?_ fun r h =>
    undisturbed_adjointSweeps t a (undisturbed_forwardSweeps t f h)
  refine Leaves.bind (f := fun _ => b) (.refl b) fun zero h => ?_
  rw [← Array.foldlM_toList]
  exact leaves_foldlM (leaves_step t _) _ h

end Tape

namespace Run

variable {I : Frame K → Prop}

theorem Keeps.observe {act : Run K α} (h : Keeps I act) : Keeps I (observe act) := h

/-- Whatever happens in the instance of the parent, the frame of the instance itself stays. -/
theorem keeps_inParent (fresh : Frame K) (act : Run K α) : Keeps I (inParent fresh act) := fun _ h => h

theorem keeps_modifyJournal (f : Journal → Journal) : Keeps I (modifyJournal f) := fun _ h => h

theorem Keeps.outcome {act : Run K α} (h : Keeps I act) : Keeps I (outcome act) := by
  refine h.observe.bind fun r => ?_
  split
  · exact keeps_throw _
  · exact keeps_pure _

end Run

namespace Evaluate

open Run

variable {I : Frame K → Prop}

theorem keeps_callable (sig : Signature K) (c : Callable K) (x y : Block K) :
    Keeps I (callable sig c x y) := by
  refine (keeps_modifyJournal _).bind fun _ => ?_
  split
  · exact keeps_pure _
  · exact keeps_pure _

variable [Number K]

theorem keeps_jacobian (block : JacobianBlock) (parent : Definition K) (eval : Evaluation K)
    (x y : Block K) : Keeps I (jacobian block parent eval x y) := by
  refine (keeps_inParent _ _).observe.bind fun r => ?_
  split
  · dsimp only
    split
    · exact keeps_pure _
    · exact keeps_pure _
  · exact keeps_pure _

theorem keeps_derivative (f a : Nat) (parent : Definition K) (eval : Evaluation K) (x y : Block K) :
    Keeps I (derivative f a parent eval x y) := by
  refine (keeps_inParent _ _).observe.bind fun start => ?_
  split
  · exact keeps_pure _
  · refine (keeps_foldlM (fun (y, e?) r => ?_) _ _).bind fun (y, e) => ?_
    · dsimp only
      split
      · exact keeps_pure _
      · exact (keeps_inParent _ _).bind fun _ => keeps_pure _
    · dsimp only
      split
      · exact keeps_pure _
      · refine (keeps_inParent _ _).observe.bind fun r => ?_
        split
        · exact keeps_pure _
        · exact keeps_pure _

end Evaluate

namespace Differences

open Run

variable [Number K] {I : Frame K → Prop} {g : Frame K} {body : Body K}

section Outputs

variable (hbody : ∀ x y, Keeps I (body x y))
include hbody

omit [Number K] in
theorem keeps_outputsAt (x y : Block K) : Keeps I (outputsAt body x y) := by
  refine (hbody x y).bind fun r => ?_
  split
  · exact keeps_pure _
  · exact keeps_throw _

omit [Number K] in
theorem keeps_between (s : Scratch K) (p q : Block K) : Keeps I (s.between body p q) :=
  (keeps_outputsAt hbody _ _).bind fun _ => (keeps_outputsAt hbody _ _).bind fun _ => keeps_pure _

theorem keeps_forwardSens (step scale : K) (input seed : Block K) (s : Scratch K) :
    Keeps I (forwardSens body step scale input seed s) := by
  rw [forwardSens]
  dsimp only
  split
  · exact keeps_pure _
  · exact (keeps_between hbody _ _ _).bind fun _ => keeps_pure _

end Outputs

variable (hbody : ∀ x y, Keeps g.Undisturbed (body x y))
include hbody

theorem keeps_forward (step scale : K) (input : Block K) (s : Scratch K) (d : Nat) :
    Keeps g.Undisturbed (forward body step scale input s d) := by
  refine keeps_buffers.bind fun b => (keeps_forwardSens hbody _ _ _ _ _).bind fun r =>
    (keeps_modifyBuffers fun g' h => ⟨h.buffers.withForwardSens ?_, h.stats⟩).bind fun _ => keeps_pure _
  exact Array.size_setIfInBounds

theorem keeps_adjointColumn (h : K) (n i k : Nat) (x : K) (s : Scratch K) :
    Keeps g.Undisturbed (adjointColumn body h n i k x s) := by
  refine (keeps_between hbody _ _ _).bind fun s =>
    (keeps_modifyBuffers fun g' h => ⟨h.buffers.withAdjointSens ?_, h.stats⟩).bind fun _ => keeps_pure _
  refine List.foldlRecOn (motive := fun s : Array (Block K) => s.size = g'.buffers.adjointSens.size) _ _ rfl ?_
  intro s hs d _
  rw [Array.size_modify, hs]

theorem keeps_adjoint (h : K) (input : Block K) (n : Nat) (s : Scratch K) :
    Keeps g.Undisturbed (adjoint body h input n s) := by
  refine Keeps.bind (keeps_modifyBuffers fun g' h => ⟨h.buffers.withAdjointSens ?_, h.stats⟩) fun _ =>
    keeps_foldlM (fun s (v, i) => keeps_foldlM (fun s (x, k) => keeps_adjointColumn hbody _ _ _ _ _ s) _ _) _ _
  exact Array.size_mapIdx

theorem keeps_directions (step : K) (f a : Nat) : Keeps g.Undisturbed (directions body step f a) := by
  rw [directions]
  split
  · exact keeps_pure _
  · refine keeps_buffers.bind fun b => ?_
    dsimp only
    refine (keeps_foldlM (keeps_forward hbody _ _ _) _ _).bind fun _ => ?_
    split
    · exact keeps_pure _
    · exact (keeps_adjoint hbody _ _ _ _).bind fun _ => keeps_pure _

end Differences

namespace Evaluate

open Run

variable [Number K] {g : Frame K}

theorem keeps_byDifferences (sig : Signature K) {body : Body K}
    (hbody : ∀ x y, Keeps g.Undisturbed (body x y)) (f a : Nat) :
    Keeps g.Undisturbed (byDifferences sig body f a) := by
  refine keeps_buffers.bind fun b => (hbody b.input b.output).bind fun (y, e) => ?_
  refine (keeps_modifyBuffers fun g' h => ⟨h.buffers.withOutput _, h.stats⟩).bind fun _ => ?_
  split
  · exact keeps_throw _
  · exact Differences.keeps_directions hbody _ _ _

theorem keeps_tape (sig : Signature K) (t : Tape K) (f a : Nat) :
    Keeps g.Undisturbed (tape sig t f a) := by
  rw [tape]
  refine keeps_when (keeps_throw _) fun m hm => ?_
  rw [run_bind_ok (run_buffers m)]
  have hleaves := Tape.leaves_evaluate (A := .numeric) t m.frame.buffers f a
  rw [Tape.Leaves] at hleaves
  split
  · next b hb =>
    rw [hb] at hleaves
    exact ⟨hm.buffers.trans hleaves, hm.stats⟩
  · next s hs =>
    rw [hs] at hleaves
    exact ⟨hm.buffers.trans hleaves, hm.stats⟩

end Evaluate

namespace Definition

variable [Number K]

/-- The evaluator of a definition, without what every evaluation does around it. -/
def dispatch : Definition K → Nat → Nat → Run K Unit
  | expressions s t _ => Evaluate.tape s t
  | external s c => Evaluate.byDifferences s (Evaluate.callable s c)
  | jacobian s b p => Evaluate.byDifferences s (Evaluate.jacobian b p p.evaluate)
  | derivative s f a p => Evaluate.byDifferences s (Evaluate.derivative f a p p.evaluate)

theorem evaluate_eq_around (d : Definition K) : d.evaluate = Evaluate.around d.sig d.dispatch := by
  cases d <;> rfl

/-- An evaluator changes outputs, sensitivities and instances it runs through. -/
theorem keeps_dispatch (d : Definition K) (g : Frame K) (f a : Nat) :
    Run.Keeps g.Undisturbed (d.dispatch f a) := by
  cases d with
  | expressions s t ins => exact Evaluate.keeps_tape s t f a
  | external s c => exact Evaluate.keeps_byDifferences s (Evaluate.keeps_callable s c) f a
  | jacobian s b p => exact Evaluate.keeps_byDifferences s (Evaluate.keeps_jacobian b p _) f a
  | derivative s f' a' p => exact Evaluate.keeps_byDifferences s (Evaluate.keeps_derivative f' a' p _) f a

end Definition

theorem Run.run_outcome_of {act : Run K α} {m : Machine K}
    (h : ∀ c, (act.run m).1 ≠ .error (.violation c)) :
    (outcome act).run m = (.ok (act.run m).1, (act.run m).2) := by
  have hobserve : (observe act).run m = (.ok (act.run m).1, (act.run m).2) := rfl
  rw [outcome, run_bind_ok hobserve]
  split
  · next c hc => exact absurd hc (h c)
  · rfl

theorem Run.run_outcome_violation {act : Run K α} {m : Machine K} {c : Violation}
    (h : (act.run m).1 = .error (.violation c)) :
    (outcome act).run m = (.error (.violation c), (act.run m).2) := by
  have hobserve : (observe act).run m = (.ok (.error (.violation c)), (act.run m).2) := by
    rw [← h]
    rfl
  rw [outcome, run_bind_ok hobserve]
  rfl

variable [Number K]

/-- The directions that an evaluation sweeps. -/
def Signature.swept (s : Signature K) (b : Buffers K) (f a : Nat) : Nat × Nat :=
  if s.options.compressDirections then
    (Compaction.nonzero Number.isZero b.forwardSeed f, Compaction.nonzero Number.isZero b.adjointSeed a)
  else (f, a)

/-- The state in which the evaluator starts: if zero seeds are skipped, the others are in front. -/
def Machine.arranged (m : Machine K) (s : Signature K) (f a : Nat) : Machine K :=
  if s.options.compressDirections then m.withBuffers {m.frame.buffers with
    forwardSeed := (Compaction.compact Number.isZero m.frame.buffers.forwardSeed f).1
    adjointSeed := (Compaction.compact Number.isZero m.frame.buffers.adjointSeed a).1}
  else m

/-- The directions are there, and the evaluator comes to its end. -/
def Definition.Dispatched (d : Definition K) (m : Machine K) (f a : Nat) : Prop :=
  f ≤ m.frame.buffers.forward ∧ a ≤ m.frame.buffers.adjoint ∧
    ((d.dispatch (d.sig.swept m.frame.buffers f a).1 (d.sig.swept m.frame.buffers f a).2).run
      (m.arranged d.sig f a)).1 = .ok ()

namespace Evaluate

open Run

variable {dispatch : Nat → Nat → Run K Unit} {m : Machine K} {f a : Nat} {sig : Signature K}

theorem keeps_regularity {I : Frame K → Prop} (sig : Signature K) (f a : Nat) :
    Keeps I (regularity sig f a) := by
  refine keeps_buffers.bind fun b => ?_
  dsimp only
  split
  · exact keeps_pure _
  · split
    · exact keeps_throw _
    · exact (keeps_warn _).bind fun _ => keeps_pure _

/-- A report is answered or thrown. -/
theorem regularity_reports (sig : Signature K) (f a : Nat) (m : Machine K) :
    ∃ r, ((regularity sig f a).run m).1 = .ok r ∨
      ((regularity sig f a).run m).1 = .error (.irregular sig.name r) := by
  refine ⟨irregular m.frame.buffers f a, ?_⟩
  rw [regularity, run_bind_ok (run_buffers m)]
  dsimp only
  split
  · exact .inl rfl
  · split
    · exact .inr rfl
    · exact .inl rfl

/-- Moving the seeds and moving them back. -/
theorem undisturbed_unpacked (b c : Buffers K) (hf : f ≤ b.forward) (ha : a ≤ b.adjoint)
    (h : (b.packed f a).Undisturbed c) : b.Undisturbed (b.unpacked f a c) where
  input := h.input
  forwardSeed := (congrArg _ h.forwardSeed).trans (Compaction.expand_compact _ _ hf)
  adjointSeed := (congrArg _ h.adjointSeed).trans (Compaction.expand_compact _ _ ha)
  forward := ((Compaction.size_clear _ _ _).trans (Compaction.size_expand _ _)).trans h.forward
  adjoint := ((Compaction.size_clear _ _ _).trans (Compaction.size_expand _ _)).trans h.adjoint

/-- Directions are swept as far as the evaluator comes, and the seeds are put back. -/
theorem run_compressed (hk : ∀ g nf na, Keeps (Frame.Undisturbed g) (dispatch nf na))
    (hc : sig.options.compressDirections = true) (hf : f ≤ m.frame.buffers.forward)
    (ha : a ≤ m.frame.buffers.adjoint) {r : Except Fault Unit}
    (hr : ((dispatch (sig.swept m.frame.buffers f a).1 (sig.swept m.frame.buffers f a).2).run
      (m.arranged sig f a)).1 = r) (hv : ∀ c, ((compressed dispatch f a).run m).1 ≠ .error (.violation c)) :
    ∃ after, (compressed dispatch f a).run m = (r.map fun _ => sig.swept m.frame.buffers f a, after) ∧
      m.frame.Undisturbed after.frame := by
  have hswept : sig.swept m.frame.buffers f a = m.frame.buffers.inFront f a := by
    rw [Signature.swept, if_pos hc, Buffers.inFront, Compaction.compact_count _ _ hf, Compaction.compact_count _ _ ha]
  have harranged : m.arranged sig f a = m.withBuffers (m.frame.buffers.packed f a) := if_pos hc
  rw [harranged, hswept] at hr
  have hkeeps := hk (m.withBuffers (m.frame.buffers.packed f a)).frame (m.frame.buffers.inFront f a).1
    (m.frame.buffers.inFront f a).2 _ (.refl _)
  rw [compressed_eq, run_bind_ok (run_buffers m), run_bind_ok (run_modifyBuffers _ m)] at hv ⊢
  have hregular : ∀ c, ((dispatch (m.frame.buffers.inFront f a).1 (m.frame.buffers.inFront f a).2).run
      (m.withBuffers (m.frame.buffers.packed f a))).1 ≠ .error (.violation c) := fun c hviolation => hv c (by
    rw [run_bind_error (run_outcome_violation hviolation)])
  rw [run_bind_ok (run_outcome_of hregular), run_bind_ok (run_modifyBuffers _ _), hr, hswept]
  refine ⟨((dispatch _ _).run _).2.withBuffers _, ?_, undisturbed_unpacked _ _ hf ha hkeeps.buffers, hkeeps.stats⟩
  cases r <;> rfl

/-- The middle of an evaluation: sweeps of all directions or of those with a nonzero seed. -/
def sweeping (sig : Signature K) (dispatch : Nat → Nat → Run K Unit) (f a : Nat) : Run K (Nat × Nat) :=
  if sig.options.compressDirections && (0 < f || 0 < a) then compressed dispatch f a
  else do
    dispatch f a
    pure (f, a)

theorem around_eq (sig : Signature K) (dispatch : Nat → Nat → Run K Unit) (f a : Nat) :
    around sig dispatch f a = (do
      let b ← Run.buffers
      if b.forward < f then throw (sig.outOfRange .forwardDirection (f-1) b.forward)
      if b.adjoint < a then throw (sig.outOfRange .adjointDirection (a-1) b.adjoint)
      let n ← sweeping sig dispatch f a
      modify fun m => {m with frame := {m.frame with
        stats := ⟨m.frame.stats.evaluations+1, m.frame.stats.forward+n.1, m.frame.stats.adjoint+n.2⟩}}
      regularity sig f a) := by
  rw [around, sweeping]
  split
  · rfl
  · simp only [bind_assoc]

/-- As `run_compressed`, whether zero seeds are skipped or not. -/
theorem run_sweeping (hk : ∀ g nf na, Keeps (Frame.Undisturbed g) (dispatch nf na))
    (hf : f ≤ m.frame.buffers.forward) (ha : a ≤ m.frame.buffers.adjoint) {r : Except Fault Unit}
    (hr : ((dispatch (sig.swept m.frame.buffers f a).1 (sig.swept m.frame.buffers f a).2).run
      (m.arranged sig f a)).1 = r) (hv : ∀ c, ((sweeping sig dispatch f a).run m).1 ≠ .error (.violation c)) :
    ∃ after, (sweeping sig dispatch f a).run m = (r.map fun _ => sig.swept m.frame.buffers f a, after) ∧
      m.frame.Undisturbed after.frame := by
  rw [sweeping] at hv ⊢
  by_cases hc : (sig.options.compressDirections && (0 < f || 0 < a)) = true
  · rw [if_pos hc] at hv ⊢
    exact run_compressed hk (Bool.and_eq_true _ _ ▸ hc).1 hf ha hr hv
  · rw [if_neg hc] at hv ⊢
    -- Without directions there is nothing to skip.
    have hplain : sig.swept m.frame.buffers f a = (f,a) ∧ m.arranged sig f a = m := by
      by_cases hcompress : sig.options.compressDirections = true
      · obtain ⟨rfl, rfl⟩ : f = 0 ∧ a = 0 := by simpa [hcompress] using hc
        rw [Signature.swept, Machine.arranged, if_pos hcompress, if_pos hcompress]
        exact ⟨rfl, rfl⟩
      · rw [Signature.swept, Machine.arranged, if_neg hcompress, if_neg hcompress]
        exact ⟨rfl, rfl⟩
    rw [hplain.1, hplain.2] at hr
    rw [hplain.1]
    refine ⟨((dispatch f a).run m).2, ?_, hk m.frame f a m (.refl _)⟩
    cases r with
    | ok u => exact (run_bind_ok (Prod.ext hr rfl)).trans rfl
    | error e => exact (run_bind_error (Prod.ext hr rfl)).trans rfl

end Evaluate

/-- However an evaluation ends, unless a violation breaks it off: inputs, seeds and the numbers of directions
are as before. The counters change exactly if the evaluator came to its end, by one evaluation and the
directions that were swept; then a report follows, as an answer or as a fault. -/
theorem Definition.evaluate_restores (d : Definition K) (m : Machine K) (f a : Nat)
    (h : ∀ c, ((d.evaluate f a).run m).1 ≠ .error (.violation c)) :
    m.frame.buffers.Undisturbed ((d.evaluate f a).run m).2.frame.buffers ∧
    (d.Dispatched m f a →
      ((d.evaluate f a).run m).2.frame.stats =
        ⟨m.frame.stats.evaluations + 1, m.frame.stats.forward + (d.sig.swept m.frame.buffers f a).1,
          m.frame.stats.adjoint + (d.sig.swept m.frame.buffers f a).2⟩ ∧
      ∃ r, ((d.evaluate f a).run m).1 = .ok r ∨ ((d.evaluate f a).run m).1 = .error (.irregular d.sig.name r)) ∧
    (¬d.Dispatched m f a →
      ((d.evaluate f a).run m).2.frame.stats = m.frame.stats ∧ ∃ e, ((d.evaluate f a).run m).1 = .error e) := by
  rw [evaluate_eq_around, Evaluate.around_eq, run_bind_ok (Run.run_buffers m)] at h ⊢
  by_cases hf : m.frame.buffers.forward < f
  · rw [if_pos hf]
    exact ⟨.refl _, fun hd => absurd hd.1 (by omega), fun _ => ⟨rfl, _, rfl⟩⟩
  rw [if_neg hf] at h ⊢
  dsimp only at h ⊢
  by_cases ha : m.frame.buffers.adjoint < a
  · rw [if_pos ha]
    exact ⟨.refl _, fun hd => absurd hd.2.1 (by omega), fun _ => ⟨rfl, _, rfl⟩⟩
  rw [if_neg ha] at h ⊢
  have hv : ∀ c, ((Evaluate.sweeping d.sig d.dispatch f a).run m).1 ≠ .error (.violation c) :=
    fun c hc => h c (by rw [run_bind_error (Prod.ext hc rfl)])
  obtain ⟨after, hrun, hkept⟩ := Evaluate.run_sweeping d.keeps_dispatch (by omega) (by omega) rfl hv
  cases hr : ((d.dispatch (d.sig.swept m.frame.buffers f a).1 (d.sig.swept m.frame.buffers f a).2).run
      (m.arranged d.sig f a)).1 with
  | ok u =>
    rw [hr] at hrun
    rw [run_bind_ok hrun, run_bind_ok (Run.run_modify _ _), hkept.stats]
    refine ⟨?_, fun _ => ⟨?_, Evaluate.regularity_reports _ _ _ _⟩, fun hd => absurd ⟨by omega, by omega, hr⟩ hd⟩
    · exact Evaluate.keeps_regularity (I := fun g => m.frame.buffers.Undisturbed g.buffers) _ _ _ _ hkept.buffers
    · exact Evaluate.keeps_regularity (I := fun g => g.stats = ⟨m.frame.stats.evaluations + 1,
        m.frame.stats.forward + (d.sig.swept m.frame.buffers f a).1,
        m.frame.stats.adjoint + (d.sig.swept m.frame.buffers f a).2⟩) d.sig f a _ rfl
  | error e =>
    rw [hr] at hrun
    rw [run_bind_error hrun]
    exact ⟨hkept.buffers, fun hd => absurd (hr.symm.trans hd.2.2) (by simp), fun _ => ⟨hkept.stats, e, rfl⟩⟩

/-- The square of a number that is at most one. -/
def cappedSquare : Definition ℚ :=
  .external ⟨0, .standard 1, #[.scalar], #[.scalar]⟩
    ⟨#[.scalar], #[.scalar], fun x =>
      if 1 < (x.get? 0 0).getD 0 then .error (.message "above one")
      else .ok (x.map (·.map fun v => v * v)), fun _ _ => none, fun _ _ => none⟩

/-- At one, with a zero seed before the one that is swept. -/
def cappedState : Machine ℚ :=
  ⟨⟨{Buffers.filled #[1] #[1] 2 1 0 with
    input := #[#[1]]
    forwardSeed := #[#[#[0]], #[#[3]]]}, .zero⟩, [], .empty⟩

/-- The evaluation fails where the difference leaves the domain, after the seeds were moved. -/
theorem Definition.evaluate_restores_failed :
    (∀ c, ((cappedSquare.evaluate 2 1).run cappedState).1 ≠ .error (.violation c)) ∧
    ((cappedSquare.evaluate 2 1).run cappedState).1 =
      .error (.external "unnamed_function" "above one") ∧
    ((cappedSquare.evaluate 2 1).run cappedState).2.frame.buffers.forwardSeed = #[#[#[0]], #[#[3]]] ∧
    ((cappedSquare.evaluate 2 1).run cappedState).2.frame.stats = .zero := by
  have hfailed : ((cappedSquare.evaluate 2 1).run cappedState).1 =
      .error (.external "unnamed_function" "above one") := by cbv
  have hregular : ∀ c, ((cappedSquare.evaluate 2 1).run cappedState).1 ≠ .error (.violation c) := by
    rw [hfailed]
    simp
  obtain ⟨hkept, hended, hstopped⟩ := evaluate_restores cappedSquare cappedState 2 1 hregular
  refine ⟨hregular, hfailed, hkept.forwardSeed, (hstopped fun hd => ?_).1⟩
  obtain ⟨-, r, hr | hr⟩ := hended hd
  · exact absurd (hfailed.symm.trans hr) (by simp)
  · exact absurd (hfailed.symm.trans hr) (by simp)

end Fluxion
