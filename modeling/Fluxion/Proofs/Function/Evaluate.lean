import Fluxion.Function.Instance
import Fluxion.Proofs.Function.Compaction
import Fluxion.Proofs.Run

/-!
Evaluations of a function that is made from expressions. Whether zero seeds are skipped or swept, the
buffers end the same, and nothing but the buffers and the counters of the instance changes.
-/
set_option autoImplicit false

namespace Fluxion

variable {K : Type}

/-- The machine with other buffers. -/
def Machine.withBuffers (m : Machine K) (b : Buffers K) : Machine K :=
  {m with frame := {m.frame with buffers := b}}

@[simp] theorem Machine.buffers_withBuffers (m : Machine K) (b : Buffers K) :
    (m.withBuffers b).frame.buffers = b := rfl

@[simp] theorem Machine.withBuffers_withBuffers (m : Machine K) (b b' : Buffers K) :
    (m.withBuffers b).withBuffers b' = m.withBuffers b' := rfl

namespace Run

theorem run_buffers (m : Machine K) : (buffers : Run K (Buffers K)).run m = (.ok m.frame.buffers, m) := rfl

theorem run_modifyBuffers (f : Buffers K → Buffers K) (m : Machine K) :
    (modifyBuffers f).run m = (.ok (), m.withBuffers (f m.frame.buffers)) := rfl

theorem run_modify (f : Machine K → Machine K) (m : Machine K) :
    (modify f : Run K PUnit).run m = (.ok ⟨⟩, f m) := rfl

theorem run_outcome {α : Type} {act : Run K α} {m m' : Machine K} {a : α}
    (h : act.run m = (.ok a, m')) : (outcome act).run m = (.ok (.ok a), m') := by
  have hobserve : (observe act).run m = (.ok (.ok a), m') := by
    change (Except.ok (act.run m).1, (act.run m).2) = _
    rw [h]
  rw [outcome, run_bind_ok hobserve]
  rfl

end Run

variable [Number K]

/-- Skipping zero seeds: they are packed, swept, and all is unpacked again. -/
theorem Evaluate.compressed_eq (dispatch : Nat → Nat → Run K Unit) (f a : Nat) : compressed dispatch f a = (do
    let b ← Run.buffers
    Run.modifyBuffers fun _ => b.packed f a
    let r ← Run.outcome (dispatch (b.inFront f a).1 (b.inFront f a).2)
    Run.modifyBuffers (b.unpacked f a)
    match r with
    | .ok _ => return b.inFront f a
    | .error e => throw e) := rfl

namespace Tape

section Zeros

variable [CommRing K] [ExactRing K] {inputs outputs : Array (Matrix (Expr K))} {ρ : Symbol → K}

theorem entry_of_blank {seeds : Array (Block K)} {d : Nat}
    (h : Compaction.Blank Number.isZero seeds d) (i k : Nat) : (seeds.getD d #[]).entry i k = 0 := by
  rw [Compaction.Blank, Array.all_eq_true'] at h
  generalize seeds.getD d #[] = x at h
  cases hx : x.get? i k with
  | none => rw [Block.entry, hx, Option.getD_none]
  | some y =>
    obtain ⟨v, hv, hy⟩ := Option.bind_eq_some_iff.mp hx
    have hall := Array.all_eq_true'.mp (h v (Array.mem_of_getElem? hv)) y (Array.mem_of_getElem? hy)
    rw [Block.entry, hx, Option.getD_some]
    exact (Number.isZero_iff y).mp hall

theorem clear_eq_of_zero {x y : Block K} (hs : x.sizes = y.sizes) (hy : ∀ i k, y.entry i k = 0) :
    (x.map (·.map fun _ => (Number.zero : K)) : Block K) = y := by
  rw [Number.zero_eq]
  refine Block.ext_get? (by rw [sizes_clear, hs]) fun i k z hz => ?_
  have hz0 := entry_clear x i k
  rw [Block.entry, hz, Option.getD_some] at hz0
  have hsome : (y.get? i k).isSome := by
    obtain ⟨n, hn, hk⟩ := (Block.get?_isSome (sizes_clear x)).mp (Option.isSome_iff_exists.mpr ⟨z, hz⟩)
    exact (Block.get?_isSome hs.symm).mpr ⟨n, hn, hk⟩
  obtain ⟨w, hw⟩ := Option.isSome_iff_exists.mp hsome
  have hw0 := hy i k
  rw [Block.entry, hw, Option.getD_some] at hw0
  rw [hw, hw0, hz0]

/-- What is left where a seed is blank is the image of the seed. -/
theorem clear_blank {sizes : Array Nat} {seeds sens : Array (Block K)} {g : Block K → Block K}
    (hs : ∀ x ∈ sens, x.sizes = sizes) (hg : ∀ x, (g x).sizes = sizes)
    (hz : ∀ x : Block K, (∀ i k, x.entry i k = 0) → ∀ i k, (g x).entry i k = 0) {d : Nat}
    (hblank : Compaction.Blank Number.isZero seeds d) (x : Block K) (hx : x ∈ sens ∨ x ∈ Set.range g) :
    (x.map (·.map fun _ => (Number.zero : K)) : Block K) = g (seeds.getD d #[]) := by
  refine clear_eq_of_zero ?_ (hz _ (entry_of_blank hblank))
  rw [hg]
  obtain hx | ⟨y, rfl⟩ := hx
  · exact hs x hx
  · exact hg y

omit [Number K] [ExactRing K] in
theorem valuation_zero {x : Block K} (hx : ∀ i k, x.entry i k = 0) (s : Symbol) :
    valuation 0 inputs x s = 0 := by
  rw [valuation]
  split
  · exact hx _ _
  · rfl

omit [ExactRing K] in
theorem entry_tangent_zero {v : Block K} (hv : ∀ i k, v.entry i k = 0) (i k : Nat) :
    (tangent inputs outputs ρ v).entry i k = 0 :=
  entry_ofEntries_zero (fun _ _ => derivative_eq_zero fun s _ => valuation_zero hv s) i k

omit [ExactRing K] in
theorem entry_gradient_zero {w : Block K} (hw : ∀ i k, w.entry i k = 0) (i k : Nat) :
    (gradient inputs outputs ρ w).entry i k = 0 :=
  entry_ofEntries_zero (fun _ _ => Block.dot_zero hw _) i k

end Zeros

end Tape

/-- One value for each entry of the pattern. -/
def Matrix.Sized {T : Type} (m : Matrix T) : Prop := m.values.size = m.pattern.nnz

theorem Matrix.nnz_of_sized {T : Type} {ms : Array (Matrix T)} (h : ∀ m ∈ ms, m.Sized) :
    ms.map Matrix.nnz = (ms.map (·.pattern)).map Pattern.nnz := by
  rw [Array.map_map]
  exact Array.map_congr_left h

/-- A tape of `outputs` over `inputs`, under a signature with their patterns. Symbols may be free. -/
structure Sorts (inputs outputs : Array (Matrix (Expr K))) (sig : Signature K) (t : Tape K) : Prop where
  coherent : Expr.Coherent (Matrix.entries outputs)
  tape : Tape.ofGraph inputs outputs sig.options.liveVariables sig.options.sorting = .ok t
  inputPatterns : sig.inputs = inputs.map (·.pattern)
  outputPatterns : sig.outputs = outputs.map (·.pattern)
  inputSizes : sig.inputSizes = inputs.map Matrix.nnz
  outputSizes : sig.outputSizes = outputs.map Matrix.nnz

/-- All symbols are inputs. -/
structure Expresses (inputs outputs : Array (Matrix (Expr K))) (sig : Signature K) (t : Tape K) : Prop
    extends Sorts inputs outputs sig t where
  closed : Tape.Closed inputs outputs

section Made

variable {inputs outputs : Array (Matrix (Expr K))} {sig : Signature K} {t : Tape K}

theorem run_ofExpressions_error {o : Options K} {f : Fault}
    (hf : Tape.ofGraph inputs outputs o.liveVariables o.sorting = .error f) (uid : Nat) :
    (Definition.ofExpressions inputs outputs o).run uid = (.error f, uid) := by
  rw [Definition.ofExpressions, hf, run_bind_error (run_liftExcept (.error f))]

theorem run_ofExpressions_unresolved {o : Options K}
    (ht : Tape.ofGraph inputs outputs o.liveVariables o.sorting = .ok t) (hfree : ¬(t.free = #[] ∨ o.allowFree = true))
    (uid : Nat) : (Definition.ofExpressions inputs outputs o).run uid = (.error (t.unresolved o.name), uid) := by
  rw [Definition.ofExpressions, ht, run_bind_ok (run_liftExcept (.ok t))]
  dsimp only
  rw [if_pos (by simpa using hfree)]
  rfl

theorem run_ofExpressions_ok {o : Options K}
    (ht : Tape.ofGraph inputs outputs o.liveVariables o.sorting = .ok t) (hfree : t.free = #[] ∨ o.allowFree = true)
    (uid : Nat) : (Definition.ofExpressions inputs outputs o).run uid =
      (.ok (.expressions ⟨uid, o, inputs.map (·.pattern), outputs.map (·.pattern)⟩ t inputs), uid+1) := by
  rw [Definition.ofExpressions, ht, run_bind_ok (run_liftExcept (.ok t))]
  dsimp only
  rw [if_neg (by rcases hfree with h | h <;> simp [h])]
  rfl

/-- A function is made where the tape is, unless symbols are free that may not be. -/
theorem run_ofExpressions (hu : Expr.Coherent (Matrix.entries outputs)) (hin : ∀ m ∈ inputs, m.Sized)
    (hout : ∀ m ∈ outputs, m.Sized) (o : Options K) (uid : Nat)
    (ht : Tape.ofGraph inputs outputs o.liveVariables o.sorting = .ok t)
    (hfree : t.free = #[] ∨ o.allowFree = true) :
    ∃ sig, (Definition.ofExpressions inputs outputs o).run uid =
        (.ok (.expressions sig t inputs), uid+1) ∧ sig.options = o ∧ Sorts inputs outputs sig t :=
  ⟨_, run_ofExpressions_ok ht hfree uid, rfl, hu, ht, rfl, rfl, (Matrix.nnz_of_sized hin).symm,
    (Matrix.nnz_of_sized hout).symm⟩

theorem Sorts.of_run (hu : Expr.Coherent (Matrix.entries outputs)) (hin : ∀ m ∈ inputs, m.Sized)
    (hout : ∀ m ∈ outputs, m.Sized) {o : Options K} {uid uid' : Nat} {d : Definition K}
    (hd : (Definition.ofExpressions inputs outputs o).run uid = (.ok d, uid')) :
    ∃ sig t, d = .expressions sig t inputs ∧ sig.options = o ∧ Sorts inputs outputs sig t := by
  cases ht : Tape.ofGraph inputs outputs o.liveVariables o.sorting with
  | error f =>
    rw [run_ofExpressions_error ht] at hd
    cases hd
  | ok t =>
    by_cases hfree : t.free = #[] ∨ o.allowFree = true
    · obtain ⟨sig, hrun, ho, h⟩ := run_ofExpressions hu hin hout o uid ht hfree
      rw [hrun] at hd
      exact ⟨sig, t, (Except.ok.inj (congrArg Prod.fst hd)).symm, ho, h⟩
    · rw [run_ofExpressions_unresolved ht hfree] at hd
      cases hd

end Made

namespace Expresses

variable {inputs outputs : Array (Matrix (Expr K))} {sig : Signature K} {t : Tape K}

theorem free (h : Expresses inputs outputs sig t) : t.free = #[] := (h.closed.realizes h.tape).free

theorem exists_ofExpressions (h : Tape.Closed inputs outputs) (hin : ∀ m ∈ inputs, m.Sized)
    (hout : ∀ m ∈ outputs, m.Sized) (o : Options K) (uid : Nat) :
    ∃ sig t, (Definition.ofExpressions inputs outputs o).run uid =
        (.ok (.expressions sig t inputs), uid+1) ∧
      sig.options = o ∧ Expresses inputs outputs sig t := by
  obtain ⟨t, ht⟩ := Tape.exists_ofGraph h.distinct outputs o.liveVariables o.sorting
  obtain ⟨sig, hrun, ho, hs⟩ := run_ofExpressions h.coherent hin hout o uid ht
    (.inl (h.realizes ht).free)
  exact ⟨sig, t, hrun, ho, hs, h⟩

variable [CommRing K] [ExactRing K] {m : Machine K} {f a : Nat}

/-- Replaying the tape over the buffers. -/
theorem run_tape (h : Expresses inputs outputs sig t)
    (hr : ∀ e, Expr.ReachedFrom (Matrix.entries outputs) e → e.op ≠ .rem)
    (hb : m.frame.buffers.Shaped sig.inputSizes sig.outputSizes) (hf : f ≤ m.frame.buffers.forward)
    (ha : a ≤ m.frame.buffers.adjoint) :
    (Evaluate.tape sig t f a).run m =
      (.ok (), m.withBuffers (Tape.evaluated inputs outputs f a m.frame.buffers)) := by
  obtain ⟨places, slot, hc⟩ := Tape.ofGraph_compiled h.closed.coherent h.tape
  rw [h.inputSizes, h.outputSizes] at hb
  have heval := Tape.evaluate_numeric hc h.closed.coherent (h.closed.free hc)
    (fun e he => hr e ((hc.complete.mem_exprs e).mp he)) hb hf ha
  rw [Evaluate.tape, h.free]
  refine (run_bind_ok (Run.run_buffers m)).trans ?_
  rw [heval]
  rfl

/-- Sweeping the nonzero seeds only leaves the same buffers. -/
theorem run_compressed (h : Expresses inputs outputs sig t)
    (hr : ∀ e, Expr.ReachedFrom (Matrix.entries outputs) e → e.op ≠ .rem)
    (hb : m.frame.buffers.Shaped sig.inputSizes sig.outputSizes) (hf : f ≤ m.frame.buffers.forward)
    (ha : a ≤ m.frame.buffers.adjoint) :
    ∃ n, (Evaluate.compressed (Evaluate.tape sig t) f a).run m =
      (.ok n, m.withBuffers (Tape.evaluated inputs outputs f a m.frame.buffers)) := by
  have hfsens := Compaction.clear_expand_sens Number.isZero (Number.zero : K) hf hb.forward
    (Tape.tangent inputs outputs (Tape.valuation 0 inputs m.frame.buffers.input))
    fun d _ => Tape.clear_blank hb.forwardSens
      (fun _ => (Block.sizes_ofEntries _ _).trans h.outputSizes.symm) fun _ => Tape.entry_tangent_zero
  have hasens := Compaction.clear_expand_sens Number.isZero (Number.zero : K) ha hb.adjoint
    (Tape.gradient inputs outputs (Tape.valuation 0 inputs m.frame.buffers.input))
    fun d _ => Tape.clear_blank hb.adjointSens
      (fun _ => (Block.sizes_ofEntries _ _).trans h.inputSizes.symm) fun _ => Tape.entry_gradient_zero
  have hfront := Buffers.inFront_le m.frame.buffers hf ha
  have hrun := h.run_tape (m := m.withBuffers (m.frame.buffers.packed f a)) hr (hb.packed f a) hfront.1 hfront.2
  rw [Evaluate.compressed_eq, run_bind_ok (Run.run_buffers m), run_bind_ok (Run.run_modifyBuffers _ m)]
  refine ⟨m.frame.buffers.inFront f a, ?_⟩
  rw [run_bind_ok (Run.run_outcome hrun), run_bind_ok (Run.run_modifyBuffers _ _)]
  -- The moves are undone, so only the sensitivities are new.
  have hfinal : m.frame.buffers.unpacked f a (Tape.evaluated inputs outputs (m.frame.buffers.inFront f a).1
      (m.frame.buffers.inFront f a).2 (m.frame.buffers.packed f a)) = Tape.evaluated inputs outputs f a m.frame.buffers := by
    simp only [Buffers.unpacked, Tape.evaluated, Buffers.packed, Buffers.inFront, hfsens, hasens,
      Compaction.expand_compact _ _ hf, Compaction.expand_compact _ _ ha]
  exact congrArg (fun b => (Except.ok _, m.withBuffers b)) hfinal

omit [CommRing K] [ExactRing K] in
theorem irregular_eq_empty (finite : ∀ x : K, Number.finite x = true) (b : Buffers K) (f a : Nat) :
    Evaluate.irregular b f a = Report.empty := by
  simp [Evaluate.irregular, Report.empty, finite]

omit [CommRing K] [ExactRing K] in
theorem run_regularity (finite : ∀ x : K, Number.finite x = true) (sig : Signature K) (f a : Nat)
    (m : Machine K) : (Evaluate.regularity sig f a).run m = (.ok Report.empty, m) := by
  rw [Evaluate.regularity, run_bind_ok (Run.run_buffers m)]
  dsimp only
  rw [irregular_eq_empty finite]
  rfl

/-- An evaluation of directions that exist changes the buffers and the counters, and what is left of it is
the search for values that are not finite. -/
theorem run_around_regularity (h : Expresses inputs outputs sig t)
    (hr : ∀ e, Expr.ReachedFrom (Matrix.entries outputs) e → e.op ≠ .rem)
    (hb : m.frame.buffers.Shaped sig.inputSizes sig.outputSizes) (hf : f ≤ m.frame.buffers.forward)
    (ha : a ≤ m.frame.buffers.adjoint) :
    ∃ stats, (Evaluate.around sig (Evaluate.tape sig t) f a).run m =
      (Evaluate.regularity sig f a).run
        {m with frame := ⟨Tape.evaluated inputs outputs f a m.frame.buffers, stats⟩} := by
  have htail (nf na : Nat) : ∃ stats, (do
      modify fun m => {m with frame := {m.frame with
        stats := ⟨m.frame.stats.evaluations+1, m.frame.stats.forward+nf, m.frame.stats.adjoint+na⟩}}
      Evaluate.regularity sig f a : Run K Report).run
        (m.withBuffers (Tape.evaluated inputs outputs f a m.frame.buffers)) =
      (Evaluate.regularity sig f a).run
        {m with frame := ⟨Tape.evaluated inputs outputs f a m.frame.buffers, stats⟩} := by
    rw [run_bind_ok (Run.run_modify _ _)]
    exact ⟨_, rfl⟩
  rw [Evaluate.around, run_bind_ok (Run.run_buffers m), if_neg (by omega)]
  dsimp only at htail ⊢
  rw [if_neg (by omega)]
  split
  · obtain ⟨n, hn⟩ := h.run_compressed hr hb hf ha
    rw [run_bind_ok hn]
    exact htail n.1 n.2
  · rw [run_bind_ok (h.run_tape hr hb hf ha), pure_bind]
    exact htail f a

/-- An evaluation of directions that exist succeeds and changes the buffers and the counters. -/
theorem run_around (finite : ∀ x : K, Number.finite x = true) (h : Expresses inputs outputs sig t)
    (hr : ∀ e, Expr.ReachedFrom (Matrix.entries outputs) e → e.op ≠ .rem)
    (hb : m.frame.buffers.Shaped sig.inputSizes sig.outputSizes) (hf : f ≤ m.frame.buffers.forward)
    (ha : a ≤ m.frame.buffers.adjoint) :
    ∃ stats, (Evaluate.around sig (Evaluate.tape sig t) f a).run m =
      (.ok Report.empty,
        {m with frame := ⟨Tape.evaluated inputs outputs f a m.frame.buffers, stats⟩}) := by
  obtain ⟨stats, hrun⟩ := h.run_around_regularity hr hb hf ha
  exact ⟨stats, hrun.trans (run_regularity finite sig f a _)⟩

end Expresses

end Fluxion
