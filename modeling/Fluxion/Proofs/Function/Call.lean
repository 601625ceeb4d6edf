import Fluxion.Proofs.Function.Ready

/-!
Calls of a function that is made from expressions: the answers are the outputs at the point, each on its
pattern.
-/
set_option autoImplicit false

namespace Fluxion

variable {K : Type} {sig : Signature K}

namespace Signature

theorem run_setInput {i : Nat} {x : Array K} (hx : sig.inputSizes[i]? = some x.size) (m : Machine K) :
    (sig.setInput i x).run m = (.ok (), m.withBuffers
      {m.frame.buffers with input := m.frame.buffers.input.setIfInBounds i x}) := by
  rw [inputSizes, Array.getElem?_map, Option.map_eq_some_iff] at hx
  obtain ⟨p, hp, hnnz⟩ := hx
  have hinput : sig.checkInput i = .ok p := by
    rw [checkInput, hp]
    rfl
  have hlength : sig.checkLength .input i p.nnz x.size = .ok () := by
    rw [checkLength, if_pos hnnz]
    rfl
  rw [setInput, hinput, run_bind_ok (run_liftExcept _), hlength, run_bind_ok (run_liftExcept _)]
  exact Run.run_modifyBuffers _ m

/-- An index or a length that does not fit is refused before anything changes. -/
theorem setInput_refuses {i : Nat} {x : Array K} (hx : sig.inputSizes[i]? ≠ some x.size) (m : Machine K) :
    ∃ e, (sig.setInput i x).run m = (.error e, m) := by
  rw [setInput]
  cases hp : sig.checkInput i with
  | error e => exact ⟨e, run_bind_error (run_liftExcept _)⟩
  | ok p =>
    rw [run_bind_ok (run_liftExcept (.ok p))]
    cases hl : sig.checkLength .input i p.nnz x.size with
    | error e => exact ⟨e, run_bind_error (run_liftExcept _)⟩
    | ok u => exact absurd (checkLength_ok hl ▸ checkInput_ok hp) hx

theorem run_setInputs {x : Block K} (hx : x.sizes = sig.inputSizes) {m : Machine K}
    (hm : m.frame.buffers.input.size = x.size) :
    (sig.setInputs x).run m = (.ok (), m.withBuffers {m.frame.buffers with input := x}) := by
  have hloop (l : List (Array K × Nat)) (hl : ∀ e ∈ l, sig.inputSizes[e.2]? = some e.1.size)
      (m : Machine K) : (l.forM fun e => sig.setInput e.2 e.1).run m = (.ok (), m.withBuffers
        {m.frame.buffers with input := Recover.puts (l.map fun e => (e.2, some e.1)) m.frame.buffers.input}) := by
    induction l generalizing m with
    | nil => rfl
    | cons e l ih =>
      obtain ⟨he, hl⟩ := List.forall_mem_cons.mp hl
      rw [List.forM_eq_forM] at ih ⊢
      rw [List.forM_cons, run_bind_ok (run_setInput he m), ih hl]
      rfl
  have hput : Recover.puts (x.zipIdx.toList.map fun e => (e.2, some e.1)) m.frame.buffers.input = x := by
    refine Array.ext_getElem? fun i => ?_
    cases hi : x[i]? with
    | none =>
      rw [Array.getElem?_eq_none_iff, ← hm] at hi
      exact Array.getElem?_eq_none (by simpa using hi)
    | some v =>
      have hlt := (Array.getElem?_eq_some_iff.mp hi).1
      refine Recover.getElem?_puts (hm ▸ hlt) ⟨(i, some v), ?_, rfl⟩ ?_
      · simpa [List.mk_mem_zipIdx_iff_getElem?] using hi
      · rintro w hw rfl
        obtain ⟨⟨u, k⟩, hu, rfl⟩ := List.mem_map.mp hw
        have hget : x[k]? = some u := by simpa [List.mk_mem_zipIdx_iff_getElem?] using hu
        exact hget.symm.trans hi
  have hrun := hloop x.zipIdx.toList (fun e he => ?_) m
  · rwa [hput] at hrun
  · obtain ⟨v, i⟩ := e
    have hget : x[i]? = some v := by simpa [List.mk_mem_zipIdx_iff_getElem?] using he
    rw [← hx]
    simp [Block.sizes, hget]

end Signature

/-- Whatever an instance was asked before, at the point `x` its answers are the given matrices. -/
def Definition.Answers [Number K] (d : Definition K) (x : Block K) (ms : Array (Matrix K)) : Prop :=
  d.sig.outputs = ms.map (·.pattern) ∧ ∀ i, Instance.of? d = .ok i → ∀ calls : List (Call K),
    ((i.after calls).run (d.call x)).1 = .ok (ms.map (·.values))

variable [Field K] [Number K] [ExactField K] {inputs outputs : Array (Matrix (Expr K))} {t : Tape K}

theorem Expresses.run_call (h : Expresses inputs outputs sig t)
    (hr : ∀ e, Expr.ReachedFrom (Matrix.entries outputs) e → e.op ≠ .rem) {x : Block K}
    (hx : x.sizes = inputs.map Matrix.nnz) {m : Machine K} (hm : m.frame.Ready sig) :
    ∃ m', ((Definition.expressions sig t inputs).call x).run m =
      (.ok (Block.ofEntries (Expr.value (Tape.valuation 0 inputs x)) outputs), m') := by
  have hsizes : x.sizes = sig.inputSizes := hx.trans h.inputSizes.symm
  have hsize : x.size = sig.inputs.size := by
    simpa [Block.sizes, Signature.inputSizes] using congrArg Array.size hsizes
  have hcount : sig.checkCount x.size = .ok () := by
    rw [Signature.checkCount, if_pos hsize]
    rfl
  have hset := Signature.run_setInputs (m := m) hsizes (by
    simpa [Block.sizes] using congrArg Array.size (hm.shaped.input.trans hsizes.symm))
  have hready : (m.withBuffers {m.frame.buffers with input := x}).frame.buffers.Shaped sig.inputSizes
      sig.outputSizes := by
    obtain ⟨-, hout, hfs, hfr, has, har, hf, ha⟩ := hm.shaped
    exact ⟨hsizes, hout, hfs, hfr, has, har, hf, ha⟩
  obtain ⟨stats, hrun⟩ := h.run_around ExactField.finite hr hready (Nat.zero_le _) (Nat.zero_le _)
  have hunfold : (Definition.expressions sig t inputs).call x = (do
      sig.checkCount x.size
      sig.setInputs x
      let _ ← Evaluate.around sig (Evaluate.tape sig t) 0 0
      return (← Run.buffers).output) := rfl
  rw [hunfold, hcount, run_bind_ok (run_liftExcept _), run_bind_ok hset, run_bind_ok hrun]
  exact ⟨_, rfl⟩

theorem Expresses.answers (h : Expresses inputs outputs sig t)
    (hr : ∀ e, Expr.ReachedFrom (Matrix.entries outputs) e → e.op ≠ .rem) {x : Block K}
    (hx : x.sizes = inputs.map Matrix.nnz) :
    (Definition.expressions sig t inputs).Answers x
      (outputs.map (Matrix.map (Expr.value (Tape.valuation 0 inputs x)))) := by
  refine ⟨h.outputPatterns.trans (by simp [Matrix.map, Function.comp_def]), fun i hi calls => ?_⟩
  have hdef : i.definition = .expressions sig t inputs := (Instance.of?_eq_ok.mp hi).2.2 ▸ rfl
  obtain ⟨-, hready⟩ := h.ready_after hr hdef (Frame.ready_of? hi) calls
  obtain ⟨m', hrun⟩ := h.run_call hr hx (m := ⟨(i.after calls).frame, (i.after calls).inner, .empty⟩) hready
  refine (congrArg Prod.fst hrun).trans (congrArg Except.ok ?_)
  simp [Block.ofEntries, Matrix.map, Function.comp_def]

end Fluxion
