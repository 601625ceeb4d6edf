import Fluxion.Proofs.Expr.Simplified
import Fluxion.Proofs.Function.Substitute

/-!
Outputs at the input symbols. A function that is made of what the builders made gives its outputs again: nodes are new,
but no rule applies to any of them, so trees, symbols and constants are the same. No law of the numbers is needed.
-/
set_option autoImplicit false

namespace Fluxion

open Fluxion.Expr

variable {K : Type}

/-- The matrix without the numbers of its nodes. -/
def Matrix.bare (m : Matrix (Expr K)) : Matrix (Expr K) := m.map Expr.bare

theorem Matrix.map_eq_on {T U : Type} (f : T → U) (ms : Array (Matrix T)) :
    ms.map (Matrix.map f) = (Block.ofEntries f ms).on (ms.map (·.pattern)) := by
  refine Array.ext_getElem? fun i => ?_
  cases hm : ms[i]? <;> simp [Block.on, Block.ofEntries, Matrix.map, hm]

variable [Number K]

/-- What a replay makes is like what it is made for, over simplified nodes. -/
theorem Tape.carries_bare (symbols : List (Expr K)) :
    Carries (fun _ => True) symbols (fun e => e.Proper ∧ e.Simplified)
      fun roots e x => Denotes Expr.bare e.bare roots x where
  subset h hr := h.subset hr
  const _ _ v := (yields_const v).mono fun _ _ _ ⟨hx, _, he⟩ => ⟨hx, he ▸ rfl⟩
  unary h hx := yields_unary_again h.1 h.2 trivial hx
  binary h hx hy := yields_binary_again h.1 h.2 trivial hx hy

namespace Symbolic

variable {inputs outputs : Array (Matrix (Expr K))} {sig : Signature K} {t : Tape K} {symbols roots : List (Expr K)}

/-- A replay reads each symbol as it is. -/
theorem reads_again {places : Std.HashMap Nat (Nat × Nat)} {l : List (Node K)} {slot : Nat → Nat}
    (hc : Tape.Compiled inputs outputs places l slot t) (hu : Coherent roots) (hin : Present roots inputs)
    (hout : Present roots outputs) (y : Symbol) (hy : .symbol y ∈ Order.exprs l) :
    Tape.Reads places (fun e x => Denotes Expr.bare e.bare roots x) (inputs.map (·.values)) y := by
  obtain ⟨r, hr, hreach⟩ := (hc.complete.mem_exprs _).mp hy
  have hthere : ReachedFrom roots (.symbol y) := .trans hreach (hout r hr)
  rw [Tape.Reads]
  split
  · next i k hp =>
    obtain ⟨x, hx, hid⟩ := hc.placed.mem _ i k hp
    have hpresent : ReachedFrom roots x := hin x (Order.mem_targets_entries hx)
    obtain rfl : x = .symbol y := hu.unique x _ hpresent hthere hid
    exact ⟨_, Block.get?_values.mpr hx, hthere, rfl⟩
  · exact ⟨hthere, rfl⟩

theorem returns_outputsAt_inputs (h : Sorts inputs outputs sig t) (hu : Coherent roots) (hin : Present roots inputs)
    (hout : Present roots outputs) (hs : ∀ e, ReachedFrom (Matrix.entries outputs) e → e.Simplified) :
    Returns (fun _ => True) symbols roots (outputsAt (.expressions sig t inputs) inputs)
      fun _ results => results.map Matrix.bare = outputs.map Matrix.bare := by
  obtain ⟨places, slot, hc⟩ := Tape.ofGraph_compiled h.coherent h.tape
  rw [outputsAt_eq h.inputSizes]
  refine .bind (.lift (yields_buffers sig inputs 0 0)) fun roots₁ b h₁ ⟨i, _, hb⟩ => ?_
  subst hb
  have hshape := shaped_atSymbols h.inputSizes 0 0 (.const i Number.zero)
  have hcarries := Tape.carries_bare (K := K) symbols
  refine .bind (Tape.returns_replay (hcarries.returns_evaluate (fun e he => ⟨h.coherent.proper e he, hs e he⟩) hc
    h.coherent (hshape.output.trans h.outputSizes) fun y hy =>
      (reads_again hc hu hin hout y hy).mono fun _ _ hx => hx.subset h₁)) fun roots₂ c _ ⟨hsizes, hentries⟩ => ?_
  have himage : c.output.image Expr.bare = Block.ofEntries Expr.bare outputs := by
    refine Block.eq_ofEntries ((Block.sizes_image _ _).trans hsizes) fun i k e he => ?_
    obtain ⟨x, hx, hd⟩ := hentries i k e he
    rw [Block.get?_image, hx, Option.map_some, hd.2]
  refine .pure ?_
  calc (matrices sig.outputs c.output).map Matrix.bare
      = (c.output.image Expr.bare).on sig.outputs := Block.map_on Expr.bare sig.outputs c.output
    _ = (Block.ofEntries Expr.bare outputs).on (outputs.map (·.pattern)) := by rw [himage, h.outputPatterns]
    _ = outputs.map Matrix.bare := (Matrix.map_eq_on Expr.bare outputs).symm

end Symbolic

/-- The outputs of a function, taken at its own inputs, are the expressions it is made of, whatever its options and
whichever symbols are free: no rule applies to a node that the builders made. -/
theorem Definition.outputsAt_inputs {m n n' k : Nat} {made : List (Expr K)} (hmade : Built m made)
    {inputs outputs : Array (Matrix (Expr K))} (hin : ∀ e ∈ Matrix.entries inputs, e ∈ made)
    (hout : ∀ e ∈ Matrix.entries outputs, e ∈ made) (hins : ∀ x ∈ inputs, x.Sized) (houts : ∀ x ∈ outputs, x.Sized)
    {o : Options K} {d : Definition K} (hd : (ofExpressions inputs outputs o).run n = (.ok d, n')) (hk : m ≤ k) :
    (∀ e, ReachedFrom (Matrix.entries outputs) e → e.Simplified) ∧
    ∃ results k', (Symbolic.outputsAt d inputs).run k = (.ok results, k') ∧
      results.map Matrix.bare = outputs.map Matrix.bare := by
  have hsimplified (e : Expr K) (he : ReachedFrom (Matrix.entries outputs) e) : e.Simplified := by
    obtain ⟨r, hr, he⟩ := he
    exact (hmade.simplified r (hout r hr)).of_reaches he
  obtain ⟨sig, t, rfl, -, h⟩ := Sorts.of_run (hmade.coherent hout) hins houts hd
  have hstock : Stock (fun _ => True) made m made :=
    ⟨hmade.numbered, fun s hs => hmade.symbol_mem hs, fun _ _ _ => trivial⟩
  obtain ⟨results, k', roots, hrun, -, -, hresults⟩ := (Symbolic.returns_outputsAt_inputs h hmade.numbered.toCoherent
    (fun e he => .root (hin e he)) (fun e he => .root (hout e he)) hsimplified).exists_run (hstock.mono hk)
  exact ⟨hsimplified, results, k', hrun, hresults⟩

/-- A sum over an input and a free symbol. -/
theorem Definition.outputsAt_inputs_free :
    let x : Expr ℚ := .symbol ⟨0,"x"⟩
    let y : Expr ℚ := .symbol ⟨1,"y"⟩
    let e : Expr ℚ := .binary 3 .add (.unary 2 .sq x) y
    Built 4 [e, .unary 2 .sq x, y, x] ∧ (∀ d ∈ Matrix.entries #[.scalar x], d ∈ [e, .unary 2 .sq x, y, x]) ∧
    (∀ d ∈ Matrix.entries #[.scalar e], d ∈ [e, .unary 2 .sq x, y, x]) ∧
    (∀ m ∈ #[Matrix.scalar x], m.Sized) ∧ (∀ m ∈ #[Matrix.scalar e], m.Sized) ∧
    ∃ d n', (ofExpressions #[.scalar x] #[.scalar e] {Options.standard 1 with allowFree := true}).run 4 = (.ok d, n') ∧
      ∃ results k', (Symbolic.outputsAt d #[.scalar x]).run 5 = (.ok results, k') ∧
        results.map Matrix.bare = #[(Matrix.scalar e).bare] := by
  intro x y e
  have hmade : Built 4 [e, .unary 2 .sq x, y, x] := by
    have hsymbols := (Built.nil (K := ℚ) 0).symbol "x" |>.symbol "y"
    have hsquare := hsymbols.apply (show Op.sq.isStructural = false from rfl) (a := x) (b := x) (.tail _ (.head _))
      (.tail _ (.head _))
    exact hsquare.apply (show Op.add.isStructural = false from rfl) (.head _) (.tail _ (.head _))
  have hin : ∀ d ∈ Matrix.entries #[.scalar x], d ∈ [e, .unary 2 .sq x, y, x] := by
    simp [Matrix.entries, Matrix.scalar]
  have hout : ∀ d ∈ Matrix.entries #[.scalar e], d ∈ [e, .unary 2 .sq x, y, x] := by
    simp [Matrix.entries, Matrix.scalar]
  have hins : ∀ m ∈ #[Matrix.scalar x], m.Sized := by simp [Matrix.Sized, Matrix.scalar, Pattern.scalar]
  have houts : ∀ m ∈ #[Matrix.scalar e], m.Sized := by simp [Matrix.Sized, Matrix.scalar, Pattern.scalar]
  have hdistinct : DistinctSymbols #[Matrix.scalar x] := by constructor <;> simp [Matrix.entries, Matrix.scalar, x]
  obtain ⟨t, ht⟩ := Tape.exists_ofGraph hdistinct #[.scalar e] true .depthFirst
  obtain ⟨sig, hrun, -, -⟩ := run_ofExpressions (hmade.coherent hout) hins houts
    {Options.standard 1 with allowFree := true} 4 ht (.inr rfl)
  obtain ⟨-, results, k', hresults, hbare⟩ := outputsAt_inputs hmade hin hout hins houts hrun (k := 5) (by decide)
  exact ⟨hmade, hin, hout, hins, houts, _, _, hrun, results, k', hresults, hbare.trans (by simp)⟩

end Fluxion
