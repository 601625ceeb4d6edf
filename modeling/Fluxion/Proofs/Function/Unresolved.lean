import Mathlib
import Fluxion.Proofs.Function.Evaluate
import Fluxion.Proofs.Tape.Free

/-!
When a function can be made from expressions: its inputs have to be symbols of their own, and unless the options say
otherwise they have to be all the symbols that the outputs reach.
-/
set_option autoImplicit false

namespace Fluxion.Definition

variable {K : Type} [Number K] {inputs outputs : Array (Matrix (Expr K))}

/-- What making a function comes to after its tape has been sorted. -/
structure Concludes (inputs outputs : Array (Matrix (Expr K))) (o : Options K) (uid : Nat) : Prop where
  refused : ∀ f, Tape.ofGraph inputs outputs o.liveVariables o.sorting = .error f →
    (ofExpressions inputs outputs o).run uid = (.error f, uid)
  unresolved : ∀ t, Tape.ofGraph inputs outputs o.liveVariables o.sorting = .ok t → t.free ≠ #[] →
    o.allowFree = false →
      (ofExpressions inputs outputs o).run uid = (.error (.unresolvedSymbols o.name (t.free.map (·.name))), uid)
  made : ∀ t, Tape.ofGraph inputs outputs o.liveVariables o.sorting = .ok t → t.free = #[] ∨ o.allowFree = true →
    ∃ d, (ofExpressions inputs outputs o).run uid = (.ok d, uid+1) ∧ d.tape? = some t ∧ d.freeSymbols = t.free

theorem concludes (inputs outputs : Array (Matrix (Expr K))) (o : Options K) (uid : Nat) :
    Concludes inputs outputs o uid where
  refused _ hf := run_ofExpressions_error hf uid
  unresolved _ ht hfree hallow := run_ofExpressions_unresolved ht (by simp [hfree, hallow]) uid
  made _ ht hfree := ⟨_, run_ofExpressions_ok ht hfree uid, rfl, rfl⟩

/-- A tape cannot be sorted exactly when some input entry is no symbol or one that is an input already, and the first
such entry is reported. The free symbols of a tape are those that the outputs reach and that are no inputs, each once
and in the order in which the elements load them. They are named when a function is refused for them, which it is
unless there are none or the options allow them. -/
theorem ofExpressions_resolves (h : Expr.Coherent (Matrix.entries inputs ++ Matrix.entries outputs)) :
    (∀ live sorting,
      ((∃ f, Tape.ofGraph inputs outputs live sorting = .error f) ↔ ∃ n, Tape.Unfit inputs n) ∧
      (∀ n i k e, (Order.targets inputs)[n]? = some (i,k,e) → Tape.Unfit inputs n → (∀ m < n, ¬Tape.Unfit inputs m) →
        Tape.ofGraph inputs outputs live sorting = .error (.invalidInput i k)) ∧
      ∀ t, Tape.ofGraph inputs outputs live sorting = .ok t →
        Tape.Frees inputs outputs (Order.sorted outputs sorting).toList t) ∧
    ∀ o uid, Concludes inputs outputs o uid := by
  have hin : Expr.Coherent (Matrix.entries inputs) := h.mono fun e he => .root (List.mem_append_left _ he)
  have hout : Expr.Coherent (Matrix.entries outputs) := h.mono fun e he => .root (List.mem_append_right _ he)
  refine ⟨fun live sorting => ⟨Tape.ofGraph_error_iff hin, fun n i k e hn hunfit hfit => ?_, fun t ht => ?_⟩,
    concludes inputs outputs⟩
  · rw [Tape.ofGraph_eq, Tape.inputPlaces_unfit hin hn hunfit hfit]
    rfl
  · obtain ⟨places, slot, hc⟩ := Tape.ofGraph_compiled hout ht
    exact hc.frees h

/-- A sum of two symbols of one name. As inputs they have to be listed once each, and one that is left out is free. -/
theorem ofExpressions_resolves_namesakes :
    let x : Expr ℚ := .symbol ⟨0,"x"⟩
    let e : Expr ℚ := .binary 2 .add x (.symbol ⟨1,"x"⟩)
    Expr.Coherent (Matrix.entries #[.scalar x, .scalar x] ++ Matrix.entries #[.scalar e]) ∧
      Tape.ofGraph #[.scalar x, .scalar x] #[.scalar e] true .depthFirst = .error (.invalidInput 1 0) ∧
      Expr.Coherent (Matrix.entries #[.scalar x] ++ Matrix.entries #[.scalar e]) ∧
      (ofExpressions #[.scalar x] #[.scalar e] (.standard 1)).run 3 =
        (.error (.unresolvedSymbols "unnamed_function" #["x"]), 3) := by
  intro x e
  have hmade : Expr.Built 3 [e, .symbol ⟨1,"x"⟩, x] := by
    have hsymbols := (Expr.Built.nil (K := ℚ) 0).symbol "x" |>.symbol "x"
    exact hsymbols.apply (show Op.add.isStructural = false from rfl) (.tail _ (.head _)) (.head _)
  have htwice : Expr.Coherent (Matrix.entries #[.scalar x, .scalar x] ++ Matrix.entries #[.scalar e]) := by
    refine hmade.coherent fun a ha => ?_
    obtain rfl | rfl : a = x ∨ a = e := by simpa [Matrix.entries, Matrix.scalar, or_assoc] using ha
    · exact .tail _ (.tail _ (.head _))
    · exact .head _
  have honce : Expr.Coherent (Matrix.entries #[.scalar x] ++ Matrix.entries #[.scalar e]) :=
    htwice.mono fun a ha => .root (.tail _ ha)
  obtain ⟨htape, -⟩ := ofExpressions_resolves htwice
  obtain ⟨-, hrefused, -⟩ := htape true .depthFirst
  obtain ⟨-, hconcludes⟩ := ofExpressions_resolves honce
  refine ⟨htwice, hrefused 1 1 0 x rfl ⟨_, rfl, .inr ⟨(0,0,x), .head _, rfl⟩⟩ fun m hm => ?_, honce, ?_⟩
  · obtain rfl : m = 0 := by omega
    rintro ⟨t, ht, hnot | ⟨u, hu, -⟩⟩
    · cases ht
      exact hnot _ rfl
    · cases hu
  · have hfree : (Tape.ofGraph #[.scalar x] #[.scalar e] true .depthFirst).map (·.free) = .ok #[⟨1,"x"⟩] := by cbv
    cases ht : Tape.ofGraph #[.scalar x] #[.scalar e] true .depthFirst with
    | error f => rw [ht] at hfree; cases hfree
    | ok t =>
      rw [ht] at hfree
      have hfree : t.free = #[⟨1,"x"⟩] := Except.ok.inj hfree
      have hrun := (hconcludes (.standard 1) 3).unresolved t ht (by simp [hfree]) rfl
      rw [hfree, List.map_toArray] at hrun
      exact hrun

end Fluxion.Definition
