import Fluxion.Proofs.Function.Made
import Fluxion.Proofs.Function.Ready

/-!
Steps of an instance. Whatever an instance is asked, and however that ends, its buffers keep their sizes and it
drops no directions; and it breaks a precondition only where that is allowed.
-/
set_option autoImplicit false

namespace Fluxion

open Run

variable {K α β : Type} {W : Prop} {d : Definition K}

/-! ### Patterns and colorings -/

theorem Run.tame_bind {x : Except Fault α} {f : α → Except Fault β} (hx : ∀ e, x = .error e → Tame W e)
    (hf : ∀ a, x = .ok a → ∀ e, f a = .error e → Tame W e) : ∀ e, x >>= f = .error e → Tame W e := by
  cases x with
  | ok a => exact hf a rfl
  | error e =>
    intro e' he
    cases he
    exact hx e rfl

theorem Run.tame_guard {c : Prop} [Decidable c] {e : Fault} {f : β → Except Fault α} {x : Except Fault α}
    (he : ∀ v, e ≠ .violation v) (hx : ¬c → ∀ e, x = .error e → Tame W e) :
    ∀ e', (if c then throw e >>= f else x) = .error e' → Tame W e' := by
  intro e' h
  split at h
  · cases h
    exact .inr he
  · next hc => exact hx hc e' h

namespace Definition

theorem tame_symmetrize {p : Pattern} (h : p.isSquare = true) : ∀ e, p.symmetrize = .error e → Tame W e := by
  intro e he
  have hsquare : p.nrow = p.ncol := by simpa [Pattern.isSquare] using h
  rw [Pattern.symmetrize, if_pos h, Pattern.union, if_pos (by simp [hsquare])] at he
  cases he

/-- A pattern that is reported has the shape of its block. -/
theorem tame_detectPattern (ht : d.tape? = none) (iind oind : Nat) (symmetric : Bool) :
    ∀ e, d.detectPattern iind oind symmetric = .error e → Tame W e := by
  rw [detectPattern]
  refine tame_bind (Signature.tame_checkInput _) fun inp _ => tame_bind (Signature.tame_checkOutput _) fun out _ =>
    tame_guard (fun _ h => by cases h) fun hsquare => ?_
  rw [ht]
  split
  · next p _ =>
    refine tame_guard (fun _ h => by cases h) fun hshape => ?_
    split
    · next hs =>
      refine tame_symmetrize ?_
      have hcount : inp.nnz = out.nnz := by simpa [hs] using hsquare
      have hdims : p.nrow = out.nnz ∧ p.ncol = inp.nnz := by simpa using hshape
      simp [Pattern.isSquare, hdims, hcount]
    · exact fun _ h => by cases h
  · exact fun _ h => by cases h

theorem tame_jacSparsity_of {iind oind : Nat} {symmetric : Bool}
    (h : ∀ e, d.detectPattern iind oind symmetric = .error e → Tame W e) :
    ∀ e, d.jacSparsity iind oind true symmetric = .error e → Tame W e := by
  rw [jacSparsity]
  exact tame_bind (Signature.tame_checkInput _) fun _ _ => tame_bind (Signature.tame_checkOutput _) fun _ _ =>
    tame_bind h fun _ _ _ he => by cases he

theorem tame_star (p : Pattern) : ∀ e, Coloring.star p = .error e → Tame W e := by
  intro e he
  rw [Coloring.star] at he
  split at he <;> cases he
  exact .inr fun _ h => by cases h

theorem tame_partition {iind oind : Nat} {symmetric : Bool}
    (h : ∀ e, d.jacSparsity iind oind true symmetric = .error e → Tame W e) :
    ∀ e, d.partition iind oind true symmetric = .error e → Tame W e := by
  rw [partition]
  refine tame_bind h fun p _ => ?_
  cases symmetric with
  | true => exact tame_bind (tame_star p) fun _ _ _ he => by cases he
  | false =>
    intro e he
    simp only [Bool.false_eq_true, if_false, Bool.not_true] at he
    split at he
    · cases he
    · cases he
    · split at he <;> cases he

variable [Number K] {A : Callable K → Prop} {roots : List (Expr K)}

/-- A tape finds the pattern of every block that has as many places as entries. -/
theorem tame_jacSparsity_expressions {inputs outputs : Array (Matrix (Expr K))} {sig : Signature K} {t : Tape K}
    (h : Draws roots inputs outputs sig t) (hw : W ∨ t.outputSizes = sig.outputSizes) (iind oind : Nat)
    (symmetric : Bool) :
    ∀ e, (Definition.expressions sig t inputs).jacSparsity iind oind true symmetric = .error e → Tame W e := by
  obtain hw | hsizes := hw
  · exact fun _ _ => .inl hw
  obtain ⟨places, slot, hc⟩ := Tape.ofGraph_compiled h.coherent h.tape
  have hs : Sorts inputs outputs sig t := h.sorts (by
    rw [← hsizes, hc.outputSizes]
    exact Tape.storesWithin_outputs hc h.coherent)
  have hsig : (Definition.expressions sig t inputs).sig = sig := rfl
  intro e he
  cases hm : inputs[iind]? with
  | none =>
    have hin : sig.inputs[iind]? = none := by rw [h.inputPatterns, Array.getElem?_map, hm, Option.map_none]
    rw [jacSparsity, hsig, Signature.checkInput, hin] at he
    cases he
    exact .inr fun _ h => by cases h
  | some m =>
  cases hn : outputs[oind]? with
  | none =>
    have hout : sig.outputs[oind]? = none := by rw [h.outputPatterns, Array.getElem?_map, hn, Option.map_none]
    rw [jacSparsity, hsig, hs.checkInput hm, ok_bind, Signature.checkOutput, hout] at he
    cases he
    exact .inr fun _ h => by cases h
  | some n =>
  cases symmetric with
  | false =>
    rw [hs.jacSparsity hm hn] at he
    cases he
  | true =>
    refine tame_jacSparsity_of (fun e he => ?_) e he
    by_cases hsquare : n.values.size = m.values.size
    · obtain ⟨q, hq, -⟩ := hs.detectPattern_symmetric hm hn hsquare (S := fun _ _ => False)
        (fun _ _ h => h.elim) fun _ _ h => h
      rw [hq] at he
      cases he
    · rw [Symbolic.detectPattern_of_not_square hs hm hn hsquare] at he
      cases he
      exact .inr fun _ h => by cases h

theorem Sound.tame_jacSparsity (h : d.Sound A roots) (hw : W ∨ d.Entire) (iind oind : Nat) (symmetric : Bool) :
    ∀ e, d.jacSparsity iind oind true symmetric = .error e → Tame W e := by
  cases h with
  | expressions hd => exact tame_jacSparsity_expressions hd hw iind oind symmetric
  | external | jacobian | derivative => exact tame_jacSparsity_of (tame_detectPattern rfl _ _ _)

end Definition

/-! ### Single steps -/

namespace Run

theorem Ends.safe {G : Link K} {Q : α → α → Link K} {F : Machine K → Prop} {r : Except Fault α × Machine K}
    (h : Ends W G Q r r) (hF : ∀ m, G m m → F m) : F r.2 ∧ ∀ e, r.1 = .error e → Tame W e := by
  obtain ⟨r, n⟩ := r
  cases r with
  | ok a => exact ⟨hF n h.1, fun _ he => by cases he⟩
  | error e =>
    refine ⟨hF n h.1, fun e' he => ?_⟩
    cases he
    exact h.2.2

namespace Safe

variable {low high : Nat × Nat} {F : Machine K → Prop} {act : Run K α} {Q : α → α → Link K}

/-- What two runs from one machine keep, one run keeps. -/
theorem of_beside (h : Beside W (Joint True d low high) (onBuffers fun b b' => b' = b) act act Q) :
    Safe W (Machine.Fits d low high) act :=
  fun m hm => (h m m ⟨hm, hm, fun _ => rfl⟩ rfl).safe fun _ hg => hg.left

theorem buffers : Safe W F Run.buffers := fun _ hm => ⟨hm, fun _ he => by cases he⟩

/-- Other buffers of the same sizes. -/
theorem modifyBuffers {g : Buffers K → Buffers K}
    (h : ∀ b : Buffers K, b.Shaped d.sig.inputSizes d.sig.outputSizes → b.Recast d.sig (g b)) :
    Safe W (Machine.Fits d low high) (Run.modifyBuffers g) :=
  fun _ hm => ⟨⟨hm.frame.recast (h _ hm.frame.shaped), hm.inner⟩, fun _ he => by cases he⟩

/-- What comes after an outcome, which is no violation. -/
theorem bind_outcome {f : Except Fault α → Run K β} (h : Safe W F act)
    (hf : ∀ r : Except Fault α, (∀ e, r = .error e → Tame W e) → Safe W F (f r)) :
    Safe W F (Run.outcome act >>= f) := by
  intro m hm
  obtain ⟨hkept, htame⟩ := h m hm
  by_cases hv : ∃ c, (act.run m).1 = .error (.violation c)
  · obtain ⟨c, hc⟩ := hv
    rw [run_bind_error (run_outcome_violation hc)]
    exact ⟨hkept, fun e he => by cases he; exact htame _ hc⟩
  · rw [run_bind_ok (run_outcome_of fun c hc => hv ⟨c, hc⟩)]
    exact hf _ htame _ hkept

/-! ### Inputs and seeds -/

theorem setInput (i : Nat) (x : Array K) : Safe W (Machine.Fits d low high) (d.sig.setInput i x) :=
  of_beside ((Beside.setInput (S := fun _ _ => True) i x fun _ _ _ _ _ _ => trivial))

theorem input (i : Nat) : Safe W (Machine.Fits d low high) (d.sig.input i) :=
  .lift_bind (Signature.tame_checkInput i) fun _ _ => buffers.bind fun _ => .pure _

theorem output (i : Nat) : Safe W (Machine.Fits d low high) (d.sig.output i) :=
  .lift_bind (Signature.tame_checkOutput i) fun _ _ => buffers.bind fun _ => .pure _

theorem setForwardSeed (k i : Nat) (x : Array K) :
    Safe W (Machine.Fits d low high) (d.sig.setForwardSeed k i x) := by
  refine Safe.bind (buffers.bind fun b => ?_) fun _ => .lift_bind (Signature.tame_checkInput i) fun p hp =>
    .lift_bind (Signature.tame_checkLength _ _ _ _) fun _ hl => .modifyBuffers fun b hb => ?_
  · split
    · exact .throw (.inr fun _ h => by cases h)
    · exact .pure _
  · have hsize : d.sig.inputSizes[i]? = some x.size := by
      rw [Signature.checkInput_ok hp, Signature.checkLength_ok hl]
    exact ⟨⟨hb.input, hb.output, Frame.sizes_modify hb.forwardSeed k hsize, hb.forwardSens, hb.adjointSeed,
      hb.adjointSens, by simpa using hb.forward, hb.adjoint⟩, by simp [Buffers.forward], rfl⟩

theorem setAdjointSeed (k i : Nat) (x : Array K) :
    Safe W (Machine.Fits d low high) (d.sig.setAdjointSeed k i x) := by
  refine Safe.bind (buffers.bind fun b => ?_) fun _ => .lift_bind (Signature.tame_checkOutput i) fun p hp =>
    .lift_bind (Signature.tame_checkLength _ _ _ _) fun _ hl => .modifyBuffers fun b hb => ?_
  · split
    · exact .throw (.inr fun _ h => by cases h)
    · exact .pure _
  · have hsize : d.sig.outputSizes[i]? = some x.size := by
      rw [Signature.checkOutput_ok hp, Signature.checkLength_ok hl]
    exact ⟨⟨hb.input, hb.output, hb.forwardSeed, hb.forwardSens, Frame.sizes_modify hb.adjointSeed k hsize,
      hb.adjointSens, hb.forward, by simpa using hb.adjoint⟩, rfl, by simp [Buffers.adjoint]⟩

end Safe

end Run

/-! ### Steps -/

variable [Number K]

/-- What a definition has to be for its instances to withstand all steps: regular, and unless `W` with room for
all directions that its options allow and with patterns that are found. -/
structure Definition.Sturdy (W : Prop) (d : Definition K) : Prop where
  regular : d.Regular W True
  room : W ∨ Room d.sig.options.limits
  patterns : ∀ iind oind symmetric e, d.jacSparsity iind oind true symmetric = .error e → Tame W e

namespace Definition.Sturdy

variable {low : Nat × Nat}

/-- An evaluation with directions that are not there is refused. -/
theorem safe_evaluate (h : d.Sturdy W) (f a : Nat) (low high : Nat × Nat) :
    Safe W (Machine.Fits d low high) (d.evaluate f a) := by
  intro m hm
  by_cases hdirs : f ≤ m.frame.buffers.forward ∧ a ≤ m.frame.buffers.adjoint
  · exact ((h.regular.settles low high).beside f a m m ⟨hm, hm, fun _ => rfl⟩
      ⟨rfl, ⟨hdirs.1, hdirs.1, fun _ _ => rfl⟩, hdirs.2, hdirs.2, fun _ _ => rfl⟩).safe fun _ hg => hg.left
  · rw [evaluate_eq_around, Evaluate.around_eq, run_bind_ok (run_buffers m)]
    by_cases hf : m.frame.buffers.forward < f
    · rw [if_pos hf]
      exact ⟨hm, fun e he => .inr fun _ hv => by cases he; cases hv⟩
    · rw [if_neg hf]
      dsimp only
      rw [if_pos (by omega)]
      exact ⟨hm, fun e he => .inr fun _ hv => by cases he; cases hv⟩

theorem safe_requestDirections (h : d.Sturdy W) (f a : Nat) :
    Safe W (Machine.Fits d low d.sig.options.limits) (d.sig.requestDirections f a) :=
  .of_beside ((Beside.requestDirections (E := True) (d.sig.options.grants_limits f a)
    (h.room.imp_left fun hw => ⟨hw, .inl trivial⟩)).before fun m m' _ hm => by rw [onBuffers, hm])

theorem safe_jacobianValues (h : d.Sturdy W) (iind oind : Nat) (symmetric : Bool) :
    Safe W (Machine.Fits d low d.sig.options.limits) (d.jacobianValues iind oind symmetric) := by
  refine .lift_bind (h.patterns iind oind symmetric) fun p _ =>
    .lift_bind (tame_partition (h.patterns iind oind symmetric)) fun side _ => Safe.bind ?_ fun _ => .pure _
  have hrun := Assemble.beside_run (h.regular.settles low d.sig.options.limits)
    (.of iind oind p side symmetric) ⟨d.sig.options.grants_limits 1 1, h.room.imp_left fun hw => ⟨hw, trivial⟩,
      .inl trivial⟩
  exact .of_beside (hrun.before fun m m' _ hm => by rw [onBuffers, hm])

theorem safe_call (h : d.Sturdy W) (x : Block K) (low high : Nat × Nat) :
    Safe W (Machine.Fits d low high) (d.call x) :=
  .of_beside ((h.regular.beside_call x).before fun _ _ _ _ => trivial)

theorem safe_centralDifference (h : d.Sturdy W) (iind oind : Nat) (dir : Array K) (step : K) (low high : Nat × Nat) :
    Safe W (Machine.Fits d low high) (d.centralDifference iind oind dir step) := by
  have hat (x : Array K) {f : Except Fault (Array K) → Run K (Array K)}
      (hf : ∀ r : Except Fault (Array K), (∀ e, r = .error e → Tame W e) → Safe W (Machine.Fits d low high) (f r)) :
      Safe W (Machine.Fits d low high) (d.outputWith iind oind x >>= f) := by
    rw [outputWith, bind_assoc]
    exact (Safe.setInput iind x).bind fun _ => .bind_outcome ((h.safe_evaluate 0 0 low high).bind fun _ =>
      Safe.output oind) hf
  refine (Safe.input iind).bind fun x => hat _ fun plus hplus => hat _ fun minus hminus =>
    (Safe.setInput iind x).bind fun _ => .lift_bind hplus fun _ _ => .lift_bind hminus fun _ _ => .pure _

end Definition.Sturdy

/-- What an instance is asked. -/
inductive Step (K : Type) where
  | ask (c : Call K)
  | call (x : Block K)
  | centralDifference (iind oind : Nat) (dir : Array K) (h : K)

/-- The action, without what it answers. -/
def Step.act (d : Definition K) : Step K → Run K Unit
  | ask c => c.act d
  | call x => do let _ ← d.call x
  | centralDifference iind oind dir h => do let _ ← d.centralDifference iind oind dir h

/-- However a step ends, the instance keeps its sizes and drops no directions. -/
theorem Definition.Sturdy.safe (h : d.Sturdy W) (s : Step K) (low : Nat × Nat) :
    Safe W (Machine.Fits d low d.sig.options.limits) (s.act d) := by
  cases s with
  | call x => exact (h.safe_call x _ _).bind fun _ => .pure _
  | centralDifference iind oind dir step =>
    exact (h.safe_centralDifference iind oind dir step _ _).bind fun _ => .pure _
  | ask c =>
    cases c with
    | setInput i x => exact .setInput i x
    | setForwardSeed k i x => exact .setForwardSeed k i x
    | setAdjointSeed k i x => exact .setAdjointSeed k i x
    | requestDirections f a => exact (h.safe_requestDirections f a).bind fun _ => .pure _
    | evaluate f a => exact (h.safe_evaluate f a _ _).bind fun _ => .pure _
    | jacobianValues iind oind symmetric =>
      exact (h.safe_jacobianValues iind oind symmetric).bind fun _ => .pure _

/-! ### States of an instance -/

namespace Instance

variable {i : Instance K} {low high : Nat × Nat}

/-- The machine in which an instance runs. -/
def machine (i : Instance K) : Machine K := ⟨i.frame, i.inner, .empty⟩

/-- The instance after some steps, whatever they answered. -/
def through (i : Instance K) (steps : List (Step K)) : Instance K :=
  steps.foldl (fun i s => (i.run (s.act i.definition)).2.1) i

omit [Number K] in
theorem fits_run {act : Run K α} (h : Safe W (Machine.Fits d low high) act) (hi : i.machine.Fits d low high) :
    (i.run act).2.1.machine.Fits d low high ∧ ∀ e, (i.run act).1 = .error e → Tame W e :=
  have ⟨hkept, htame⟩ := h i.machine hi
  ⟨⟨hkept.frame, hkept.inner⟩, htame⟩

/-- An instance starts with its first directions, and without instances of the parents. -/
theorem fits_of (d : Definition K) :
    (Instance.of d).machine.Fits d d.sig.options.initial d.sig.options.limits := by
  have hmost : d.sig.options.granted d.sig.options.maxForward d.sig.options.maxAdjoint = d.sig.options.limits := by
    simp [Options.granted, Options.limits, Options.initialForward, Options.initialAdjoint]
  exact ⟨hmost ▸ Evaluate.fits_frame d _ _, d.innerFits_nil⟩

/-- An instance of the definition in some state. -/
structure Lives (d : Definition K) (i : Instance K) : Prop where
  definition : i.definition = d
  fits : i.machine.Fits d d.sig.options.initial d.sig.options.limits

theorem Lives.through (h : d.Sturdy W) (hi : i.Lives d) (steps : List (Step K)) : (i.through steps).Lives d := by
  induction steps generalizing i with
  | nil => exact hi
  | cons s steps ih =>
    refine ih ⟨hi.definition, ?_⟩
    dsimp only
    rw [hi.definition]
    exact (fits_run (h.safe s _) hi.fits).1

/-- An instance that was made, and then asked this and that. -/
def Reached (d : Definition K) (i : Instance K) : Prop :=
  ∃ first steps, Instance.of? d = .ok first ∧ i = first.through steps

theorem Reached.room (h : i.Reached d) : Room d.sig.options.initial := by
  obtain ⟨first, steps, hfirst, -⟩ := h
  exact (Instance.of?_eq hfirst).2

theorem Reached.lives (hi : i.Reached d) (h : d.Sturdy W) : i.Lives d := by
  obtain ⟨first, steps, hfirst, rfl⟩ := hi
  obtain ⟨rfl, -⟩ := Instance.of?_eq hfirst
  exact Lives.through h ⟨rfl, fits_of d⟩ steps

end Instance

theorem Definition.Sound.sturdy {A : Callable K → Prop} {roots : List (Expr K)} (h : d.Sound A roots)
    (hroom : Room d.sig.options.initial) (hw : W ∨ d.Entire ∧ Room d.sig.options.limits ∧ ∀ c, A c → c.Calm) :
    d.Sturdy W :=
  ⟨h.regular (fun _ _ => .inl trivial) hw hroom.granted_one, hw.imp_right fun h => h.2.1,
    h.tame_jacSparsity (hw.imp_right And.left)⟩

theorem Made.sturdy {A : Callable K → Prop} {n : Nat} (h : Made A n d) (hroom : Room d.sig.options.initial)
    (hw : W ∨ d.Entire ∧ Room d.sig.options.limits ∧ ∀ c, A c → c.Calm) : d.Sturdy W := by
  obtain ⟨roots, -, hs⟩ := h.sound
  exact hs.sturdy hroom hw

end Fluxion
