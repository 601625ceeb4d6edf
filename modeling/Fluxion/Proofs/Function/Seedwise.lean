import Fluxion.Proofs.Function.Effect
import Fluxion.Proofs.Function.Sparsity
import Fluxion.Proofs.Function.ZeroSeeds
import Fluxion.Proofs.Tape.Recorded

/-!
Evaluations of expressions, direction by direction. All directions share work slots and recorded derivatives, and
still each has the sensitivities of its own seed, whatever else is swept with it and whatever was there before.
-/
set_option autoImplicit false

namespace Fluxion

open Run

variable {K : Type} [Number K]

namespace Tape

variable {t : Tape K} {A : Arithmetic K K Id}

/-- A replay that stops tells nothing of values that are not finite. -/
theorem step_stops {taping : Bool} {s : Replay K} {el : Element K} {stop : Stopped K}
    (h : (Replay.step .numeric t taping s el).run = .error stop) (name : String) (r : Report) :
    stop.fault ≠ .irregular name r := by
  unfold Replay.step at h
  split at h
  · split at h <;> cases h
    simp
  · dsimp only at h
    split at h <;> cases h
    simp
  · cases h
  · split at h <;> cases h
    simp [unresolved]
  · split at h
    · next x y _ _ =>
      cases taping with
      | false => cases h
      | true =>
        change (Replay.taped s el x y).run = _ at h
        unfold Replay.taped at h
        split at h <;> cases h
        simp
    · cases h
      simp

theorem evaluate_stops {b : Buffers K} {f a : Nat} {stop : Stopped K}
    (h : (t.evaluate .numeric b f a).run = .error stop) (name : String) (r : Report) :
    stop.fault ≠ .irregular name r := by
  have hloop (taping : Bool) (els : List (Element K)) (s : Replay K)
      (h : (els.foldlM (Replay.step .numeric t taping) s).run = .error stop) : stop.fault ≠ .irregular name r := by
    induction els generalizing s with
    | nil => cases h
    | cons el els ih =>
      rw [List.foldlM_cons, ExceptT.run_bind] at h
      cases hstep : (Replay.step .numeric t taping s el).run with
      | ok s' =>
        rw [hstep] at h
        exact ih s' h
      | error e =>
        rw [hstep] at h
        cases h
        exact step_stops hstep name r
  rw [evaluate, ExceptT.run_bind, forwardPass_eq] at h
  cases hpass : (t.elements.toList.foldlM (Replay.step .numeric t (0 < f || 0 < a))
      (⟨.replicate t.worksize Number.zero, #[], b⟩ : Replay K) : ExceptT (Stopped K) Id (Replay K)).run with
  | ok s =>
    rw [hpass] at h
    cases h
  | error e =>
    rw [hpass] at h
    cases h
    exact hloop _ _ _ hpass

end Tape

/-- What a tape computes from inputs and one seed. -/
def Effect.ofTape (t : Tape K) (ins outs : Array Nat) : Effect K where
  value x := if t.free.isEmpty then (t.recorded outs false x).map (·.1) else none
  forward x v := if t.free.isEmpty then (t.recorded outs true x).map fun r => t.along outs r.2 v else none
  adjoint x w := if t.free.isEmpty then (t.recorded outs true x).map fun r => t.against ins r.2 w else none

namespace Evaluate

variable {d : Definition K} {roots : List (Expr K)} {inputs outputs : Array (Matrix (Expr K))} {sig : Signature K}
  {t : Tape K} {b : Buffers K} {f a : Nat}

/-- Every direction has its sensitivities from the records of one pass. -/
theorem ofTape_recorded (hfree : t.free.isEmpty = true) (ins : Array Nat) {outs : Array Nat} {x y : Block K}
    {ps : Array (K × K)} (hr : t.recorded outs (0 < f || 0 < a) x = some (y,ps)) :
    (Effect.ofTape t ins outs).value x = some y ∧
      (0 < f → ∀ v, (Effect.ofTape t ins outs).forward x v = some (t.along outs ps v)) ∧
      (0 < a → ∀ w, (Effect.ofTape t ins outs).adjoint x w = some (t.against ins ps w)) := by
  have htaped (hpos : 0 < f ∨ 0 < a) : t.recorded outs true x = some (y,ps) := by
    have htaping : (decide (0 < f) || decide (0 < a)) = true := by simpa using hpos
    rwa [htaping] at hr
  have hvalue : (t.recorded outs false x).map (·.1) = some y := by
    by_cases hpos : 0 < f ∨ 0 < a
    · rw [Tape.recorded_untaped (htaped hpos)]
      rfl
    · have htaping : (decide (0 < f) || decide (0 < a)) = false := by simpa using hpos
      rw [htaping] at hr
      rw [hr]
      rfl
  simp only [Effect.ofTape, hfree, if_true]
  exact ⟨hvalue, fun hf v => by rw [htaped (.inl hf), Option.map_some],
    fun ha w => by rw [htaped (.inr ha), Option.map_some]⟩

/-- A tape has an effect exactly if its pass comes to its end. -/
theorem has_ofTape_iff (hfree : t.free.isEmpty = true) {ins outs : Array Nat} :
    (Effect.ofTape t ins outs).Has f a b ↔ (t.recorded outs (0 < f || 0 < a) b.input).isSome := by
  constructor
  · rintro ⟨hvalue, hforward, hadjoint⟩
    simp only [Effect.ofTape, hfree, if_true, Option.isSome_map] at hvalue hforward hadjoint
    by_cases h0 : f = 0 ∧ a = 0
    · obtain ⟨rfl, rfl⟩ := h0
      exact hvalue
    · have htaping : (decide (0 < f) || decide (0 < a)) = true := by
        simp only [Bool.or_eq_true, decide_eq_true_eq]
        omega
      rw [htaping]
      by_cases hf : f = 0
      · exact hadjoint 0 (by omega)
      · exact hforward 0 (by omega)
  · intro h
    obtain ⟨⟨y, ps⟩, hr⟩ := Option.isSome_iff_exists.mp h
    obtain ⟨hvalue, hforward, hadjoint⟩ := ofTape_recorded hfree ins hr
    exact ⟨Option.isSome_of_eq_some hvalue, fun k hk => Option.isSome_of_eq_some (hforward (by omega) _),
      fun k hk => Option.isSome_of_eq_some (hadjoint (by omega) _)⟩

theorem decides_tape (h : Draws roots inputs outputs d.sig t) :
    (Effect.ofTape t d.sig.inputSizes d.sig.outputSizes).Decides d (tape d.sig t) := by
  intro low high f a m hm hf ha
  obtain ⟨places, slot, hc⟩ := Tape.ofGraph_compiled h.coherent h.tape
  have hcovers := (h.fitting (W := True) (.inl trivial)).covers
  have hshaped := hm.frame.shaped
  rw [tape]
  by_cases hfree : t.free.isEmpty = true
  · simp only [hfree, Bool.not_true, Bool.false_eq_true, if_false]
    refine .reading (Hinges.congr ?_ (has_ofTape_iff hfree).symm)
    have hends := Tape.evaluate_recorded hc h.coherent hcovers (h.inputSizes ▸ hshaped) hf ha
    cases hr : t.recorded d.sig.outputSizes (0 < f || 0 < a) m.frame.buffers.input with
    | none =>
      rw [hr] at hends
      obtain ⟨s, hs⟩ := hends
      simp only [hs]
      exact .writing (Hinges.throw.congr (by simp))
    | some r =>
      obtain ⟨y, ps⟩ := r
      rw [hr] at hends
      obtain ⟨hy, hrun⟩ := hends
      rw [← h.inputSizes] at hrun
      simp only [hrun]
      obtain ⟨hvalue, hforward, hadjoint⟩ := ofTape_recorded hfree d.sig.inputSizes hr
      have hsens := ((hshaped.withOutput hy).withForwardSens f
        (fun k => t.along d.sig.outputSizes ps (m.frame.buffers.forwardSeed.getD k #[])) fun _ =>
          Tape.sizes_along _ _ _ _).withAdjointSens a
        (fun k => t.against d.sig.inputSizes ps (m.frame.buffers.adjointSeed.getD k #[])) fun _ =>
          Tape.sizes_against _ _ _ _
      refine .intro_ok rfl rfl ⟨⟨hvalue, fun k hk => ?_, fun k hk => ?_⟩,
        ⟨rfl, rfl, rfl, Buffers.size_firstBlocks _ _ _, Buffers.size_firstBlocks _ _ _⟩,
        ⟨⟨hsens, hm.frame.forward, hm.frame.adjoint⟩, hm.inner⟩⟩
      · have hget := Buffers.getD_firstBlocks hk ((Nat.lt_of_lt_of_le hk hf).trans_eq hshaped.forward.symm)
          fun k => t.along d.sig.outputSizes ps (m.frame.buffers.forwardSeed.getD k #[])
        exact (hforward (by omega) _).trans (congrArg some hget.symm)
      · have hget := Buffers.getD_firstBlocks hk ((Nat.lt_of_lt_of_le hk ha).trans_eq hshaped.adjoint.symm)
          fun k => t.against d.sig.inputSizes ps (m.frame.buffers.adjointSeed.getD k #[])
        exact (hadjoint (by omega) _).trans (congrArg some hget.symm)
  · simp only [hfree, Bool.not_false, if_true]
    refine .intro_error rfl fun hhas => ?_
    have hvalue := hhas.value
    simp [Effect.ofTape, hfree] at hvalue

/-- A tape that fails tells nothing of values that are not finite. -/
theorem tape_fails {m n : Machine K} {e : Fault} (h : (tape sig t f a).run m = (.error e, n)) (name : String)
    (r : Report) : e ≠ .irregular name r := by
  rw [tape] at h
  split at h
  · change (Except.error (t.unresolved sig.name), m) = (Except.error e, n) at h
    cases h
    simp [Tape.unresolved]
  · rw [run_bind_ok (run_buffers m)] at h
    split at h
    · cases h
    · next s hs =>
      rw [run_bind_ok (run_modifyBuffers _ m)] at h
      change (Except.error s.fault, _) = (Except.error e, n) at h
      cases h
      exact Tape.evaluate_stops hs name r

end Evaluate

/-- The evaluation came to its sweeps: it returned, or it told of values that are not finite. -/
def Definition.Sweeps (d : Definition K) (m : Machine K) (f a : Nat) : Prop :=
  (∃ r, ((d.evaluate f a).run m).1 = .ok r) ∨ ∃ name r, ((d.evaluate f a).run m).1 = .error (.irregular name r)

namespace Definition

variable {sig : Signature K} {t : Tape K} {inputs : Array (Matrix (Expr K))} {m : Machine K} {f a : Nat}

/-- What the buffers hold after the sweeps they hold in the end. -/
theorem Sweeps.exists_run (h : (expressions sig t inputs).Sweeps m f a) :
    f ≤ m.frame.buffers.forward ∧ a ≤ m.frame.buffers.adjoint ∧ ∃ r n,
      (Evaluate.sweeping sig (Evaluate.tape sig t) f a).run m = (.ok r, n) ∧
      (((expressions sig t inputs).evaluate f a).run m).2.frame.buffers = n.frame.buffers := by
  have hfault {e : Fault} (he : ∀ name r, e ≠ .irregular name r)
      (hrun : (((expressions sig t inputs).evaluate f a).run m).1 = .error e) : False := by
    rw [Sweeps, hrun] at h
    obtain ⟨r, hr⟩ | ⟨name, r, hr⟩ := h
    · cases hr
    · exact he name r (Except.error.inj hr)
  rw [evaluate, Evaluate.around_eq, run_bind_ok (run_buffers m)] at hfault ⊢
  by_cases hf : m.frame.buffers.forward < f
  · rw [if_pos hf] at hfault
    exact (hfault (e := sig.outOfRange .forwardDirection (f-1) _) (by simp [Signature.outOfRange]) rfl).elim
  rw [if_neg hf] at hfault ⊢
  dsimp only at hfault ⊢
  by_cases ha : m.frame.buffers.adjoint < a
  · rw [if_pos ha] at hfault
    exact (hfault (e := sig.outOfRange .adjointDirection (a-1) _) (by simp [Signature.outOfRange]) rfl).elim
  rw [if_neg ha] at hfault ⊢
  refine ⟨Nat.le_of_not_lt hf, Nat.le_of_not_lt ha, ?_⟩
  have hsweep {e : Fault} {n : Machine K} (he : ∀ name r, e ≠ .irregular name r)
      (hrun : (Evaluate.sweeping sig (Evaluate.tape sig t) f a).run m = (.error e, n)) : False :=
    hfault he (by rw [run_bind_error hrun])
  cases hrun : (Evaluate.sweeping sig (Evaluate.tape sig t) f a).run m with
  | mk r n =>
    cases r with
    | ok k =>
      refine ⟨k, n, rfl, ?_⟩
      rw [run_bind_ok hrun, run_bind_ok (run_modify _ _), Evaluate.buffers_regularity]
    | error e =>
      refine (hsweep (fun name r he => ?_) hrun).elim
      have hv : ∀ c, ((Evaluate.sweeping sig (Evaluate.tape sig t) f a).run m).1 ≠ .error (.violation c) := by
        rw [hrun, he]
        simp
      obtain ⟨after, hafter, -⟩ := Evaluate.run_sweeping (expressions sig t inputs).keeps_dispatch
        (Nat.le_of_not_lt hf) (Nat.le_of_not_lt ha) rfl hv
      have hmap := congrArg Prod.fst (hafter.symm.trans hrun)
      dsimp only at hmap
      cases hd : (Evaluate.tape sig t (sig.swept m.frame.buffers f a).1 (sig.swept m.frame.buffers f a).2).run
          (m.arranged sig f a) with
      | mk s n' =>
        rw [dispatch, hd] at hmap
        cases s with
        | ok u => cases hmap
        | error e' =>
          obtain rfl : e' = e := Except.error.inj hmap
          exact Evaluate.tape_fails hd name r he

/-- The sensitivities after the sweeps are those of the seeds. -/
theorem Sweeps.gives {roots : List (Expr K)} {outputs : Array (Matrix (Expr K))}
    (h : (expressions sig t inputs).Sweeps m f a) (hd : Draws roots inputs outputs sig t)
    (hm : m.frame.buffers.Shaped sig.inputSizes sig.outputSizes) :
    let b := (((expressions sig t inputs).evaluate f a).run m).2.frame.buffers
    ((Effect.ofTape t sig.inputSizes sig.outputSizes).skipping sig).Gives f a m.frame.buffers b ∧
      m.frame.buffers.Undisturbed b ∧ f ≤ m.frame.buffers.forward ∧ a ≤ m.frame.buffers.adjoint := by
  obtain ⟨hf, ha, r, n, hrun, hbuffers⟩ := h.exists_run
  have hfits : m.Fits (expressions sig t inputs) (0,0) m.frame.buffers.directions :=
    ⟨⟨hm, ⟨Nat.zero_le _, Nat.le_refl _⟩, Nat.zero_le _, Nat.le_refl _⟩, trivial⟩
  have hdecides := (Evaluate.decides_tape (d := expressions sig t inputs) hd).sweeping
  obtain ⟨-, hleaves⟩ := (hdecides _ _ f a m hfits hf ha).of_ok hrun
  rw [hbuffers]
  exact ⟨hleaves.gives, hleaves.undisturbed, hf, ha⟩

end Definition

/-- Two evaluations of a function of expressions at the same inputs that come to their sweeps, from any buffers and
with any numbers of directions: equal seeds have equal sensitivities, forward and adjoint. -/
theorem Made.sensitivities_of_seed {A : Callable K → Prop} {n : Nat} {sig : Signature K} {t : Tape K}
    {inputs : Array (Matrix (Expr K))} (h : Made A n (.expressions sig t inputs)) {m m' : Machine K}
    (hm : m.frame.buffers.Shaped sig.inputSizes sig.outputSizes)
    (hm' : m'.frame.buffers.Shaped sig.inputSizes sig.outputSizes)
    (hin : m'.frame.buffers.input = m.frame.buffers.input) {f a f' a' : Nat}
    (hs : (Definition.expressions sig t inputs).Sweeps m f a)
    (hs' : (Definition.expressions sig t inputs).Sweeps m' f' a') :
    let b := (((Definition.expressions sig t inputs).evaluate f a).run m).2.frame.buffers
    let b' := (((Definition.expressions sig t inputs).evaluate f' a').run m').2.frame.buffers
    (∀ k < f, ∀ k' < f', m'.frame.buffers.forwardSeed[k']? = m.frame.buffers.forwardSeed[k]? →
      b'.forwardSens[k']? = b.forwardSens[k]?) ∧
    ∀ k < a, ∀ k' < a', m'.frame.buffers.adjointSeed[k']? = m.frame.buffers.adjointSeed[k]? →
      b'.adjointSens[k']? = b.adjointSens[k]? := by
  obtain ⟨roots, -, hsound⟩ := h.sound
  cases hsound with
  | @expressions _ _ _ outputs hd =>
    obtain ⟨hgives, hleft, hf, ha⟩ := hs.gives hd hm
    obtain ⟨hgives', hleft', hf', ha'⟩ := hs'.gives hd hm'
    have hget {bs : Array (Block K)} {k : Nat} (hk : k < bs.size) : bs[k]? = some (bs.getD k #[]) := by
      rw [Array.getD_eq_getD_getElem?, Array.getElem?_eq_getElem hk, Option.getD_some]
    have hseed {bs bs' : Array (Block K)} {k k' : Nat} (h : bs'[k']? = bs[k]?) : bs'.getD k' #[] = bs.getD k #[] := by
      rw [Array.getD_eq_getD_getElem?, Array.getD_eq_getD_getElem?, h]
    refine ⟨fun k hk k' hk' hsame => ?_, fun k hk k' hk' hsame => ?_⟩
    · have hsens := hgives'.forward k' hk'
      rw [hin, hseed hsame, hgives.forward k hk] at hsens
      rw [hget, hget, hsens]
      · rw [hleft.forward, hm.forward]
        exact Nat.lt_of_lt_of_le hk hf
      · rw [hleft'.forward, hm'.forward]
        exact Nat.lt_of_lt_of_le hk' hf'
    · have hsens := hgives'.adjoint k' hk'
      rw [hin, hseed hsame, hgives.adjoint k hk] at hsens
      rw [hget, hget, hsens]
      · rw [hleft.adjoint, hm.adjoint]
        exact Nat.lt_of_lt_of_le hk ha
      · rw [hleft'.adjoint, hm'.adjoint]
        exact Nat.lt_of_lt_of_le hk' ha'

/-- A function of a product and of a sum in which it is shared. -/
theorem Tape.sample_made {A : Callable ℚ → Prop} : ∃ sig t, Made A 5 (.expressions sig t sampleInputs) ∧
    sig.options = .standard 1 ∧ Expresses sampleInputs sampleOutputs sig t := by
  obtain ⟨sig, t, hrun, ho, hx⟩ := Expresses.exists_ofExpressions sample_closed sample_sized.1 sample_sized.2 (.standard 1) 4
  have hsymbols := (Expr.Built.nil (K := ℚ) 0).symbol "x" |>.symbol "y"
  have hproduct := hsymbols.apply (show Op.mul.isStructural = false from rfl) (a := .symbol ⟨0,"x"⟩)
    (b := .symbol ⟨1,"y"⟩) (.tail _ (.head _)) (.head _)
  have hsum := (hproduct.apply (show Op.add.isStructural = false from rfl) (b := .symbol ⟨0,"x"⟩) (.head _)
    (.tail _ (.tail _ (.head _)))).numbered
  have hroots : ∀ e ∈ Matrix.entries sampleInputs ++ Matrix.entries sampleOutputs, Expr.ReachedFrom
      [.binary 3 .add (.binary 2 .mul (.symbol ⟨0,"x"⟩) (.symbol ⟨1,"y"⟩)) (.symbol ⟨0,"x"⟩),
        .binary 2 .mul (.symbol ⟨0,"x"⟩) (.symbol ⟨1,"y"⟩), .symbol ⟨1,"y"⟩, .symbol ⟨0,"x"⟩] e := fun e he =>
    .root (by
      simp [Matrix.entries, sampleInputs, sampleOutputs, Matrix.column] at he ⊢
      tauto)
  exact ⟨sig, t, .expressions (hsum.of_reached hroots)
    sample_sized.1 sample_sized.2 hrun, ho, hx⟩

/-- One forward direction, with the seed of the second one of `mixedBuffers`. -/
def soleBuffers : Buffers ℚ :=
  {Buffers.filled #[2] #[2] 1 0 0 with
    input := #[#[3,4]]
    forwardSeed := #[#[#[1,2]]]
    forwardSens := #[#[#[6,6]]]}

/-- An instance of which the buffers are known. -/
def stateOf (b : Buffers ℚ) : Machine ℚ := ⟨⟨b, .zero⟩, [], .empty⟩

/-- A direction between others has the sensitivity that it has on its own. -/
theorem Made.sensitivities_of_seed_sample : ∃ sig t,
    Made (fun _ => True) 5 (.expressions sig t Tape.sampleInputs) ∧
    (Definition.expressions sig t Tape.sampleInputs).Sweeps (stateOf mixedBuffers) 2 2 ∧
    (Definition.expressions sig t Tape.sampleInputs).Sweeps (stateOf soleBuffers) 1 0 ∧
    (((Definition.expressions sig t Tape.sampleInputs).evaluate 1 0).run (stateOf soleBuffers)).2.frame.buffers.forwardSens[0]? =
    (((Definition.expressions sig t Tape.sampleInputs).evaluate 2 2).run (stateOf mixedBuffers)).2.frame.buffers.forwardSens[1]? := by
  obtain ⟨sig, t, hmade, -, hx⟩ := Tape.sample_made (A := fun _ => True)
  have hmixed : mixedBuffers.Shaped sig.inputSizes sig.outputSizes := by
    rw [hx.inputSizes, hx.outputSizes]
    constructor <;> simp [mixedBuffers, Buffers.filled, Block.filled, Block.sizes, Tape.sampleInputs,
      Tape.sampleOutputs, Matrix.nnz, Matrix.column]
  have hsole : soleBuffers.Shaped sig.inputSizes sig.outputSizes := by
    rw [hx.inputSizes, hx.outputSizes]
    constructor <;> simp [soleBuffers, Buffers.filled, Block.filled, Block.sizes, Tape.sampleInputs,
      Tape.sampleOutputs, Matrix.nnz, Matrix.column]
  have hsweeps {b : Buffers ℚ} (hb : b.Shaped sig.inputSizes sig.outputSizes) {f a : Nat} (hf : f ≤ b.forward)
      (ha : a ≤ b.adjoint) : (Definition.expressions sig t Tape.sampleInputs).Sweeps (stateOf b) f a := by
    obtain ⟨stats, hrun⟩ := hx.run_around (m := stateOf b) (fun _ => rfl) Tape.sample_ne_rem hb hf ha
    exact .inl ⟨_, congrArg Prod.fst hrun⟩
  have hs := hsweeps hmixed (f := 2) (a := 2) (by decide) (by decide)
  have hs' := hsweeps hsole (f := 1) (a := 0) (by decide) (by decide)
  obtain ⟨hforward, -⟩ := hmade.sensitivities_of_seed (m := stateOf mixedBuffers) hmixed
    (show (stateOf soleBuffers).frame.buffers.Shaped _ _ from hsole) rfl hs hs'
  exact ⟨sig, t, hmade, hs, hs', hforward 1 (by decide) 0 (by decide) rfl⟩

end Fluxion
