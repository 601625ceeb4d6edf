import Fluxion.Proofs.Function.Batches
import Fluxion.Proofs.Function.Decided

/-!
Instances that have room for their directions. However an instance came to its state, Jacobian values hinge on its
inputs alone.
-/
set_option autoImplicit false

namespace Fluxion

open Run

theorem toOption_eq_some {α : Type} {r : Except Fault α} {a : α} : r.toOption = some a ↔ r = .ok a := by
  cases r <;> simp [Except.toOption]

variable {K : Type} [Number K] {d : Definition K}

/-! ### Room -/

/-- There is room for the directions that there are. -/
def Frame.Roomy (g : Frame K) : Prop := Room g.buffers.directions

namespace Frame

variable {sig : Signature K}

omit [Number K] in
/-- Other buffers with as many directions. -/
theorem keeps_roomy {h : Buffers K → Buffers K} (hh : ∀ b, (h b).directions = b.directions) :
    Keeps Roomy (Run.modifyBuffers h) :=
  keeps_modifyBuffers fun g hg => by
    rw [Roomy, hh]
    exact hg

theorem roomy_requestDirections (f a : Nat) : Keeps Roomy (sig.requestDirections f a) := by
  rw [Signature.requestDirections]
  dsimp only
  refine keeps_when (keeps_warn _) (keeps_when (keeps_warn _) ?_)
  refine Keeps.bind keeps_buffers fun b => keeps_lift_bind fun _ hf =>
    Keeps.bind (keeps_modifyBuffers fun g h => ⟨?_, h.2⟩) fun _ => keeps_lift_bind fun _ ha =>
    Keeps.bind (keeps_modifyBuffers fun g h => ⟨h.1, ?_⟩) fun _ => keeps_pure _
  · change Count.hasRoom (Buffers.forward _) 24 = true
    rw [Buffers.forward_growForward]
    exact hasRoom_max h.1 (checkRoom_ok hf)
  · change Count.hasRoom (Buffers.adjoint _) 24 = true
    rw [Buffers.adjoint_growAdjoint]
    exact hasRoom_max h.2 (checkRoom_ok ha)

theorem roomy_seed (j : Assemble.Job) (k c : Nat) : Keeps Roomy (j.seed sig k c) := by
  rw [Assemble.Job.seed]
  dsimp only
  split
  · exact keeps_roomy fun b => by simp [Buffers.directions, Buffers.forward, Buffers.adjoint]
  · exact keeps_roomy fun b => by simp [Buffers.directions, Buffers.forward, Buffers.adjoint]

omit [Number K] in
theorem roomy_setInput (i : Nat) (x : Array K) : Keeps Roomy (sig.setInput i x) :=
  keeps_lift_bind fun _ _ => keeps_lift_bind fun _ _ => keeps_roomy fun _ => rfl

omit [Number K] in
theorem roomy_setForwardSeed (k i : Nat) (x : Array K) : Keeps Roomy (sig.setForwardSeed k i x) :=
  (keeps_checkForward k).bind fun _ => keeps_lift_bind fun _ _ => keeps_lift_bind fun _ _ => keeps_roomy fun b => by
    simp [Buffers.directions, Buffers.forward, Buffers.adjoint]

omit [Number K] in
theorem roomy_setAdjointSeed (k i : Nat) (x : Array K) : Keeps Roomy (sig.setAdjointSeed k i x) :=
  (keeps_checkAdjoint k).bind fun _ => keeps_lift_bind fun _ _ => keeps_lift_bind fun _ _ => keeps_roomy fun b => by
    simp [Buffers.directions, Buffers.forward, Buffers.adjoint]

omit [Number K] in
theorem roomy_setInputs (x : Block K) : Keeps Roomy (sig.setInputs x) := keeps_forM (fun _ => roomy_setInput _ _) _

end Frame

namespace Definition.Regular

variable {W E : Prop}

theorem roomy_evaluate (h : d.Regular W E) (f a : Nat) : Keeps Frame.Roomy (d.evaluate f a) := by
  intro m hm
  rw [Frame.Roomy, (h.settles (0,0) (0,0)).directions m.frame.buffers.directions f a m rfl]
  exact hm

theorem roomy_call (h : d.Regular W E) (x : Block K) : Keeps Frame.Roomy (d.call x) :=
  keeps_lift_bind fun _ _ => (Frame.roomy_setInputs x).bind fun _ => (h.roomy_evaluate 0 0).bind fun _ =>
    keeps_buffers.bind fun _ => keeps_pure _

theorem roomy_outputWith (h : d.Regular W E) (iind oind : Nat) (x : Array K) :
    Keeps Frame.Roomy (d.outputWith iind oind x) :=
  (Frame.roomy_setInput iind x).bind fun _ => Keeps.outcome ((h.roomy_evaluate 0 0).bind fun _ =>
    keeps_lift_bind fun _ _ => keeps_buffers.bind fun _ => keeps_pure _)

theorem roomy_jacobianValues (h : d.Regular W E) (iind oind : Nat) (symmetric : Bool) :
    Keeps Frame.Roomy (d.jacobianValues iind oind symmetric) :=
  keeps_lift_bind fun _ _ => keeps_lift_bind fun _ _ => (Assemble.keeps_run (Frame.roomy_seed _)
    h.roomy_evaluate Frame.roomy_requestDirections).bind fun _ => keeps_pure _

theorem roomy_centralDifference (h : d.Regular W E) (iind oind : Nat) (dir : Array K) (step : K) :
    Keeps Frame.Roomy (d.centralDifference iind oind dir step) := by
  rw [centralDifference]
  refine Keeps.bind (keeps_lift_bind fun _ _ => keeps_buffers.bind fun _ => keeps_pure _) fun x => ?_
  refine (h.roomy_outputWith iind oind _).bind fun plus => (h.roomy_outputWith iind oind _).bind fun minus => ?_
  exact (Frame.roomy_setInput iind x).bind fun _ => keeps_lift_bind fun _ _ => keeps_lift_bind fun _ _ => keeps_pure _

/-- Whatever an instance is asked, and however that ends, it makes no directions without room. -/
theorem roomy (h : d.Regular W E) (s : Step K) : Keeps Frame.Roomy (s.act d) := by
  cases s with
  | call x => exact (h.roomy_call x).bind fun _ => keeps_pure _
  | centralDifference iind oind dir step => exact (h.roomy_centralDifference iind oind dir step).bind fun _ => keeps_pure _
  | ask c =>
    cases c with
    | setInput i x => exact Frame.roomy_setInput i x
    | setForwardSeed k i x => exact Frame.roomy_setForwardSeed k i x
    | setAdjointSeed k i x => exact Frame.roomy_setAdjointSeed k i x
    | requestDirections f a => exact (Frame.roomy_requestDirections f a).bind fun _ => keeps_pure _
    | evaluate f a => exact (h.roomy_evaluate f a).bind fun _ => keeps_pure _
    | jacobianValues iind oind symmetric => exact (h.roomy_jacobianValues iind oind symmetric).bind fun _ => keeps_pure _

end Definition.Regular

/-! ### Jacobian values -/

/-- A machine of the definition that has room for its directions. -/
structure Machine.Seated (d : Definition K) (m : Machine K) : Prop where
  fits : m.Fits d d.sig.options.initial d.sig.options.limits
  room : m.frame.Roomy

theorem Definition.Sturdy.seated (h : d.Sturdy True) {i : Instance K} (hi : i.Reached d) :
    i.definition = d ∧ i.machine.Seated d := by
  obtain ⟨hdef, hfits⟩ := hi.lives h
  obtain ⟨first, steps, hfirst, rfl⟩ := hi
  obtain ⟨rfl, hroom⟩ := Instance.of?_eq hfirst
  refine ⟨hdef, hfits, ?_⟩
  have hkeeps (i : Instance K) (hd : i.definition = d) (hi : i.frame.Roomy) : (i.through steps).frame.Roomy := by
    clear hfirst hfits hdef
    induction steps generalizing i with
    | nil => exact hi
    | cons s steps ih =>
      refine ih _ hd ?_
      dsimp only
      rw [hd]
      exact h.regular.roomy s i.machine hi
  refine hkeeps (Instance.of d) rfl ?_
  have hstart : (Instance.of d).frame.buffers.directions = d.sig.options.initial := by
    simp [Instance.of, Signature.frame, Buffers.directions, Buffers.forward, Buffers.adjoint, Buffers.filled, Options.initial]
  rw [Frame.Roomy, hstart]
  exact hroom

/-- The Jacobian block at a point, where all that it needs is there. -/
def Definition.jacobianAnswer (d : Definition K) (iind oind : Nat) (symmetric : Bool) (x : Block K) :
    Option (Matrix K) := do
  let p ← (d.jacSparsity iind oind true symmetric).toOption
  let side ← (d.partition iind oind true symmetric).toOption
  return ⟨p, ← d.effect.values d.sig (.of iind oind p side symmetric) x⟩

/-- Whatever the state, Jacobian values hinge on the inputs, and leave them. -/
theorem Effect.Decides.yields_jacobianValues (h : d.effect.Decides d d.evaluate) {m : Machine K} (hm : m.Seated d)
    (iind oind : Nat) (symmetric : Bool) :
    Yields (d.jacobianAnswer iind oind symmetric m.frame.buffers.input) m (d.jacobianValues iind oind symmetric)
      fun _ n => n.Seated d ∧ n.frame.buffers.input = m.frame.buffers.input := by
  refine (Yields.lift _).bind fun p n _ hn => ?_
  subst hn
  refine (Yields.lift _).bind fun side n' _ hn' => ?_
  subst hn'
  have hlimited : Limited d.sig.options d.sig.options.limits :=
    ⟨d.sig.options.grants_limits 1 1, Nat.le_refl _, Nat.le_refl _⟩
  refine (h.yields_run (.of iind oind p side symmetric) hm.fits hm.room hlimited).bind fun values n _ hn => .pure ?_
  obtain ⟨-, dirs, ⟨hfits, hinput, hdirs⟩, hroom⟩ := hn
  exact ⟨⟨hfits, by rw [Frame.Roomy, hdirs]; exact hroom⟩, hinput⟩

/-- Definitions over callables that answer all outputs, with instances. -/
theorem Made.decides {n : Nat} (h : Made Callable.Complete n d) (hroom : Room d.sig.options.initial) :
    d.effect.Decides d d.evaluate := by
  obtain ⟨roots, -, hs⟩ := h.sound
  exact hs.decides hroom.granted_one

/-- Whatever was asked before, two instances of a definition with the same inputs have the same Jacobian values, or
none of them has. -/
theorem Made.jacobianValues_agree {n : Nat} (h : Made Callable.Complete n d) {i j : Instance K} (hi : i.Reached d)
    (hj : j.Reached d) (hin : j.frame.buffers.input = i.frame.buffers.input) (iind oind : Nat) (symmetric : Bool)
    (J : Matrix K) : (j.run (d.jacobianValues iind oind symmetric)).1 = .ok J ↔
      (i.run (d.jacobianValues iind oind symmetric)).1 = .ok J := by
  have hdecides := h.decides hi.room
  have hsturdy := h.sturdy hi.room (.inl trivial)
  have hanswer {i : Instance K} (hi : i.Reached d) := (hdecides.yields_jacobianValues (hsturdy.seated hi).2 iind oind
    symmetric).iff_ok (a := J)
  refine (hanswer hj).symm.trans ?_
  change d.jacobianAnswer iind oind symmetric j.frame.buffers.input = _ ↔ _
  rw [hin]
  exact hanswer hi

end Fluxion
