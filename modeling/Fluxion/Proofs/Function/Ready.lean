import Fluxion.Proofs.Function.Evaluate
import Fluxion.Proofs.Function.UnitSeeds

/-!
States of an instance. Whatever an instance of a function of expressions is asked, also when it refuses, its
buffers keep the sizes of the inputs and outputs and have no more directions than there is room for.
-/
set_option autoImplicit false

namespace Fluxion

variable {K T : Type}

namespace Block

theorem sizes_setIfInBounds {b : Block T} {i : Nat} {v : Array T} (h : b.sizes[i]? = some v.size) :
    sizes (b.setIfInBounds i v) = b.sizes := by
  refine Array.ext_getElem? fun j => ?_
  simp only [sizes, Array.getElem?_map, Array.getElem?_setIfInBounds] at h ⊢
  split
  · next hij =>
    subst hij
    rw [h]
    split
    · rfl
    · next hi => simp [hi] at h
  · rfl

end Block

namespace Buffers

variable {b : Buffers T} {ins outs : Array Nat}

theorem size_extendTo (bs : Array (Block T)) (n : Nat) (x : Block T) :
    (extendTo bs n x).size = max bs.size n := by
  simp only [extendTo, Array.size_append, Array.size_replicate]
  omega

theorem mem_extendTo {bs : Array (Block T)} {n : Nat} {x y : Block T} (h : y ∈ extendTo bs n x) :
    y ∈ bs ∨ y = x := by
  obtain h | h := Array.mem_append.mp h
  · exact .inl h
  · exact .inr (Array.eq_of_mem_replicate h)

@[simp] theorem forward_growForward (b : Buffers T) (n : Nat) (x : T) :
    (b.growForward n x).forward = max b.forward n := size_extendTo _ _ _

@[simp] theorem adjoint_growForward (b : Buffers T) (n : Nat) (x : T) :
    (b.growForward n x).adjoint = b.adjoint := rfl

@[simp] theorem forward_growAdjoint (b : Buffers T) (n : Nat) (x : T) :
    (b.growAdjoint n x).forward = b.forward := rfl

@[simp] theorem adjoint_growAdjoint (b : Buffers T) (n : Nat) (x : T) :
    (b.growAdjoint n x).adjoint = max b.adjoint n := size_extendTo _ _ _

theorem sizes_of_mem_extendTo {ns : Array Nat} {bs : Array (Block T)} (h : ∀ x ∈ bs, x.sizes = ns)
    {n : Nat} {x : T} : ∀ y ∈ extendTo bs n (.filled ns x), y.sizes = ns := by
  intro y hy
  obtain hy | rfl := mem_extendTo hy
  · exact h y hy
  · exact Block.sizes_filled ns x

theorem Shaped.growForward (h : b.Shaped ins outs) (n : Nat) (x : T) :
    (b.growForward n x).Shaped ins outs := by
  have hseed := sizes_of_mem_extendTo h.forwardSeed (n := n) (x := x)
  have hsens := sizes_of_mem_extendTo h.forwardSens (n := n) (x := x)
  rw [← h.input] at hseed
  rw [← h.output] at hsens
  refine ⟨h.input, h.output, fun y hy => (hseed y hy).trans h.input,
    fun y hy => (hsens y hy).trans h.output, h.adjointSeed, h.adjointSens, ?_, h.adjoint⟩
  change (extendTo _ _ _).size = (extendTo _ _ _).size
  rw [size_extendTo, size_extendTo, h.forward]

theorem Shaped.growAdjoint (h : b.Shaped ins outs) (n : Nat) (x : T) :
    (b.growAdjoint n x).Shaped ins outs := by
  have hseed := sizes_of_mem_extendTo h.adjointSeed (n := n) (x := x)
  have hsens := sizes_of_mem_extendTo h.adjointSens (n := n) (x := x)
  rw [← h.output] at hseed
  rw [← h.input] at hsens
  refine ⟨h.input, h.output, h.forwardSeed, h.forwardSens, fun y hy => (hseed y hy).trans h.output,
    fun y hy => (hsens y hy).trans h.input, h.forward, ?_⟩
  change (extendTo _ _ _).size = (extendTo _ _ _).size
  rw [size_extendTo, size_extendTo, h.adjoint]

end Buffers

namespace Run

variable {α β : Type} {I : Frame K → Prop}

/-- The action leaves a property of the frame as it is, whether it returns or faults. -/
def Keeps (I : Frame K → Prop) (act : Run K α) : Prop :=
  ∀ m : Machine K, I m.frame → I (act.run m).2.frame

/-- What an action keeps holds where it returns. -/
theorem Keeps.of_run {act : Run K α} {m m' : Machine K} {a : α} (h : Keeps I act) (hrun : act.run m = (.ok a, m'))
    (hm : I m.frame) : I m'.frame := by
  have hkept := h m hm
  rwa [hrun] at hkept

theorem run_throw (e : Fault) (m : Machine K) : (throw e : Run K α).run m = (.error e, m) := rfl

theorem keeps_pure (a : α) : Keeps I (pure a) := fun _ h => h

theorem keeps_throw (e : Fault) : Keeps I (throw e : Run K α) := fun _ h => h

theorem keeps_buffers : Keeps I buffers := fun _ h => h

theorem keeps_warn (s : String) : Keeps I (warn s) := fun _ h => h

theorem keeps_modifyBuffers {f : Buffers K → Buffers K}
    (hf : ∀ g : Frame K, I g → I {g with buffers := f g.buffers}) : Keeps I (modifyBuffers f) :=
  fun m h => hf m.frame h

theorem Keeps.bind {act : Run K α} {f : α → Run K β} (h : Keeps I act) (hf : ∀ a, Keeps I (f a)) :
    Keeps I (act >>= f) := by
  intro m hm
  have hact := h m hm
  cases he : act.run m with
  | mk r m' =>
    rw [he] at hact
    cases r with
    | ok a =>
      rw [run_bind_ok he]
      exact hf a m' hact
    | error e =>
      rw [run_bind_error he]
      exact hact

/-- As `bind`, where the action does not touch the frame and its value is known. -/
theorem keeps_lift_bind {r : Except Fault α} {f : α → Run K β}
    (hf : ∀ a, r = .ok a → Keeps I (f a)) : Keeps I ((liftM r : Run K α) >>= f) := by
  intro m hm
  cases hr : r with
  | ok a =>
    rw [run_bind_ok (run_liftExcept (.ok a))]
    exact hf a hr m hm
  | error e =>
    rw [run_bind_error (run_liftExcept (.error e))]
    exact hm

theorem keeps_when {α : Type} {c : Prop} [Decidable c] {act : Run K PUnit} {rest : Run K α}
    (h : Keeps I act) (hr : Keeps I rest) : Keeps I (do
      if c then act
      rest) := by
  split
  · exact h.bind fun _ => hr
  · exact hr

theorem keeps_foldlM {f : β → α → Run K β} (hf : ∀ b x, Keeps I (f b x)) (xs : List α) (b : β) :
    Keeps I (xs.foldlM f b) := by
  induction xs generalizing b with
  | nil => exact keeps_pure b
  | cons x xs ih =>
    rw [List.foldlM_cons]
    exact (hf b x).bind ih

theorem keeps_forM {f : α → Run K PUnit} (hf : ∀ x, Keeps I (f x)) (xs : List α) :
    Keeps I (xs.forM f) := by
  induction xs with
  | nil => exact keeps_pure PUnit.unit
  | cons x xs ih => exact (hf x).bind fun _ => ih

end Run

/-- Buffers of the right sizes, and room for their directions. -/
structure Frame.Ready (sig : Signature K) (f : Frame K) : Prop where
  shaped : f.buffers.Shaped sig.inputSizes sig.outputSizes
  forward : Count.hasRoom f.buffers.forward 24 = true
  adjoint : Count.hasRoom f.buffers.adjoint 24 = true

variable {sig : Signature K}

namespace Signature

theorem inputs_of_checkInput {i : Nat} {p : Pattern} (h : sig.checkInput i = .ok p) : sig.inputs[i]? = some p := by
  rw [checkInput] at h
  split at h
  · next q hq => rw [hq, Except.ok.inj h]
  · cases h

theorem outputs_of_checkOutput {i : Nat} {p : Pattern} (h : sig.checkOutput i = .ok p) :
    sig.outputs[i]? = some p := by
  rw [checkOutput] at h
  split at h
  · next q hq => rw [hq, Except.ok.inj h]
  · cases h

theorem checkInput_ok {i : Nat} {p : Pattern} (h : sig.checkInput i = .ok p) :
    sig.inputSizes[i]? = some p.nnz := by
  rw [inputSizes, Array.getElem?_map, inputs_of_checkInput h, Option.map_some]

theorem checkOutput_ok {i : Nat} {p : Pattern} (h : sig.checkOutput i = .ok p) :
    sig.outputSizes[i]? = some p.nnz := by
  rw [outputSizes, Array.getElem?_map, outputs_of_checkOutput h, Option.map_some]

theorem checkLength_ok {place : Place} {i expected got : Nat} {u : Unit}
    (h : sig.checkLength place i expected got = .ok u) : expected = got := by
  rw [checkLength] at h
  split at h
  · assumption
  · cases h

end Signature

theorem checkRoom_ok {n : Nat} {u : Unit} (h : Buffers.checkRoom n = .ok u) :
    Count.hasRoom n 24 = true := Count.checkRoom_eq_ok_iff.mp h

/-- An instance is made if there is room for the directions that it starts with. -/
theorem Instance.of?_eq_ok [Number K] {d : Definition K} {i : Instance K} : Instance.of? d = .ok i ↔
    Count.hasRoom d.sig.options.initialForward 24 = true ∧
      Count.hasRoom d.sig.options.initialAdjoint 24 = true ∧ i = .of d := by
  have hroom (n : Nat) : Buffers.checkRoom n = .ok () ↔ Count.hasRoom n 24 = true :=
    Count.checkRoom_eq_ok_iff
  rw [Instance.of?, ← hroom, ← hroom]
  cases hf : Buffers.checkRoom d.sig.options.initialForward with
  | error e => simp [bind, Except.bind]
  | ok _ =>
    cases ha : Buffers.checkRoom d.sig.options.initialAdjoint with
    | error e => simp [bind, Except.bind]
    | ok _ => simpa [bind, Except.bind, pure, Except.pure] using eq_comm

namespace Frame

open Run

/-- Other buffers of the same sizes and with the same directions. -/
theorem Ready.replace {f : Frame K} (h : f.Ready sig) {b : Buffers K}
    (hb : b.Shaped sig.inputSizes sig.outputSizes) (hf : b.forward = f.buffers.forward)
    (ha : b.adjoint = f.buffers.adjoint) : Ready sig {f with buffers := b} :=
  ⟨hb, hf ▸ h.forward, ha ▸ h.adjoint⟩

theorem keeps_setInput (i : Nat) (x : Array K) : Keeps (Ready sig) (sig.setInput i x) := by
  refine keeps_lift_bind fun p hp => keeps_lift_bind fun _ hl => keeps_modifyBuffers fun f h => ?_
  have hsize : f.buffers.input.sizes[i]? = some x.size := by
    rw [h.shaped.input, Signature.checkInput_ok hp, Signature.checkLength_ok hl]
  obtain ⟨hin, hout, hfs, hfr, has, har, hf, ha⟩ := h.shaped
  exact h.replace ⟨(Block.sizes_setIfInBounds hsize).trans hin, hout, hfs, hfr, has, har, hf, ha⟩ rfl rfl

theorem sizes_modify {ns : Array Nat} {bs : Array (Block K)} (h : ∀ x ∈ bs, x.sizes = ns) (d : Nat)
    {i : Nat} {v : Array K} (hv : ns[i]? = some v.size) :
    ∀ x ∈ bs.modify d (·.setIfInBounds i v), Block.sizes x = ns := by
  intro x hx
  obtain ⟨l, hl⟩ := Array.mem_iff_getElem?.mp hx
  rw [Array.getElem?_modify] at hl
  split at hl
  · obtain ⟨y, hy, rfl⟩ := Option.map_eq_some_iff.mp hl
    have hys := h y (Array.mem_of_getElem? hy)
    rw [Block.sizes_setIfInBounds (by rw [hys, hv]), hys]
  · exact h x (Array.mem_of_getElem? hl)

theorem keeps_checkForward {I : Frame K → Prop} (d : Nat) : Keeps I (sig.checkForward d) := by
  refine Keeps.bind keeps_buffers fun b => ?_
  split
  · exact keeps_throw _
  · exact keeps_pure _

theorem keeps_checkAdjoint {I : Frame K → Prop} (d : Nat) : Keeps I (sig.checkAdjoint d) := by
  refine Keeps.bind keeps_buffers fun b => ?_
  split
  · exact keeps_throw _
  · exact keeps_pure _

theorem keeps_setForwardSeed (d i : Nat) (x : Array K) :
    Keeps (Ready sig) (sig.setForwardSeed d i x) := by
  refine Keeps.bind (keeps_checkForward d) fun _ => keeps_lift_bind fun p hp =>
    keeps_lift_bind fun _ hl => keeps_modifyBuffers fun f h => ?_
  have hsize : sig.inputSizes[i]? = some x.size := by
    rw [Signature.checkInput_ok hp, Signature.checkLength_ok hl]
  obtain ⟨hin, hout, hfs, hfr, has, har, hf, ha⟩ := h.shaped
  exact h.replace ⟨hin, hout, sizes_modify hfs d hsize, hfr, has, har, by simpa using hf, ha⟩
    (by simp [Buffers.forward]) rfl

theorem keeps_setAdjointSeed (d i : Nat) (x : Array K) :
    Keeps (Ready sig) (sig.setAdjointSeed d i x) := by
  refine Keeps.bind (keeps_checkAdjoint d) fun _ => keeps_lift_bind fun p hp =>
    keeps_lift_bind fun _ hl => keeps_modifyBuffers fun f h => ?_
  have hsize : sig.outputSizes[i]? = some x.size := by
    rw [Signature.checkOutput_ok hp, Signature.checkLength_ok hl]
  obtain ⟨hin, hout, hfs, hfr, has, har, hf, ha⟩ := h.shaped
  exact h.replace ⟨hin, hout, hfs, hfr, sizes_modify has d hsize, har, hf, by simpa using ha⟩ rfl
    (by simp [Buffers.adjoint])

theorem hasRoom_max {m n bytes : Nat} (hm : Count.hasRoom m bytes = true)
    (hn : Count.hasRoom n bytes = true) : Count.hasRoom (max m n) bytes = true := by
  obtain h | h := Nat.le_total m n
  · rwa [Nat.max_eq_right h]
  · rwa [Nat.max_eq_left h]

/-- A single direction always has room. -/
theorem hasRoom_max_of_le_one {n k : Nat} (hn : Count.hasRoom n 24 = true) (hk : k ≤ 1) :
    Count.hasRoom (max n k) 24 = true :=
  hasRoom_max hn (Count.hasRoom_mono hk (by decide))

variable [Number K]

theorem ready_of? {d : Definition K} {i : Instance K} (h : Instance.of? d = .ok i) :
    i.frame.Ready d.sig := by
  obtain ⟨hf, ha, rfl⟩ := Instance.of?_eq_ok.mp h
  refine ⟨Buffers.shaped_filled _ _ _ _ _, ?_, ?_⟩
  · simpa [Instance.of, Signature.frame, Buffers.forward, Buffers.filled] using hf
  · simpa [Instance.of, Signature.frame, Buffers.adjoint, Buffers.filled] using ha

theorem keeps_requestDirections (f a : Nat) : Keeps (Ready sig) (sig.requestDirections f a) := by
  rw [Signature.requestDirections]
  dsimp only
  refine keeps_when (keeps_warn _) (keeps_when (keeps_warn _) ?_)
  refine Keeps.bind keeps_buffers fun b => keeps_lift_bind fun _ hf =>
    Keeps.bind (keeps_modifyBuffers fun g h => ?_) fun _ => keeps_lift_bind fun _ ha =>
    Keeps.bind (keeps_modifyBuffers fun g h => ?_) fun _ => keeps_pure _
  · refine ⟨h.shaped.growForward _ _, ?_, h.adjoint⟩
    rw [Buffers.forward_growForward]
    exact hasRoom_max h.forward (checkRoom_ok hf)
  · refine ⟨h.shaped.growAdjoint _ _, h.forward, ?_⟩
    rw [Buffers.adjoint_growAdjoint]
    exact hasRoom_max h.adjoint (checkRoom_ok ha)

/-- Directions within the limits and the room are made, without a warning. -/
theorem run_requestDirections {f a : Nat} {m : Machine K} (hf : f ≤ sig.options.maxForward)
    (ha : a ≤ sig.options.maxAdjoint)
    (hfroom : Count.hasRoom (max m.frame.buffers.forward f) 24 = true)
    (haroom : Count.hasRoom (max m.frame.buffers.adjoint a) 24 = true) :
    (sig.requestDirections f a).run m =
      (.ok (max m.frame.buffers.forward f, max m.frame.buffers.adjoint a), m.withBuffers
        ((m.frame.buffers.growForward (max m.frame.buffers.forward f) Number.zero).growAdjoint
          (max m.frame.buffers.adjoint a) Number.zero)) := by
  have hcheck {n : Nat} (hn : Count.hasRoom n 24 = true) (m : Machine K) :
      (liftM (Buffers.checkRoom n) : Run K Unit).run m = (.ok (), m) := by
    rw [Buffers.checkRoom, Count.checkRoom_eq_ok_iff.mpr hn]
    exact run_liftExcept _
  rw [Signature.requestDirections]
  dsimp only
  rw [if_neg (by omega), if_neg (by omega), run_bind_ok (run_buffers m), Nat.min_eq_left hf,
    Nat.min_eq_left ha, run_bind_ok (hcheck hfroom m), run_bind_ok (run_modifyBuffers _ m),
    run_bind_ok (hcheck haroom _), run_bind_ok (run_modifyBuffers _ _)]
  rfl

end Frame

namespace Assemble

open Run

theorem mem_setIfInBounds {ns : Array Nat} {bs : Array (Block K)} (h : ∀ x ∈ bs, x.sizes = ns) (d : Nat)
    {v : Block K} (hv : v.sizes = ns) : ∀ x ∈ bs.setIfInBounds d v, x.sizes = ns := by
  intro x hx
  obtain hx | rfl := Array.mem_or_eq_of_mem_setIfInBounds hx
  · exact h x hx
  · exact hv

variable [Number K]

theorem keeps_seed (j : Job) (d k : Nat) : Keeps (Frame.Ready sig) (j.seed sig d k) := by
  rw [Job.seed]
  dsimp only
  split
  · refine keeps_modifyBuffers fun f h => ?_
    obtain ⟨hin, hout, hfs, hfr, has, har, hf, ha⟩ := h.shaped
    exact h.replace ⟨hin, hout, mem_setIfInBounds hfs d (sizes_unitSeed _ _ _), hfr, has, har,
      by simpa using hf, ha⟩ (by simp [Buffers.forward]) rfl
  · refine keeps_modifyBuffers fun f h => ?_
    obtain ⟨hin, hout, hfs, hfr, has, har, hf, ha⟩ := h.shaped
    exact h.replace ⟨hin, hout, hfs, hfr, mem_setIfInBounds has d (sizes_unitSeed _ _ _), har, hf,
      by simpa using ha⟩ rfl (by simp [Buffers.adjoint])

section Keeps

variable {I : Frame K → Prop}

theorem keeps_batchSize (hrequest : ∀ f a, Keeps I (sig.requestDirections f a)) (dir : Direction) :
    Keeps I (batchSize sig dir) := by
  have hreturn (n : Nat) (e : Fault) : Keeps I (if n = 0 then throw e else pure n : Run K Nat) := by
    split
    · exact keeps_throw e
    · exact keeps_pure n
  refine Keeps.bind keeps_buffers fun b => ?_
  cases dir with
  | forward =>
    dsimp only
    split
    · exact (hrequest 1 0).bind fun n => hreturn n.1 _
    · exact hreturn b.forward _
  | reverse =>
    dsimp only
    split
    · exact (hrequest 0 1).bind fun n => hreturn n.2 _
    · exact hreturn b.adjoint _

variable {eval : Evaluation K} {j : Job} (hseed : ∀ d k, Keeps I (j.seed sig d k)) (heval : ∀ f a, Keeps I (eval f a))
include hseed heval

theorem keeps_batch (start n : Nat) (s : Array Nat × Array K) : Keeps I (j.batch sig eval start n s) := by
  refine Keeps.bind (keeps_forM (fun d => hseed d _) _) fun _ => ?_
  dsimp only
  split
  · exact (heval n 0).bind fun _ => Keeps.bind keeps_buffers fun b => keeps_pure _
  · exact (heval 0 n).bind fun _ => Keeps.bind keeps_buffers fun b => keeps_pure _

theorem keeps_run (hrequest : ∀ f a, Keeps I (sig.requestDirections f a)) : Keeps I (j.run sig eval) := by
  rw [Job.run]
  dsimp only
  split
  · exact (heval 0 0).bind fun _ => keeps_pure _
  · exact (keeps_batchSize hrequest _).bind fun size =>
      (keeps_foldlM (fun s r => keeps_batch hseed heval _ _ s) _ _).bind fun _ => keeps_pure _

end Keeps

end Assemble

namespace Expresses

open Run

variable [Field K] [Number K] [ExactField K] {inputs outputs : Array (Matrix (Expr K))} {t : Tape K}

theorem keeps_evaluate (h : Expresses inputs outputs sig t)
    (hr : ∀ e, Expr.ReachedFrom (Matrix.entries outputs) e → e.op ≠ .rem) (f a : Nat) :
    Keeps (Frame.Ready sig) (Evaluate.around sig (Evaluate.tape sig t) f a) := by
  intro m hm
  by_cases hf : f ≤ m.frame.buffers.forward
  · by_cases ha : a ≤ m.frame.buffers.adjoint
    · obtain ⟨stats, hrun⟩ := h.run_around ExactField.finite hr hm.shaped hf ha
      rw [hrun]
      have hshaped := hm.shaped
      rw [h.inputSizes, h.outputSizes] at hshaped
      have hs := Tape.shaped_evaluated f a hshaped
      rw [← h.inputSizes, ← h.outputSizes] at hs
      exact ⟨hs, hm.forward, hm.adjoint⟩
    · rw [Evaluate.around, run_bind_ok (run_buffers m)]
      dsimp only
      rw [if_neg (by omega), if_pos (by omega), run_bind_error (run_throw _ m)]
      exact hm
  · rw [Evaluate.around, run_bind_ok (run_buffers m)]
    dsimp only
    rw [if_pos (by omega), run_bind_error (run_throw _ m)]
    exact hm

end Expresses

/-- What an instance is asked. -/
inductive Call (K : Type) where
  | setInput (i : Nat) (x : Array K)
  | setForwardSeed (d i : Nat) (x : Array K)
  | setAdjointSeed (d i : Nat) (x : Array K)
  | requestDirections (forward adjoint : Nat)
  | evaluate (forward adjoint : Nat)
  | jacobianValues (iind oind : Nat) (symmetric : Bool)

/-- The action, without what it answers. -/
def Call.act [Number K] (d : Definition K) : Call K → Run K Unit
  | setInput i x => d.sig.setInput i x
  | setForwardSeed k i x => d.sig.setForwardSeed k i x
  | setAdjointSeed k i x => d.sig.setAdjointSeed k i x
  | requestDirections f a => do let _ ← d.sig.requestDirections f a
  | evaluate f a => do let _ ← d.evaluate f a
  | jacobianValues iind oind symmetric => do let _ ← d.jacobianValues iind oind symmetric

/-- The instance after some calls, each of which may have been refused. -/
def Instance.after [Number K] (i : Instance K) (calls : List (Call K)) : Instance K :=
  calls.foldl (fun i c => (i.run (c.act i.definition)).2.1) i

section Calls

open Run

variable [Field K] [Number K] [ExactField K] {inputs outputs : Array (Matrix (Expr K))} {t : Tape K}

theorem Expresses.keeps_act (h : Expresses inputs outputs sig t)
    (hr : ∀ e, Expr.ReachedFrom (Matrix.entries outputs) e → e.op ≠ .rem) (c : Call K) :
    Keeps (Frame.Ready sig) (c.act (.expressions sig t inputs)) := by
  have heval := h.keeps_evaluate hr
  cases c with
  | setInput i x => exact Frame.keeps_setInput i x
  | setForwardSeed k i x => exact Frame.keeps_setForwardSeed k i x
  | setAdjointSeed k i x => exact Frame.keeps_setAdjointSeed k i x
  | requestDirections f a => exact (Frame.keeps_requestDirections f a).bind fun _ => keeps_pure _
  | evaluate f a => exact (heval f a).bind fun _ => keeps_pure _
  | jacobianValues iind oind symmetric =>
    refine Keeps.bind ?_ fun _ => keeps_pure _
    exact keeps_lift_bind fun p _ => keeps_lift_bind fun side _ =>
      (Assemble.keeps_run (Assemble.keeps_seed _) heval Frame.keeps_requestDirections).bind fun _ => keeps_pure _

theorem Expresses.ready_after (h : Expresses inputs outputs sig t)
    (hr : ∀ e, Expr.ReachedFrom (Matrix.entries outputs) e → e.op ≠ .rem) {i : Instance K}
    (hd : i.definition = .expressions sig t inputs) (hi : i.frame.Ready sig) (calls : List (Call K)) :
    (i.after calls).definition = .expressions sig t inputs ∧ (i.after calls).frame.Ready sig := by
  induction calls generalizing i with
  | nil => exact ⟨hd, hi⟩
  | cons c calls ih =>
    refine ih hd ?_
    dsimp only
    rw [hd]
    exact h.keeps_act hr c ⟨i.frame, i.inner, .empty⟩ hi

end Calls

end Fluxion
