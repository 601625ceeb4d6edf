import Fluxion.Proofs.Function.Jobs

/-!
Instances that stand on a parent, side by side. What runs in the instances of the parents is related as the
instances themselves are, and the answers of a Jacobian follow from it.
-/
set_option autoImplicit false

namespace Fluxion

variable {K α : Type} {W E : Prop} {d p : Definition K} {low high : Nat × Nat} {f a : Nat}

/-- An answer writes all outputs. -/
def Callable.Complete (c : Callable K) : Prop :=
  ∀ x y, Block.sizes x = c.inputs.map Pattern.nnz → c.evaluate x = .ok y → y.sizes = c.outputs.map Pattern.nnz

/-- The values of block `(i,o)` are as many as wanted, and asking for them breaks no precondition. -/
def Callable.Answers (c : Callable K) (i o nnz : Nat) : Prop :=
  ∀ jac x, c.jacobian i o = some jac → Block.sizes x = c.inputs.map Pattern.nnz →
    (∀ values, jac x = .ok values → values.size = nnz) ∧ ∀ v, jac x ≠ .error (.violation v)

/-- It breaks no precondition, and answers as many Jacobian values as its pattern has places. -/
structure Callable.Calm (c : Callable K) : Prop where
  evaluate : ∀ x, Block.sizes x = c.inputs.map Pattern.nnz → ∀ v, c.evaluate x ≠ .error (.violation v)
  jacobian : ∀ i o (inp out : Pattern), c.inputs[i]? = some inp → c.outputs[o]? = some out →
    c.Answers i o ((c.jacPattern i o).getD (.dense out.nnz inp.nnz)).nnz

/-- A block of the parent that the definition has for its first output, and from where its values come. -/
structure JacobianBlock.Fits (W : Prop) (sig : Signature K) (block : JacobianBlock) (p : Definition K) : Prop where
  inputs : sig.inputs = p.sig.inputs
  outputs : ∃ first : Pattern, sig.outputs = #[first] ++ p.sig.outputs ∧
    (W ∨ (block.layout = .jacobian → first.nnz = block.pattern.nnz))
  values : block.source = .callable → ∃ c, p.callable? = some c ∧ p.sig.inputs = c.inputs ∧
    (W ∨ c.Answers block.iind block.oind block.pattern.nnz)
  room : Room (p.sig.options.granted 1 1)

namespace Evaluate

open Run

variable [Number K]

omit [Number K] in
theorem sizes_overlay (old new : Block K) : Block.sizes (overlay old new) = old.sizes := by
  refine Array.ext_getElem? fun i => ?_
  simp only [overlay, Block.sizes, Array.getElem?_map, Array.getElem?_mapIdx]
  cases old[i]? <;> simp

omit [Number K] in
theorem get?_overlay (old new : Block K) (i k : Nat) :
    (overlay old new).get? i k = (old.get? i k).map fun x => (new.get? i k).getD x := by
  cases hi : old[i]? with
  | none => simp [overlay, Block.get?, hi]
  | some v => simp [overlay, Block.get?, hi]

omit [Number K] in
/-- Where there are new values for all entries, the old ones do not matter. -/
theorem overlay_eq {old new : Block K} (h : new.sizes = old.sizes) : overlay old new = new := by
  refine (Block.ext_get? (h.trans (sizes_overlay old new).symm) fun i k x hx => ?_).symm
  have hold : (old.get? i k).isSome := by
    rw [Block.get?_isSome h.symm, ← Block.get?_isSome rfl, hx]
    rfl
  obtain ⟨y, hy⟩ := Option.isSome_iff_exists.mp hold
  rw [get?_overlay, hy, hx]
  rfl

omit [Number K] in
theorem settles_callable {c : Callable K} (hin : d.sig.inputs = c.inputs) (hout : d.sig.outputs = c.outputs)
    (hc : E ∨ c.Complete) (hw : W ∨ c.Calm) : (callable d.sig c).Settles W E d low high := by
  intro R x y y' hx hy hy' he
  refine Beside.next (.journal _) fun _ _ => ?_
  have hx : Block.sizes x = c.inputs.map Pattern.nnz := by rw [hx, Signature.inputSizes, hin]
  cases hr : c.evaluate x with
  | ok new =>
    refine .pure fun m m' _ h => ⟨⟨rfl, (sizes_overlay y new).trans hy, (sizes_overlay y' new).trans hy', fun _ => ?_,
      fun e he => by cases he⟩, fun _ => h⟩
    obtain e | hc := hc
    · rw [he e]
    · have hsizes : new.sizes = d.sig.outputSizes := (hc x new hx hr).trans (by rw [Signature.outputSizes, hout])
      dsimp only
      rw [overlay_eq (hsizes.trans hy.symm), overlay_eq (hsizes.trans hy'.symm)]
  | error e =>
    refine .pure fun m m' _ h => ⟨⟨rfl, hy, hy', fun h => he (h.resolve_right (by simp)), fun e' he' => ?_⟩,
      fun hn => by cases hn⟩
    cases he'
    refine hw.imp_right fun hcalm v hv => hcalm.evaluate x hx v ?_
    cases e with
    | message s => cases hv
    | violation cause =>
      cases hv
      exact hr

/-! ### The instance of the parent -/

section Parent

/-- The definition stands on `p`, which is asked for `f` and `a` directions. -/
def Over (d p : Definition K) (f a : Nat) : Prop :=
  ∀ g rest, d.InnerFits (g :: rest) ↔
    g.buffers.Fits p.sig p.sig.options.initial (p.sig.options.granted f a) ∧ p.InnerFits rest

variable {R S : Buffers K → Buffers K → Prop} {V : α → Buffers K → Buffers K → Prop} {act act' : Run K α}
  {Q : α → α → Prop}

/-- A relation between the buffers of the instances of the parents. -/
def onParents (p : Definition K) (S : Buffers K → Buffers K → Prop) : Link K :=
  fun m m' => S (m.inside p.sig.frame).frame.buffers (m'.inside p.sig.frame).frame.buffers

theorem fits_frame (p : Definition K) (f a : Nat) :
    p.sig.frame.buffers.Fits p.sig p.sig.options.initial (p.sig.options.granted f a) := by
  refine ⟨Buffers.shaped_filled _ _ _ _ _, ?_, ?_⟩
  · simp [Signature.frame, Buffers.forward, Buffers.filled, Options.initial, Options.granted]
  · simp [Signature.frame, Buffers.adjoint, Buffers.filled, Options.initial, Options.granted]

theorem fits_inside (hd : Over d p f a) {m : Machine K} (hm : m.Fits d low high) :
    (m.inside p.sig.frame).Fits p p.sig.options.initial (p.sig.options.granted f a) := by
  obtain ⟨frame, inner, journal⟩ := m
  cases inner with
  | nil => exact ⟨fits_frame p f a, p.innerFits_nil⟩
  | cons g rest =>
    obtain ⟨hg, hrest⟩ := (hd g rest).mp hm.inner
    exact ⟨hg, hrest⟩

theorem joint_inside (hd : Over d p f a) {m m' : Machine K} (h : Joint E d low high m m') :
    Joint E p p.sig.options.initial (p.sig.options.granted f a) (m.inside p.sig.frame) (m'.inside p.sig.frame) :=
  ⟨fits_inside hd h.left, fits_inside hd h.right, fun e => by rw [h.same e]⟩

omit [Number K] in
theorem joint_outside (hd : Over d p f a) {m m' n n' : Machine K} (h : Joint E d low high m m')
    (hn : Joint E p p.sig.options.initial (p.sig.options.granted f a) n n') :
    Joint E d low high (m.outside n) (m'.outside n') :=
  ⟨⟨h.left.frame, (hd _ _).mpr ⟨hn.left.frame, hn.left.inner⟩⟩,
    ⟨h.right.frame, (hd _ _).mpr ⟨hn.right.frame, hn.right.inner⟩⟩, fun e => by rw [h.same e, hn.same e]⟩

theorem beside_inParent (low high : Nat × Nat) (R : Buffers K → Buffers K → Prop) (hd : Over d p f a)
    (h : Beside W (Joint E p p.sig.options.initial (p.sig.options.granted f a)) (onBuffers S) act act'
      fun v v' n n' => Q v v' ∧ onBuffers (V v) n n') :
    Beside W (Joint E d low high) (fun m m' => onBuffers R m m' ∧ onParents p S m m')
      (Run.inParent p.sig.frame act) (Run.inParent p.sig.frame act')
      fun v v' m m' => Q v v' ∧ onBuffers R m m' ∧ onParents p (V v) m m' :=
  .inParent h (fun _ _ hg hp => ⟨joint_inside hd hg, hp.2⟩) (fun _ _ _ _ hg _ hn => joint_outside hd hg hn)
    fun _ _ _ _ _ _ hp _ hq => ⟨hq.1, hp.1, hq.2⟩

end Parent

/-! ### Jacobians -/

theorem sizes_firstOutput {block : JacobianBlock} {values old : Array K}
    (h : block.layout = .jacobian → values.size = old.size) : (firstOutput block values old).size = old.size := by
  rw [firstOutput]
  split
  · next hl => exact h hl
  · dsimp only
    split
    · rw [← Array.foldl_toList]
      refine List.foldlRecOn (motive := fun v : Array K => v.size = old.size) _ _ (by simp) fun v hv e _ => ?_
      simpa using hv
    · simp

/-- Where the values are, the entries that were there before do not matter. -/
theorem firstOutput_congr (block : JacobianBlock) (values : Array K) {old old' : Array K}
    (h : old'.size = old.size) : firstOutput block values old' = firstOutput block values old := by
  have hzeros : old'.map (fun _ => (Number.zero : K)) = old.map fun _ => Number.zero := by
    rw [Array.map_const', Array.map_const', h]
  rw [firstOutput, firstOutput, hzeros]

variable {block : JacobianBlock} {eval : Evaluation K}

omit [Number K] in
theorem beside_callableJacobian {sig : Signature K} {c : Callable K} {G P : Link K}
    (hc : W ∨ c.Answers block.iind block.oind block.pattern.nnz) {x : Block K}
    (hx : x.sizes = c.inputs.map Pattern.nnz) (hj : ∀ f, Beside W G P (Run.modifyJournal f) (Run.modifyJournal f) fun _ _ => P) :
    Beside W G P (callableJacobian sig c block x) (callableJacobian sig c block x) fun v v' m m' =>
      (v' = v ∧ v.size = block.pattern.nnz) ∧ P m m' := by
  refine Beside.next (hj _) fun _ _ => ?_
  cases hjac : c.jacobian block.iind block.oind with
  | none => exact .throw (.inr fun c hc => by cases hc)
  | some jac =>
    dsimp only
    cases hr : jac x with
    | ok values =>
      dsimp only
      refine .ite (fun hsize => .pure fun _ _ _ h => ⟨⟨rfl, hsize⟩, h⟩) fun hsize => .throw ?_
      exact hc.imp_right fun hc => absurd ((hc jac x hjac hx).1 values hr) hsize
    | error e =>
      refine .throw (hc.imp_right fun hc v hv => (hc jac x hjac hx).2 v ?_)
      cases e with
      | message s => cases hv
      | violation cause =>
        cases hv
        exact hr

/-- The values of a block, from sweeps or from the callable. The outputs are evaluated with them. -/
def blockValues (block : JacobianBlock) (p : Definition K) (eval : Evaluation K) (x : Block K) : Run K (Array K) :=
  match block.source, p.callable? with
  | .sweeps side, _ => (Assemble.Job.of block.iind block.oind block.pattern side false).run p.sig eval
  | .callable, some c => do
    let _ ← eval 0 0
    callableJacobian p.sig c block x
  | .callable, none => pure #[]

theorem jacobian_eq (block : JacobianBlock) (p : Definition K) (eval : Evaluation K) (x y : Block K) :
    jacobian block p eval x y = (do
      let r ← Run.observe <| Run.inParent p.sig.frame do
        p.sig.setInputs x
        let values ← blockValues block p eval x
        return (values, (← Run.buffers).output)
      match r with
      | .ok (values, outputs) =>
        let old := y.getD 0 #[]
        if block.layout = .jacobian && values.size ≠ old.size then
          return (y, some (.violation .valueLength))
        return (#[firstOutput block values old] ++ outputs, none)
      | .error f => return (y, some f)) := by
  rw [jacobian, blockValues]
  cases block.source with
  | sweeps side => rfl
  | callable =>
    cases p.callable? with
    | none => rfl
    | some c =>
      -- What is left, if anything, are two matches on one result.
      simp only [bind_assoc]
      try rfl

theorem beside_blockValues (hblock : block.Fits W d.sig p)
    (heval : eval.Settles W E p p.sig.options.initial (p.sig.options.granted 1 1)) {x : Block K}
    (hx : x.sizes = p.sig.inputSizes) :
    Beside W (Joint E p p.sig.options.initial (p.sig.options.granted 1 1)) (onBuffers fun b b' => b'.input = b.input)
      (blockValues block p eval x) (blockValues block p eval x) fun v v' m m' =>
        (v' = v ∧ v.size = block.pattern.nnz) ∧ onBuffers (fun b b' => b'.output = b.output) m m' := by
  rw [blockValues]
  cases hsource : block.source with
  | sweeps side =>
    exact Assemble.beside_run heval _ ⟨p.sig.options.grants_granted (Nat.le_refl 1) (Nat.le_refl 1), .inr hblock.room,
      .inr ⟨rfl, rfl⟩⟩
  | callable =>
    obtain ⟨c, hc, hin, hanswers⟩ := hblock.values hsource
    rw [hc]
    refine Beside.next (((heval.beside 0 0).before fun _ _ _ h => ⟨h, .zero _ _, .zero _ _⟩).after
      fun _ _ _ _ _ h => h.2.output) fun _ _ => ?_
    exact beside_callableJacobian (P := onBuffers fun b b' => b'.output = b.output) hanswers
      (by rw [hx, Signature.inputSizes, hin]) fun f => .journal f

/-- A Jacobian answers the same from any outputs it starts from. -/
theorem settles_jacobian (hd : Over d p 1 1) (hblock : block.Fits W d.sig p)
    (heval : eval.Settles W E p p.sig.options.initial (p.sig.options.granted 1 1)) :
    Body.Settles W E d low high (jacobian block p eval) := by
  intro R x y y' hx hy hy' he
  rw [jacobian_eq, jacobian_eq]
  obtain ⟨first, houts, hfirst⟩ := hblock.outputs
  have hx : x.sizes = p.sig.inputSizes := by rw [hx, Signature.inputSizes, hblock.inputs, Signature.inputSizes]
  have hold {z : Block K} (hz : z.sizes = d.sig.outputSizes) : (z.getD 0 #[]).size = first.nnz := by
    have hget := congrArg (·[0]?) hz
    simp only [Signature.outputSizes, houts, Block.sizes, Array.getElem?_map] at hget
    cases h0 : z[0]? with
    | none => simp [h0] at hget
    | some v => simpa [h0, Array.getD_eq_getD_getElem?] using hget
  refine Beside.bind (((beside_inParent low high R (S := fun _ _ => True) (V := fun _ _ _ => True)
    (Q := fun v v' => v' = v ∧ v.1.size = block.pattern.nnz ∧ v.2.sizes = p.sig.outputSizes) hd ?_).observe).before
    fun _ _ _ h => ⟨h, trivial⟩) (.observed (fun v v' => .assume (fun _ _ _ h => h.1) fun hv => ?_) fun e htame => ?_)
  · refine Beside.next (.setInputs ?_) fun _ _ => (beside_blockValues hblock heval hx).bind fun v v' =>
      .assume (fun _ _ _ h => h.1) fun hv => ?_
    · simpa [Block.sizes, Signature.inputSizes] using congrArg Array.size hx
    · refine Beside.before (P := onBuffers fun b b' => b'.output = b.output) ?_ fun _ _ _ h => h.2
      refine .reading fun b b' hb hb' _ h => .pure fun _ _ _ _ => ⟨⟨?_, hv.2, hb.shaped.output⟩, trivial⟩
      rw [hv.1, h]
  · obtain ⟨rfl, hsize, houtputs⟩ := hv
    obtain ⟨values, outputs⟩ := v'
    dsimp only at hsize houtputs ⊢
    rw [hold hy, hold hy', hsize]
    refine .ite (fun hlayout => .pure fun _ _ _ h => ?_) fun hlayout => .pure fun m m' _ h => ?_
    · refine ⟨⟨rfl, hy, hy', fun h => he (h.resolve_right (by simp)), fun e he' => ?_⟩, fun hn => by cases hn⟩
      obtain ⟨hl, hne⟩ : block.layout = .jacobian ∧ block.pattern.nnz ≠ first.nnz := by simpa using hlayout
      exact hfirst.imp_right fun hfirst => absurd (hfirst hl).symm hne
    · have hvalues (hl : block.layout = .jacobian) : values.size = first.nnz := by
        rw [hsize]
        simpa [hl] using hlayout
      have hnew {v : Array K} (hv : v.size = first.nnz) : Block.sizes (#[v] ++ outputs) = d.sig.outputSizes := by
        have hrest : outputs.map (·.size) = p.sig.outputs.map Pattern.nnz := houtputs
        rw [Block.sizes, Array.map_append, Signature.outputSizes, houts, Array.map_append, hrest]
        simp [hv]
      have hfirst {z : Block K} (hz : z.sizes = d.sig.outputSizes) :
          (firstOutput block values (z.getD 0 #[])).size = first.nnz :=
        (sizes_firstOutput fun hl => (hvalues hl).trans (hold hz).symm).trans (hold hz)
      exact ⟨⟨rfl, hnew (hfirst hy), hnew (hfirst hy'), fun _ => by rw [firstOutput_congr block values ((hold hy').trans (hold hy).symm)],
        fun e he => by cases he⟩, fun _ => h.2.1⟩
  · exact .pure fun _ _ _ _ => ⟨⟨rfl, hy, hy', fun h => he (h.resolve_right (by simp)), fun e' he' => by cases he'; exact htame⟩,
      fun hn => by cases hn⟩

end Evaluate

end Fluxion
