import Fluxion.Proofs.Function.Beside

/-!
Machines that fit a definition. The frame of the instance has buffers of the right sizes and so many
directions, and so have the frames of the instances it runs through. Two such machines, which may be one and
the same, are asked side by side to set inputs and to make room for directions.
-/
set_option autoImplicit false

namespace Fluxion

variable {K α β : Type}

/-- Buffers of the right sizes, with so many directions at least and at most. -/
structure Buffers.Fits (sig : Signature K) (low high : Nat × Nat) (b : Buffers K) : Prop where
  shaped : b.Shaped sig.inputSizes sig.outputSizes
  forward : low.1 ≤ b.forward ∧ b.forward ≤ high.1
  adjoint : low.2 ≤ b.adjoint ∧ b.adjoint ≤ high.2

/-- Other buffers of the same sizes, with as many directions. -/
structure Buffers.Recast (sig : Signature K) (b b' : Buffers K) : Prop where
  shaped : b'.Shaped sig.inputSizes sig.outputSizes
  forward : b'.forward = b.forward
  adjoint : b'.adjoint = b.adjoint

namespace Options

/-- Directions that an instance starts with. -/
def initial (o : Options K) : Nat × Nat := (o.initialForward, o.initialAdjoint)

/-- Directions that an instance has once it was asked for `f` and `a`. -/
def granted (o : Options K) (f a : Nat) : Nat × Nat :=
  (max o.initialForward (min f o.maxForward), max o.initialAdjoint (min a o.maxAdjoint))

/-- Directions that an instance has at most. -/
def limits (o : Options K) : Nat × Nat := (o.maxForward, o.maxAdjoint)

end Options

/-- There is room for so many directions. -/
def Room (n : Nat × Nat) : Prop := Count.hasRoom n.1 24 = true ∧ Count.hasRoom n.2 24 = true

/-- The frames of the instances that a definition runs through, as far as they exist. A Jacobian asks for one
direction, a derivative for its own. -/
def Definition.InnerFits : Definition K → List (Frame K) → Prop
  | .jacobian _ _ p, g :: rest =>
    g.buffers.Fits p.sig p.sig.options.initial (p.sig.options.granted 1 1) ∧ p.InnerFits rest
  | .derivative _ f a p, g :: rest =>
    g.buffers.Fits p.sig p.sig.options.initial (p.sig.options.granted f a) ∧ p.InnerFits rest
  | _, _ => True

/-- The machine of an instance. -/
structure Machine.Fits (d : Definition K) (low high : Nat × Nat) (m : Machine K) : Prop where
  frame : m.frame.buffers.Fits d.sig low high
  inner : d.InnerFits m.inner

/-- Two machines of instances, which are one machine if `E`. -/
structure Joint (E : Prop) (d : Definition K) (low high : Nat × Nat) (m m' : Machine K) : Prop where
  left : m.Fits d low high
  right : m'.Fits d low high
  same : E → m' = m

variable {W E : Prop} {d : Definition K} {low high : Nat × Nat} {f a : Nat}

theorem Buffers.Shaped.recast {sig : Signature K} {b : Buffers K} (h : b.Shaped sig.inputSizes sig.outputSizes) :
    b.Recast sig b := ⟨h, rfl, rfl⟩

theorem Buffers.Fits.recast {sig : Signature K} {b b' : Buffers K} (h : b.Fits sig low high)
    (hb : b.Recast sig b') : b'.Fits sig low high :=
  ⟨hb.shaped, hb.forward ▸ h.forward, hb.adjoint ▸ h.adjoint⟩

theorem Definition.innerFits_nil (d : Definition K) : d.InnerFits [] := by cases d <;> trivial

namespace Joint

variable {m m' : Machine K}

theorem withBuffers (h : Joint E d low high m m') {b b' : Buffers K} (hb : b.Fits d.sig low high)
    (hb' : b'.Fits d.sig low high) (he : E → b' = b) :
    Joint E d low high (m.withBuffers b) (m'.withBuffers b') :=
  ⟨⟨hb, h.left.inner⟩, ⟨hb', h.right.inner⟩, fun e => by rw [h.same e, he e]⟩

theorem buffers_eq (h : Joint E d low high m m') (e : E) : m'.frame.buffers = m.frame.buffers := by
  rw [h.same e]

end Joint

namespace Run

/-- A relation between the buffers of two machines. -/
def onBuffers (R : Buffers K → Buffers K → Prop) : Link K :=
  fun m m' => R m.frame.buffers m'.frame.buffers

namespace Beside

variable {R S : Buffers K → Buffers K → Prop} {Q : α → α → Link K}

/-- Other buffers on both sides. -/
theorem refit {g g' : Buffers K → Buffers K}
    (h : ∀ b b', b.Fits d.sig low high → b'.Fits d.sig low high → (E → b' = b) → R b b' →
      (g b).Fits d.sig low high ∧ (g' b').Fits d.sig low high ∧ (E → g' b' = g b) ∧ S (g b) (g' b')) :
    Beside W (Joint E d low high) (onBuffers R) (Run.modifyBuffers g) (Run.modifyBuffers g')
      fun _ _ => onBuffers S :=
  .modifyBuffers fun _ _ hg hr =>
    have ⟨hb, hb', he, hs⟩ := h _ _ hg.left.frame hg.right.frame hg.buffers_eq hr
    ⟨hg.withBuffers hb hb' he, hs⟩

/-- As `refit`, where the directions stay as many. -/
theorem recast {g g' : Buffers K → Buffers K}
    (h : ∀ b b', b.Shaped d.sig.inputSizes d.sig.outputSizes → b'.Shaped d.sig.inputSizes d.sig.outputSizes →
      (E → b' = b) → R b b' →
      b.Recast d.sig (g b) ∧ b'.Recast d.sig (g' b') ∧ (E → g' b' = g b) ∧ S (g b) (g' b')) :
    Beside W (Joint E d low high) (onBuffers R) (Run.modifyBuffers g) (Run.modifyBuffers g')
      fun _ _ => onBuffers S :=
  .refit fun b b' hb hb' he hr =>
    have ⟨hc, hc', hsame, hs⟩ := h b b' hb.shaped hb'.shaped he hr
    ⟨hb.recast hc, hb'.recast hc', hsame, hs⟩

/-- What is read of the buffers is known of what comes after. -/
theorem reading {act act' : Buffers K → Run K α}
    (h : ∀ b b', b.Fits d.sig low high → b'.Fits d.sig low high → (E → b' = b) → R b b' →
      Beside W (Joint E d low high) (onBuffers fun c c' => c = b ∧ c' = b') (act b) (act' b') Q) :
    Beside W (Joint E d low high) (onBuffers R) (Run.buffers >>= act) (Run.buffers >>= act') Q :=
  fun m m' hg hr => h m.frame.buffers m'.frame.buffers hg.left.frame hg.right.frame hg.buffers_eq hr m m' hg
    ⟨rfl, rfl⟩

theorem journal (f : Journal → Journal) :
    Beside W (Joint E d low high) (onBuffers R) (Run.modifyJournal f) (Run.modifyJournal f)
      fun _ _ => onBuffers R :=
  .modify fun _ _ hg hr =>
    ⟨⟨⟨hg.left.frame, hg.left.inner⟩, ⟨hg.right.frame, hg.right.inner⟩, fun e => by rw [hg.same e]⟩, hr⟩

end Beside

end Run

open Run

/-! ### Inputs -/

namespace Signature

variable {sig : Signature K}

theorem tame_checkInput (i : Nat) : ∀ e, sig.checkInput i = .error e → Tame W e := by
  intro e he
  rw [checkInput] at he
  split at he <;> cases he
  exact .inr fun c hc => by cases hc

theorem tame_checkOutput (i : Nat) : ∀ e, sig.checkOutput i = .error e → Tame W e := by
  intro e he
  rw [checkOutput] at he
  split at he <;> cases he
  exact .inr fun c hc => by cases hc

theorem tame_checkLength (place : Place) (i expected got : Nat) :
    ∀ e, sig.checkLength place i expected got = .error e → Tame W e := by
  intro e he
  rw [checkLength] at he
  split at he <;> cases he
  exact .inr fun c hc => by cases hc

theorem tame_checkCount (n : Nat) : ∀ e, sig.checkCount n = .error e → Tame W e := by
  intro e he
  rw [checkCount] at he
  split at he <;> cases he
  exact .inr fun c hc => by cases hc

end Signature

namespace Buffers

variable {sig : Signature K} {b : Buffers K}

theorem Shaped.setInput (h : b.Shaped sig.inputSizes sig.outputSizes) {i : Nat} {x : Array K}
    (hx : sig.inputSizes[i]? = some x.size) :
    b.Recast sig {b with input := b.input.setIfInBounds i x} := by
  have hsize : b.input.sizes[i]? = some x.size := by rw [h.input, hx]
  exact ⟨⟨(Block.sizes_setIfInBounds hsize).trans h.input, h.output, h.forwardSeed, h.forwardSens, h.adjointSeed,
    h.adjointSens, h.forward, h.adjoint⟩, rfl, rfl⟩

end Buffers

namespace Run.Beside

variable {R S : Buffers K → Buffers K → Prop}

theorem setInput (i : Nat) (x : Array K)
    (h : ∀ b b', b.Shaped d.sig.inputSizes d.sig.outputSizes → b'.Shaped d.sig.inputSizes d.sig.outputSizes →
      d.sig.inputSizes[i]? = some x.size → R b b' →
      S {b with input := b.input.setIfInBounds i x} {b' with input := b'.input.setIfInBounds i x}) :
    Beside W (Joint E d low high) (onBuffers R) (d.sig.setInput i x) (d.sig.setInput i x)
      fun _ _ => onBuffers S := by
  refine (lift _ (Signature.tame_checkInput i)).bind fun p p' => ?_
  refine .assume (p := p' = p ∧ d.sig.checkInput i = .ok p) (fun _ _ _ h => ⟨h.1, h.2.1⟩) fun ⟨hpp, hp⟩ => ?_
  rw [hpp]
  refine (lift _ (Signature.tame_checkLength _ _ _ _)).bind fun u u' => ?_
  refine .assume (fun _ _ _ h => Signature.checkLength_ok h.2.1) fun hl => ?_
  have hx : d.sig.inputSizes[i]? = some x.size := by
    rw [Signature.checkInput_ok hp, hl]
  refine (recast (R := R) fun b b' hb hb' he hr => ?_).before fun _ _ _ h => h.2.2.2.2
  exact ⟨hb.setInput hx, hb'.setInput hx, fun e => by rw [he e], h b b' hb hb' hx hr⟩

/-- Where all inputs are given, the instances have the same inputs afterwards. -/
theorem setInputs {x : Block K} (hx : x.size = d.sig.inputs.size) :
    Beside W (Joint E d low high) (onBuffers R) (d.sig.setInputs x) (d.sig.setInputs x)
      fun _ _ => onBuffers fun b b' => b'.input = b.input := by
  have hloop := Beside.forM (W := W) (G := Joint E d low high)
    (f := fun (e : Array K × Nat) => d.sig.setInput e.2 e.1) (g := fun e => d.sig.setInput e.2 e.1)
    (fun done => onBuffers fun b b' => ∀ i, i < done.length → b'.input[i]? = b.input[i]?) x.zipIdx.toList
    (fun done e rest hsplit => ?_)
  · refine (hloop.weaken (fun _ _ _ _ i hi => absurd hi (by simp)) fun _ _ n n' hg hsame => ?_)
    refine Array.ext_getElem? fun i => ?_
    have hsizes := hg.left.frame.shaped.input
    have hsizes' := hg.right.frame.shaped.input
    have hsize {b : Buffers K} (h : b.input.sizes = d.sig.inputSizes) : b.input.size = x.size := by
      simpa [Block.sizes, Signature.inputSizes, hx] using congrArg Array.size h
    by_cases hi : i < x.size
    · exact hsame i (by simpa using hi)
    · rw [Array.getElem?_eq_none (by rw [hsize hsizes']; omega),
        Array.getElem?_eq_none (by rw [hsize hsizes]; omega)]
  · obtain ⟨v, i⟩ := e
    have hi : i = done.length := by
      have hget := congrArg (fun l : List (Array K × Nat) => l[done.length]?) hsplit
      simp only [List.getElem?_append_right (Nat.le_refl _), Nat.sub_self, List.getElem?_cons_zero,
        Array.getElem?_toList, Array.getElem?_zipIdx, Option.map_eq_some_iff] at hget
      obtain ⟨_, -, hpair⟩ := hget
      have := congrArg Prod.snd hpair
      simpa using this.symm
    subst hi
    refine setInput done.length v fun b b' hb hb' hv hr j hj => ?_
    have hlt {b : Buffers K} (h : b.Shaped d.sig.inputSizes d.sig.outputSizes) : done.length < b.input.size := by
      rw [← h.input] at hv
      simpa [Block.sizes] using (Array.getElem?_eq_some_iff.mp hv).1
    rw [Array.getElem?_setIfInBounds, Array.getElem?_setIfInBounds]
    split
    · rw [if_pos (hlt hb), if_pos (hlt hb')]
    · exact hr j (by simp at hj; omega)

end Run.Beside

/-! ### Directions -/

theorem Room.mono {n m : Nat × Nat} (h : Room n) (h₁ : m.1 ≤ n.1) (h₂ : m.2 ≤ n.2) : Room m :=
  ⟨Count.hasRoom_mono h₁ h.1, Count.hasRoom_mono h₂ h.2⟩

/-- Whatever directions the instance has, after `f` and `a` were asked for it has the most. -/
structure Steady (o : Options K) (low high : Nat × Nat) (f a : Nat) : Prop where
  forward : ∀ n, low.1 ≤ n → n ≤ high.1 → max n (min f o.maxForward) = high.1
  adjoint : ∀ n, low.2 ≤ n → n ≤ high.2 → max n (min a o.maxAdjoint) = high.2

theorem Options.steady (o : Options K) (f a : Nat) : Steady o o.initial (o.granted f a) f a where
  forward n := by simp only [initial, granted]; omega
  adjoint n := by simp only [initial, granted]; omega

/-- Directions that may be asked for. -/
structure Grants (o : Options K) (high : Nat × Nat) (f a : Nat) : Prop where
  forward : min f o.maxForward ≤ high.1
  adjoint : min a o.maxAdjoint ≤ high.2

theorem Options.grants_limits (o : Options K) (f a : Nat) : Grants o o.limits f a :=
  ⟨Nat.min_le_right _ _, Nat.min_le_right _ _⟩

theorem Options.grants_granted (o : Options K) {f a f' a' : Nat} (hf : f' ≤ f) (ha : a' ≤ a) :
    Grants o (o.granted f a) f' a' := by
  constructor
  · simp only [granted]
    omega
  · simp only [granted]
    omega

/-- Buffers that have the directions `n` and `n'`, `f` and `a` of them if that is within the limits, and the
same inputs. -/
structure Buffers.Granted (o : Options K) (f a : Nat) (n n' : Nat × Nat) (b b' : Buffers K) : Prop where
  input : b'.input = b.input
  left : (b.forward, b.adjoint) = n
  right : (b'.forward, b'.adjoint) = n'
  forward : min f o.maxForward ≤ n.1 ∧ min f o.maxForward ≤ n'.1
  adjoint : min a o.maxAdjoint ≤ n.2 ∧ min a o.maxAdjoint ≤ n'.2

section Grown

variable {sig : Signature K} {b b' : Buffers K}

theorem Buffers.Fits.growForward (h : b.Fits sig low high) {n : Nat} (hn : n ≤ high.1) (x : K) :
    (b.growForward n x).Fits sig low high := by
  refine ⟨h.shaped.growForward _ _, ?_, h.adjoint⟩
  rw [Buffers.forward_growForward]
  exact ⟨Nat.le_trans h.forward.1 (Nat.le_max_left _ _), Nat.max_le.mpr ⟨h.forward.2, hn⟩⟩

theorem Buffers.Fits.growAdjoint (h : b.Fits sig low high) {n : Nat} (hn : n ≤ high.2) (x : K) :
    (b.growAdjoint n x).Fits sig low high := by
  refine ⟨h.shaped.growAdjoint _ _, h.forward, ?_⟩
  rw [Buffers.adjoint_growAdjoint]
  exact ⟨Nat.le_trans h.adjoint.1 (Nat.le_max_left _ _), Nat.max_le.mpr ⟨h.adjoint.2, hn⟩⟩

namespace Frame

/-- Directions that there are after `f` and `a` were asked for. -/
def asked (o : Options K) (b : Buffers K) (f a : Nat) : Nat × Nat :=
  (max b.forward (min f o.maxForward), max b.adjoint (min a o.maxAdjoint))

theorem asked_le (hb : b.Fits sig low high) (hgrants : Grants sig.options high f a) :
    (asked sig.options b f a).1 ≤ high.1 ∧ (asked sig.options b f a).2 ≤ high.2 :=
  ⟨Nat.max_le.mpr ⟨hb.forward.2, hgrants.forward⟩, Nat.max_le.mpr ⟨hb.adjoint.2, hgrants.adjoint⟩⟩

/-- After two instances were asked the counts are the same, or there is room for both. -/
theorem asked_counts (hgrants : Grants sig.options high f a)
    (hroom : W ∧ (E ∨ Steady sig.options low high f a) ∨ Room high) (hb : b.Fits sig low high)
    (hb' : b'.Fits sig low high) (he : E → b' = b) :
    W ∧ asked sig.options b' f a = asked sig.options b f a ∨
      Room (asked sig.options b f a) ∧ Room (asked sig.options b' f a) := by
  refine hroom.imp (fun hsteady => ⟨hsteady.1, ?_⟩) fun h =>
    ⟨h.mono (asked_le hb hgrants).1 (asked_le hb hgrants).2, h.mono (asked_le hb' hgrants).1 (asked_le hb' hgrants).2⟩
  obtain e | hs := hsteady.2
  · rw [he e]
  · rw [asked, asked, hs.forward _ hb'.forward.1 hb'.forward.2, hs.forward _ hb.forward.1 hb.forward.2,
      hs.adjoint _ hb'.adjoint.1 hb'.adjoint.2, hs.adjoint _ hb.adjoint.1 hb.adjoint.2]

variable [Number K]

/-- The buffers with new directions of zeros. -/
def grown (b : Buffers K) (n : Nat × Nat) : Buffers K := (b.growForward n.1 Number.zero).growAdjoint n.2 Number.zero

theorem fits_grown (hb : b.Fits sig low high) {n : Nat × Nat} (hf : n.1 ≤ high.1) (ha : n.2 ≤ high.2) :
    (grown b n).Fits sig low high :=
  (hb.growForward hf _).growAdjoint ha _

theorem directions_grown {b : Buffers K} {n : Nat × Nat} (hf : b.forward ≤ n.1) (ha : b.adjoint ≤ n.2) :
    (grown b n).directions = n := by
  refine Prod.ext ?_ ?_
  · change Buffers.forward (grown b n) = n.1
    rw [grown, Buffers.forward_growAdjoint, Buffers.forward_growForward, Nat.max_eq_right hf]
  · change Buffers.adjoint (grown b n) = n.2
    rw [grown, Buffers.adjoint_growAdjoint, Buffers.adjoint_growForward, Nat.max_eq_right ha]

end Frame

end Grown

namespace Run.Beside

variable {G P : Link K} {R S : Buffers K → Buffers K → Prop}

/-- Both have room, or the counts are the same and a violation is allowed. -/
theorem checkRoom {n n' : Nat} (h : W ∧ n' = n ∨ Count.hasRoom n 24 = true ∧ Count.hasRoom n' 24 = true) :
    Beside W G P (liftM (Buffers.checkRoom n)) (liftM (Buffers.checkRoom n')) fun _ _ => P := by
  obtain ⟨hw, rfl⟩ | ⟨hn, hn'⟩ := h
  · exact (lift _ fun _ _ => .inl hw).after fun _ _ _ _ _ h => h.2.2
  · rw [Buffers.checkRoom, Buffers.checkRoom, Count.checkRoom_eq_ok_iff.mpr hn, Count.checkRoom_eq_ok_iff.mpr hn']
    exact .pure fun _ _ _ h => h

theorem warnIf {c : Prop} [Decidable c] (s : String) {act act' : Run K α} {Q : α → α → Link K}
    (h : Beside W (Joint E d low high) (onBuffers R) act act' Q) :
    Beside W (Joint E d low high) (onBuffers R)
      (do
        if c then Run.warn s
        act)
      (do
        if c then Run.warn s
        act') Q :=
  .ite (fun _ => (journal _).bind fun _ _ => h) fun _ => h

variable [Number K]

theorem requestDirections (hgrants : Grants d.sig.options high f a)
    (hroom : W ∧ (E ∨ Steady d.sig.options low high f a) ∨ Room high) :
    Beside W (Joint E d low high) (onBuffers fun b b' => b'.input = b.input) (d.sig.requestDirections f a)
      (d.sig.requestDirections f a) fun n n' m m' =>
        (E → n' = n) ∧ onBuffers (Buffers.Granted d.sig.options f a n n') m m' := by
  rw [Signature.requestDirections]
  dsimp only
  refine warnIf _ (warnIf _ (reading fun b b' hb hb' he hin => ?_))
  have hcounts := Frame.asked_counts hgrants hroom hb hb' he
  obtain ⟨hf, ha⟩ := Frame.asked_le hb hgrants
  obtain ⟨hf', ha'⟩ := Frame.asked_le hb' hgrants
  have hsame (e : E) : Frame.asked d.sig.options b' f a = Frame.asked d.sig.options b f a := by rw [he e]
  refine Beside.next (checkRoom (hcounts.imp (fun h => ⟨h.1, congrArg Prod.fst h.2⟩) fun h => ⟨h.1.1, h.2.1⟩)) fun _ _ => ?_
  refine Beside.next (R := onBuffers fun c c' => c = b.growForward (Frame.asked d.sig.options b f a).1 Number.zero ∧
    c' = b'.growForward (Frame.asked d.sig.options b' f a).1 Number.zero) (.refit ?_) fun _ _ => ?_
  · rintro _ _ - - - ⟨rfl, rfl⟩
    exact ⟨hb.growForward hf _, hb'.growForward hf' _, fun e => by rw [he e], rfl, rfl⟩
  refine Beside.next (checkRoom (hcounts.imp (fun h => ⟨h.1, congrArg Prod.snd h.2⟩) fun h => ⟨h.1.2, h.2.2⟩)) fun _ _ => ?_
  refine Beside.next (R := onBuffers (Buffers.Granted d.sig.options f a (Frame.asked d.sig.options b f a)
    (Frame.asked d.sig.options b' f a))) (.refit ?_) fun _ _ => .pure fun _ _ _ h => ⟨hsame, h⟩
  rintro _ _ hc hc' hgrown ⟨rfl, rfl⟩
  exact ⟨hc.growAdjoint ha _, hc'.growAdjoint ha' _, fun e => by rw [hgrown e, he e], hin,
    Frame.directions_grown (Nat.le_max_left _ _) (Nat.le_max_left _ _),
    Frame.directions_grown (Nat.le_max_left _ _) (Nat.le_max_left _ _),
    ⟨Nat.le_max_right _ _, Nat.le_max_right _ _⟩, Nat.le_max_right _ _, Nat.le_max_right _ _⟩

end Run.Beside

end Fluxion
