import Fluxion.Proofs.Function.Settle

/-!
Difference quotients side by side. A body that answers the same from any outputs it starts from is asked at
the same points on both sides, so the same quotients are written.
-/
set_option autoImplicit false

namespace Fluxion

variable {K α : Type} {W E : Prop} {d : Definition K} {low high : Nat × Nat} {f a : Nat}

/-- Two answers of a body, with the same fault or the same outputs. -/
structure Replies (W E : Prop) (outs : Array Nat) (r r' : Block K × Option Fault) : Prop where
  fault : r'.2 = r.2
  sizes : r.1.sizes = outs
  sizes' : r'.1.sizes = outs
  same : E ∨ r.2 = none → r'.1 = r.1
  tame : ∀ e, r.2 = some e → Run.Tame W e

open Run

/-- A body that answers the same from any outputs it starts from. -/
def Body.Settles (W E : Prop) (d : Definition K) (low high : Nat × Nat) (body : Body K) : Prop :=
  ∀ (R : Buffers K → Buffers K → Prop) (x y y' : Block K), x.sizes = d.sig.inputSizes →
    y.sizes = d.sig.outputSizes → y'.sizes = d.sig.outputSizes → (E → y' = y) →
    Beside W (Joint E d low high) (onBuffers R) (body x y) (body x y') fun r r' m m' =>
      Replies W E d.sig.outputSizes r r' ∧ (r.2 = none → onBuffers R m m')

/-- Evaluated buffers that agree in the first `nf` and `na` sensitivities. -/
structure Buffers.Partly (f a nf na : Nat) (b b' : Buffers K) : Prop extends Alike f a b b' where
  output : b'.output = b.output
  forwardSens : Agree nf b.forwardSens b'.forwardSens
  adjointSens : Agree na b.adjointSens b'.adjointSens

namespace Differences

/-- Scratch of the sizes of the inputs and outputs. -/
structure Scratch.Shaped (ins outs : Array Nat) (s : Scratch K) : Prop where
  point : s.point.sizes = ins
  plus : s.plus.sizes = outs
  minus : s.minus.sizes = outs

variable [Number K]

open Number

omit [Number K] in
theorem sizes_zipBlocks {ns : Array Nat} {x y : Block K} (g : K → K → K) (hx : x.sizes = ns) (hy : y.sizes = ns) :
    Block.sizes (zipBlocks g x y) = ns := by
  subst hx
  refine Array.ext_getElem? fun i => ?_
  have hi := congrArg (·[i]?) hy
  simp only [Block.sizes, Array.getElem?_map] at hi ⊢
  rw [zipBlocks, Array.getElem?_zipWith]
  cases hxi : x[i]? with
  | none => simp
  | some v =>
    cases hyi : y[i]? with
    | none => simp [hxi, hyi] at hi
    | some w =>
      have hsame : w.size = v.size := by simpa [hxi, hyi] using hi
      simp [hsame]

omit [Number K] in
theorem getElem?_modifies (n i k : Nat) (v : Nat → K) (sens : Array (Block K)) (d : Nat) :
    ((List.range n).foldl (fun (sens : Array (Block K)) d => sens.modify d (Block.set · i k (v d))) sens)[d]? =
      sens[d]?.map fun b => if d < n then b.set i k (v d) else b := by
  induction n with
  | zero => simp
  | succ n ih =>
    rw [List.range_succ, List.foldl_append, List.foldl_cons, List.foldl_nil, Array.getElem?_modify, ih]
    cases sens[d]? with
    | none => simp
    | some b =>
      rcases Nat.lt_trichotomy d n with hlt | rfl | hlt
      · have hne : n ≠ d := by omega
        simp [hne, hlt, Nat.lt_succ_of_lt hlt]
      · simp
      · have hne : n ≠ d := by omega
        simp [hne, Nat.not_lt.mpr (Nat.le_of_lt hlt), Nat.not_lt.mpr (Nat.succ_le_of_lt hlt)]

omit [Number K] in
/-- A loop that shares scratch. -/
theorem beside_scratch {γ : Type} {step : Scratch K → γ → Run K (Scratch K)} {P : Buffers K → Buffers K → Prop}
    (hstep : ∀ s x, s.Shaped d.sig.inputSizes d.sig.outputSizes →
      Beside W (Joint E d low high) (onBuffers P) (step s x) (step s x) fun t t' m m' =>
        (t' = t ∧ t.Shaped d.sig.inputSizes d.sig.outputSizes) ∧ onBuffers P m m')
    (xs : List γ) {s : Scratch K} (hs : s.Shaped d.sig.inputSizes d.sig.outputSizes) :
    Beside W (Joint E d low high) (onBuffers P) (xs.foldlM step s) (xs.foldlM step s) fun t t' m m' =>
      (t' = t ∧ t.Shaped d.sig.inputSizes d.sig.outputSizes) ∧ onBuffers P m m' := by
  refine (Beside.foldlM (fun _ t t' m m' => (t' = t ∧ t.Shaped d.sig.inputSizes d.sig.outputSizes) ∧ onBuffers P m m')
    xs (fun _ x _ _ t t' => .assume (fun _ _ _ h => h.1) fun ht => ?_) s s).before fun _ _ _ h => ⟨⟨rfl, hs⟩, h⟩
  rw [ht.1]
  exact (hstep t x ht.2).before fun _ _ _ h => h.2

section Body

variable {body : Body K} (hbody : body.Settles W E d low high) {R : Buffers K → Buffers K → Prop} {x y seed : Block K}
  (hx : x.sizes = d.sig.inputSizes) (hy : y.sizes = d.sig.outputSizes)
include hbody

include hx hy in
omit [Number K] in
theorem beside_outputsAt : Beside W (Joint E d low high) (onBuffers R) (outputsAt body x y) (outputsAt body x y)
    fun z z' m m' => (z' = z ∧ z.sizes = d.sig.outputSizes) ∧ onBuffers R m m' := by
  refine (hbody R x y y hx hy hy fun _ => rfl).bind fun r r' => .assume (fun _ _ _ h => h.1) fun hr => ?_
  obtain ⟨z, e⟩ := r
  obtain ⟨z', e'⟩ := r'
  obtain rfl : e' = e := hr.fault
  cases e' with
  | none =>
    obtain rfl : z' = z := hr.same (.inr rfl)
    exact .pure fun _ _ _ h => ⟨⟨rfl, hr.sizes⟩, h.2 rfl⟩
  | some e => exact .throw (hr.tame e rfl)

omit [Number K] in
theorem beside_between {s : Scratch K} (hs : s.Shaped d.sig.inputSizes d.sig.outputSizes) {p q : Block K}
    (hp : p.sizes = d.sig.inputSizes) (hq : q.sizes = d.sig.inputSizes) :
    Beside W (Joint E d low high) (onBuffers R) (s.between body p q) (s.between body p q) fun t t' m m' =>
      (t' = t ∧ t.Shaped d.sig.inputSizes d.sig.outputSizes) ∧ onBuffers R m m' := by
  refine (beside_outputsAt hbody hp hs.plus).bind fun z z' => .assume (fun _ _ _ h => h.1) fun hz => ?_
  refine ((beside_outputsAt (R := R) hbody hq hs.minus).before fun _ _ _ h => h.2).bind fun w w' =>
    .assume (fun _ _ _ h => h.1) fun hw => .pure fun _ _ _ h => ⟨⟨?_, hq, hz.2, hw.2⟩, h.2⟩
  rw [hz.1, hw.1]

include hx in
theorem beside_forwardSens (hseed : seed.sizes = d.sig.inputSizes) (step scale : K) {s : Scratch K}
    (hs : s.Shaped d.sig.inputSizes d.sig.outputSizes) :
    Beside W (Joint E d low high) (onBuffers R) (forwardSens body step scale x seed s)
      (forwardSens body step scale x seed s) fun z z' m m' =>
        (z' = z ∧ z.1.sizes = d.sig.outputSizes ∧ z.2.Shaped d.sig.inputSizes d.sig.outputSizes) ∧ onBuffers R m m' := by
  have hpoint (h : K) : Block.sizes (perturb x seed h) = d.sig.inputSizes := sizes_zipBlocks _ hx hseed
  rw [forwardSens]
  refine .ite (fun _ => .pure fun _ _ _ h => ⟨⟨rfl, ?_, hs⟩, h⟩) fun _ => ?_
  · rw [Block.clear_eq, Block.sizes_filled, hs.plus]
  refine (beside_between hbody hs (hpoint _) (hpoint _)).bind fun t t' => .assume (fun _ _ _ h => h.1) fun ht =>
    .pure fun _ _ _ h => ⟨⟨?_, sizes_zipBlocks _ ht.2.plus ht.2.minus, ht.2⟩, h.2⟩
  rw [ht.1]

include hx in
theorem beside_forward (step scale : K) {k na : Nat} (hk : k < f) {s : Scratch K}
    (hs : s.Shaped d.sig.inputSizes d.sig.outputSizes) :
    Beside W (Joint E d low high) (onBuffers (Buffers.Partly f a k na)) (forward body step scale x s k)
      (forward body step scale x s k) fun t t' m m' =>
        (t' = t ∧ t.Shaped d.sig.inputSizes d.sig.outputSizes) ∧ onBuffers (Buffers.Partly f a (k+1) na) m m' := by
  refine .reading fun b b' hb hb' _ h => ?_
  have hl : k < b.forwardSeed.size := Nat.lt_of_lt_of_le hk h.forwardSeed.left
  have hr : k < b'.forwardSeed.size := Nat.lt_of_lt_of_le hk h.forwardSeed.right
  have hseed : b'.forwardSeed.getD k #[] = b.forwardSeed.getD k #[] := h.forwardSeed.getD hk #[]
  rw [hseed]
  refine (beside_forwardSens hbody hx (Buffers.sizes_getD hb.shaped.forwardSeed hl) step scale hs).bind fun z z' =>
    .assume (fun _ _ _ h => h.1) fun hz => ?_
  rw [hz.1]
  refine Beside.next ((Beside.recast (R := fun c c' => c = b ∧ c' = b') (S := Buffers.Partly f a (k+1) na) ?_).before
    fun _ _ _ h => h.2) fun _ _ => .pure fun _ _ _ h => ⟨⟨rfl, hz.2.2⟩, h⟩
  rintro _ _ - - he ⟨rfl, rfl⟩
  refine ⟨⟨hb.shaped.setForwardSens k hz.2.1, rfl, rfl⟩, ⟨hb'.shaped.setForwardSens k hz.2.1, rfl, rfl⟩,
    fun e => by rw [he e], ⟨h.input, h.forwardSeed, h.adjointSeed⟩, h.output, ?_, h.adjointSens⟩
  exact h.forwardSens.set (hb.shaped.forward ▸ hl) (hb'.shaped.forward ▸ hr) z.1

theorem beside_adjointColumn (step : K) (n i k : Nat) (v : K) (hn : n = a) {s : Scratch K}
    (hs : s.Shaped d.sig.inputSizes d.sig.outputSizes) :
    Beside W (Joint E d low high) (onBuffers (Buffers.Partly f a f a)) (adjointColumn body step n i k v s)
      (adjointColumn body step n i k v s) fun t t' m m' =>
        (t' = t ∧ t.Shaped d.sig.inputSizes d.sig.outputSizes) ∧ onBuffers (Buffers.Partly f a f a) m m' := by
  subst hn
  have hup (v : K) : Block.sizes (s.point.set i k v) = d.sig.inputSizes := by rw [Block.sizes_set, hs.point]
  refine (beside_between hbody hs (hup _) (by rw [Block.sizes_set, hup])).bind fun t t' =>
    .assume (fun _ _ _ h => h.1) fun ht => ?_
  rw [ht.1]
  refine Beside.next ((Beside.recast (R := Buffers.Partly f n f n) (S := Buffers.Partly f n f n)
    fun b b' hb hb' he h => ?_).before fun _ _ _ h => h.2) fun _ _ =>
      .pure fun _ _ _ h => ⟨⟨rfl, (Block.sizes_set _ _ _ _).trans ht.2.point, ht.2.plus, ht.2.minus⟩, h⟩
  have hcast {b : Buffers K} (hb : b.Shaped d.sig.inputSizes d.sig.outputSizes) : b.Recast d.sig {b with
      adjointSens := (List.range n).foldl (fun sens d =>
        sens.modify d (Block.set · i k (contract step (b.adjointSeed.getD d #[]) t.plus t.minus))) b.adjointSens} := by
    have hsize : ((List.range n).foldl (fun (sens : Array (Block K)) d =>
        sens.modify d (Block.set · i k (contract step (b.adjointSeed.getD d #[]) t.plus t.minus))) b.adjointSens).size =
        b.adjointSens.size := by
      refine List.foldlRecOn (motive := fun s : Array (Block K) => s.size = b.adjointSens.size) _ _ rfl ?_
      exact fun s hs d _ => Array.size_modify.trans hs
    refine ⟨⟨hb.input, hb.output, hb.forwardSeed, hb.forwardSens, hb.adjointSeed, fun z hz => ?_, hb.forward,
      hsize.trans hb.adjoint⟩, rfl, rfl⟩
    obtain ⟨d, hd⟩ := Array.mem_iff_getElem?.mp hz
    rw [getElem?_modifies n i k (fun d => contract step (b.adjointSeed.getD d #[]) t.plus t.minus)] at hd
    obtain ⟨w, hw, rfl⟩ := Option.map_eq_some_iff.mp hd
    have hsizes := hb.adjointSens w (Array.mem_of_getElem? hw)
    split
    · rwa [Block.sizes_set]
    · exact hsizes
  refine ⟨hcast hb, hcast hb', fun e => by rw [he e], ⟨h.input, h.forwardSeed, h.adjointSeed⟩, h.output,
    h.forwardSens, ?_, ?_, fun e hlt => ?_⟩
  · exact h.adjointSens.left.trans (Nat.le_of_eq ((hcast hb).shaped.adjoint.trans hb.adjoint.symm).symm)
  · exact h.adjointSens.right.trans (Nat.le_of_eq ((hcast hb').shaped.adjoint.trans hb'.adjoint.symm).symm)
  · rw [getElem?_modifies n i k (fun d => contract step (b.adjointSeed.getD d #[]) t.plus t.minus),
      getElem?_modifies n i k (fun d => contract step (b'.adjointSeed.getD d #[]) t.plus t.minus), h.adjointSens.get e hlt]
    have hseed : b'.adjointSeed.getD e #[] = b.adjointSeed.getD e #[] := h.adjointSeed.getD hlt #[]
    rw [hseed]

include hx in
theorem beside_adjoint (step : K) {s : Scratch K} (hs : s.Shaped d.sig.inputSizes d.sig.outputSizes) :
    Beside W (Joint E d low high) (onBuffers (Buffers.Partly f a f 0)) (adjoint body step x a s)
      (adjoint body step x a s) fun _ _ => onBuffers (Buffers.Partly f a f a) := by
  have hcolumns (i : Nat) (v : Array K) {s : Scratch K} (hs : s.Shaped d.sig.inputSizes d.sig.outputSizes) :=
    beside_scratch (P := Buffers.Partly f a f a) (fun s (w : K × Nat) hs =>
      beside_adjointColumn hbody step a i w.2 w.1 rfl hs) v.zipIdx.toList hs
  refine Beside.next (R := onBuffers (Buffers.Partly f a f a)) (.recast fun b b' hb hb' he h => ?_) fun _ _ =>
    (beside_scratch (s := ⟨x, s.plus, s.minus⟩) (fun s (v : Array K × Nat) hs => hcolumns v.2 v.1 hs) x.zipIdx.toList
      ⟨hx, hs.plus, hs.minus⟩).after fun _ _ _ _ _ h => h.2
  have hcast {b : Buffers K} (hb : b.Shaped d.sig.inputSizes d.sig.outputSizes) : b.Recast d.sig {b with
      adjointSens := b.adjointSens.mapIdx fun d v => if d < a then v.map (·.map fun _ => zero) else v} := by
    refine ⟨⟨hb.input, hb.output, hb.forwardSeed, hb.forwardSens, hb.adjointSeed, fun z hz => ?_, hb.forward,
      Array.size_mapIdx.trans hb.adjoint⟩, rfl, rfl⟩
    obtain ⟨d, hd, rfl⟩ := Array.mem_mapIdx.mp hz
    have hsizes := hb.adjointSens _ (Array.getElem_mem hd)
    split
    · rwa [Block.clear_eq, Block.sizes_filled]
    · exact hsizes
  have hl : a ≤ b.adjointSens.size := Nat.le_trans h.adjointSeed.left (Nat.le_of_eq hb.adjoint.symm)
  have hr : a ≤ b'.adjointSens.size := Nat.le_trans h.adjointSeed.right (Nat.le_of_eq hb'.adjoint.symm)
  refine ⟨hcast hb, hcast hb', fun e => by rw [he e], ⟨h.input, h.forwardSeed, h.adjointSeed⟩, h.output,
    h.forwardSens, by simpa using hl, by simpa using hr, fun e hlt => ?_⟩
  have hcleared {s : Array (Block K)} (hs : ∀ v ∈ s, v.sizes = d.sig.inputSizes) (he : e < s.size) :
      (s.mapIdx fun d v => if d < a then (v.map (·.map fun _ => zero) : Block K) else v)[e]? =
        some (Block.filled d.sig.inputSizes zero) := by
    rw [Array.getElem?_mapIdx, Array.getElem?_eq_getElem he, Option.map_some, if_pos hlt, Block.clear_eq,
      hs _ (Array.getElem_mem he)]
  rw [hcleared hb.adjointSens (by omega), hcleared hb'.adjointSens (by omega)]

theorem beside_directions (step : K) (f a : Nat) :
    Beside W (Joint E d low high) (onBuffers fun b b' => b.Alike f a b' ∧ b'.output = b.output)
      (directions body step f a) (directions body step f a) fun _ _ => onBuffers (Buffers.Settled f a) := by
  rw [directions]
  refine .ite (fun h0 => .pure fun m m' _ h => ?_) fun _ => .reading fun b b' hb hb' _ h => ?_
  · obtain ⟨rfl, rfl⟩ : f = 0 ∧ a = 0 := by simpa using h0
    exact ⟨h.1, h.2, .zero _ _, .zero _ _⟩
  have hin : b'.input = b.input := h.1.input
  have hout : b'.output = b.output := h.2
  dsimp only
  rw [hin, hout]
  have hstart : ∀ m m', onBuffers (fun c c' => c = b ∧ c' = b') m m' → onBuffers (Buffers.Partly f a 0 0) m m' := by
    rintro m m' ⟨hm, hm'⟩
    rw [onBuffers, hm, hm']
    exact ⟨h.1, h.2, .zero _ _, .zero _ _⟩
  have hloop := Beside.foldlM_range (W := W) (G := Joint E d low high)
    (f := forward body step (add one (maxAbs b.input)) b.input) (g := forward body step (add one (maxAbs b.input)) b.input)
    (fun k t t' m m' => (t' = t ∧ t.Shaped d.sig.inputSizes d.sig.outputSizes) ∧ onBuffers (Buffers.Partly f a k 0) m m') f
    (fun k hk t t' => .assume (fun _ _ _ h => h.1) fun ht => ?_) ⟨b.input, b.output, b.output⟩ ⟨b.input, b.output, b.output⟩
  · refine (hloop.before fun m m' _ hm => ⟨⟨rfl, hb.shaped.input, hb.shaped.output, hb.shaped.output⟩, hstart m m' hm⟩).bind
      fun t t' => .assume (fun _ _ _ h => h.1) fun ht => ?_
    rw [ht.1]
    refine .ite (fun h0 => .pure fun m m' _ hm => ?_) fun _ =>
      (Beside.before ((beside_adjoint hbody hb.shaped.input _ ht.2).bind fun _ _ => .pure fun m m' _ hm =>
        ⟨⟨hm.input, hm.forwardSeed, hm.adjointSeed⟩, hm.output, hm.forwardSens, hm.adjointSens⟩) fun _ _ _ h => h.2)
    subst h0
    obtain ⟨-, hm⟩ := hm
    exact ⟨⟨hm.input, hm.forwardSeed, hm.adjointSeed⟩, hm.output, hm.forwardSens, hm.adjointSens⟩
  · rw [ht.1]
    exact (beside_forward hbody hb.shaped.input _ _ hk ht.2).before fun _ _ _ h => h.2

end Body

end Differences

namespace Evaluate

variable [Number K]

/-- The outputs, then the directions. A fault leaves the outputs as far as they were written. -/
theorem beside_byDifferences {body : Body K} (hbody : body.Settles W E d low high) (f a : Nat) :
    Beside W (Joint E d low high) (onBuffers (Buffers.Alike f a)) (byDifferences d.sig body f a)
      (byDifferences d.sig body f a) fun _ _ => onBuffers (Buffers.Settled f a) := by
  rw [byDifferences]
  refine .reading fun b b' hb hb' he h => ?_
  have hin : b'.input = b.input := h.input
  dsimp only
  rw [hin]
  refine (hbody (fun c c' => c = b ∧ c' = b') b.input b.output b'.output hb.shaped.input hb.shaped.output
    hb'.shaped.output fun e => by rw [he e]).bind fun r r' => .assume (fun _ _ _ h => h.1) fun hr => ?_
  obtain ⟨y, e⟩ := r
  obtain ⟨y', e'⟩ := r'
  obtain rfl : e' = e := hr.fault
  have hset (R : Buffers K → Buffers K → Prop) : Beside W (Joint E d low high) (onBuffers R)
      (Run.modifyBuffers fun c => {c with output := y}) (Run.modifyBuffers fun c => {c with output := y'})
      fun _ _ => onBuffers fun c c' => ∃ b b', R b b' ∧ c = {b with output := y} ∧ c' = {b' with output := y'} :=
    .recast fun c c' hc hc' he hR => ⟨⟨hc.withOutput hr.sizes, rfl, rfl⟩, ⟨hc'.withOutput hr.sizes', rfl, rfl⟩,
      fun e => by rw [he e, show y' = y from hr.same (.inl e)], c, c', hR, rfl, rfl⟩
  cases e' with
  | some e =>
    exact Beside.next ((hset fun _ _ => True).before fun _ _ _ _ => trivial) fun _ _ => .throw (hr.tame e rfl)
  | none =>
    obtain rfl : y' = y := hr.same (.inr rfl)
    refine Beside.next ((hset fun c c' => c = b ∧ c' = b').before fun _ _ _ hm => hm.2 rfl) fun _ _ =>
      (Differences.beside_directions hbody _ f a).before ?_
    rintro m m' - ⟨_, _, ⟨rfl, rfl⟩, hm, hm'⟩
    rw [onBuffers, hm, hm']
    exact ⟨⟨h.input, h.forwardSeed, h.adjointSeed⟩, rfl⟩

end Evaluate

end Fluxion
