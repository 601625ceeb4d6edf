import Fluxion.Proofs.Function.Call
import Fluxion.Proofs.Function.SeedSymbols
import Fluxion.Proofs.Function.SymbolicJacobian
import Fluxion.Proofs.Tape.SymbolicPartials

/-!
Derivative functions. The tape is replayed at new seed symbols, so at any inputs and seeds the function that is
made answers what an evaluation with these seeds leaves in the buffers.
-/
set_option autoImplicit false

namespace Fluxion

open Fluxion.Expr

variable {K T U : Type}

@[simp] theorem Block.size_sizes (b : Block T) : b.sizes.size = b.size := Array.size_map

theorem Block.sizes_append (b c : Block T) : Block.sizes (b ++ c) = b.sizes ++ c.sizes := Array.map_append

theorem Block.sizes_flatten {ns : Array Nat} {bs : Array (Block T)} (h : ∀ x ∈ bs, x.sizes = ns) :
    Block.sizes bs.flatten = (Array.replicate bs.size ns).flatten := by
  have hmap : bs.map Block.sizes = Array.replicate bs.size ns := by
    rw [Array.map_congr_left h, Array.map_const']
  rw [← hmap]
  exact Array.map_flatten

/-- Blocks of one shape are known from what they are one after the other. -/
theorem Block.flatten_inj {ns : Array Nat} {bs cs : Array (Block T)} (hb : ∀ x ∈ bs, x.sizes = ns)
    (hc : ∀ x ∈ cs, x.sizes = ns) (hsize : bs.size = cs.size) (h : bs.flatten = cs.flatten) : bs = cs := by
  have hlength (ds : Array (Block T)) (hd : ∀ x ∈ ds, x.sizes = ns) :
      (ds.toList.map Array.toList).map List.length = List.replicate ds.size ns.size := by
    rw [List.map_map, ← Array.length_toList, ← List.map_const']
    refine List.map_congr_left fun x hx => ?_
    rw [Function.comp_apply, Array.length_toList, ← hd x (Array.mem_toList_iff.mp hx), Block.size_sizes]
  have hlists : bs.toList.map Array.toList = cs.toList.map Array.toList := by
    refine List.eq_iff_flatten_eq.mpr ⟨?_, by rw [hlength bs hb, hlength cs hc, hsize]⟩
    rw [← Array.toList_flatten, h, Array.toList_flatten]
  exact Array.toList_inj.mp ((List.map_inj_right fun _ _ => Array.toList_inj.mp).mp hlists)

theorem Block.size_eq {b : Block T} {c : Block U} (h : b.sizes = c.sizes) : b.size = c.size := by
  rw [← size_sizes, h, size_sizes]

theorem Block.extract_shape {ns : Array Nat} {bs : Array (Block T)} (h : ∀ x ∈ bs, x.sizes = ns) {n : Nat}
    (hn : n ≤ bs.size) : (∀ x ∈ bs.extract 0 n, x.sizes = ns) ∧ (bs.extract 0 n).size = n := by
  refine ⟨fun x hx => ?_, by simpa using hn⟩
  obtain ⟨k, hk, rfl⟩ := Array.mem_extract_iff_getElem.mp hx
  exact h _ (Array.getElem_mem _)

namespace Buffers

/-- The inputs, then the seeds of the first `f` forward and `a` adjoint directions. -/
def arguments (f a : Nat) (b : Buffers T) : Block T :=
  b.input ++ (b.forwardSeed.extract 0 f).flatten ++ (b.adjointSeed.extract 0 a).flatten

theorem sizes_arguments {ins outs : Array Nat} {b : Buffers T} (h : b.Shaped ins outs) {f a : Nat}
    (hf : f ≤ b.forward) (ha : a ≤ b.adjoint) : (b.arguments f a).sizes =
      ins ++ (Array.replicate f ins).flatten ++ (Array.replicate a outs).flatten := by
  obtain ⟨hforward, hfsize⟩ := Block.extract_shape h.forwardSeed hf
  obtain ⟨hadjoint, hasize⟩ := Block.extract_shape h.adjointSeed ha
  rw [arguments, Block.sizes_append, Block.sizes_append, Block.sizes_flatten hforward,
    Block.sizes_flatten hadjoint, hfsize, hasize, h.input]

theorem extract_firstBlocks {n : Nat} {seeds sens : Array (Block T)} (g : Block T → Block T)
    (hn : n ≤ seeds.size) (hs : sens.size = seeds.size) :
    (firstBlocks n (fun d => g (seeds.getD d #[])) sens).extract 0 n = (seeds.extract 0 n).map g := by
  refine Array.ext_getElem? fun d => ?_
  by_cases hd : d < n
  · have hseed : d < seeds.size := by omega
    have hsens : d < sens.size := by omega
    rw [Array.getElem?_extract, if_pos (by rw [size_firstBlocks]; omega), Nat.zero_add, getElem?_firstBlocks]
    simp [hd, hn, hsens, hseed, Array.getD_eq_getD_getElem?]
  · simp [hd]

theorem Shaped.of_image {g : T → U} {ins outs : Array Nat} {b : Buffers T} (h : (b.image g).Shaped ins outs) :
    b.Shaped ins outs := by
  have hall {ns : Array Nat} {bs : Array (Block T)} (hb : ∀ x ∈ bs.map (Block.image g), x.sizes = ns) :
      ∀ x ∈ bs, x.sizes = ns := by
    intro x hx
    rw [← Block.sizes_image g, hb _ (Array.mem_map_of_mem hx)]
  exact ⟨(Block.sizes_image g _).symm.trans h.input, (Block.sizes_image g _).symm.trans h.output,
    hall h.forwardSeed, hall h.forwardSens, hall h.adjointSeed, hall h.adjointSens,
    by simpa [Buffers.image] using h.forward, by simpa [Buffers.image] using h.adjoint⟩

end Buffers

namespace Signature

/-- The outputs, then the sensitivities of the first `f` forward and `a` adjoint directions, each on its
pattern. -/
def results (sig : Signature K) (f a : Nat) (b : Buffers T) : Array (Matrix T) :=
  b.output.on sig.outputs ++ (b.forwardSens.extract 0 f).flatMap (·.on sig.outputs) ++
    (b.adjointSens.extract 0 a).flatMap (·.on sig.inputs)

theorem map_results (sig : Signature K) (f a : Nat) (g : T → U) (b : Buffers T) :
    (sig.results f a b).map (Matrix.map g) = sig.results f a (b.image g) := by
  simp only [results, Buffers.image, Array.map_append, Array.map_flatMap, Block.map_on,
    ← Array.map_extract, Array.flatMap_map]

theorem pattern_flatMap_on {ps : Array Pattern} {bs : Array (Block T)} (h : ∀ x ∈ bs, x.size = ps.size) :
    (bs.flatMap (·.on ps)).map (·.pattern) = (Array.replicate bs.size ps).flatten := by
  rw [Array.map_flatMap, Array.flatMap_def, Array.map_congr_left fun x hx => Block.pattern_on (h x hx),
    Array.map_const']

theorem pattern_results {sig : Signature K} {f a : Nat} {b : Buffers T}
    (h : b.Shaped sig.inputSizes sig.outputSizes) (hf : f ≤ b.forward) (ha : a ≤ b.adjoint) :
    (sig.results f a b).map (·.pattern) =
      sig.outputs ++ (Array.replicate f sig.outputs).flatten ++ (Array.replicate a sig.inputs).flatten := by
  have hsize {x : Block T} {ps : Array Pattern} (hx : x.sizes = ps.map Pattern.nnz) : x.size = ps.size := by
    simpa [Block.sizes] using congrArg Array.size hx
  obtain ⟨hforward, hfsize⟩ := Block.extract_shape h.forwardSens (hf.trans h.forward.ge)
  obtain ⟨hadjoint, hasize⟩ := Block.extract_shape h.adjointSens (ha.trans h.adjoint.ge)
  rw [results, Array.map_append, Array.map_append, Block.pattern_on (hsize h.output),
    pattern_flatMap_on fun x hx => hsize (hforward x hx), pattern_flatMap_on fun x hx => hsize (hadjoint x hx),
    hfsize, hasize]

theorem sized_results {sig : Signature K} {f a : Nat} {b : Buffers T}
    (h : b.Shaped sig.inputSizes sig.outputSizes) (hf : f ≤ b.forward) (ha : a ≤ b.adjoint) :
    ∀ m ∈ sig.results f a b, m.Sized := by
  intro m hm
  simp only [results, Array.mem_append, Array.mem_flatMap] at hm
  obtain (hm | ⟨x, hx, hm⟩) | ⟨x, hx, hm⟩ := hm
  · exact Block.sized_on h.output m hm
  · exact Block.sized_on ((Block.extract_shape h.forwardSens (hf.trans h.forward.ge)).1 x hx) m hm
  · exact Block.sized_on ((Block.extract_shape h.adjointSens (ha.trans h.adjoint.ge)).1 x hx) m hm

section Derivatives

variable [CommRing K] [Number K] {inputs outputs : Array (Matrix (Expr K))}

/-- The values of the outputs, their derivatives along the blocks `vs`, and the gradients weighted by the
blocks `ws`. -/
def derivatives (sig : Signature K) (inputs outputs : Array (Matrix (Expr K))) (ρ : Symbol → K)
    (vs ws : Array (Block K)) : Array (Matrix K) :=
  (Block.ofEntries (Expr.value ρ) outputs).on sig.outputs ++
    vs.flatMap (fun v => (Tape.tangent inputs outputs ρ v).on sig.outputs) ++
    ws.flatMap (fun w => (Tape.gradient inputs outputs ρ w).on sig.inputs)

theorem results_evaluatedAt {sig : Signature K} {f a : Nat} {b : Buffers K}
    (h : b.Shaped sig.inputSizes sig.outputSizes) (hf : f ≤ b.forward) (ha : a ≤ b.adjoint) (ρ : Symbol → K) :
    sig.results f a (Tape.evaluatedAt inputs outputs ρ f a b) =
      sig.derivatives inputs outputs ρ (b.forwardSeed.extract 0 f) (b.adjointSeed.extract 0 a) := by
  simp only [results, Tape.evaluatedAt, derivatives,
    Buffers.extract_firstBlocks (Tape.tangent inputs outputs ρ) hf h.forward,
    Buffers.extract_firstBlocks (Tape.gradient inputs outputs ρ) ha h.adjoint, Array.flatMap_map]

end Derivatives

end Signature

namespace Symbolic

section Seeds

variable {roots : List (Expr K)} {ps : Array Pattern} {n : Nat} {ss : Array (Array (Matrix (Expr K)))}

/-- The entries of seed matrices, direction by direction. -/
def blocks (ss : Array (Array (Matrix (Expr K)))) : Array (Block (Expr K)) :=
  ss.map fun ms => ms.map (·.values)

theorem image_blocks (g : Expr K → T) (ss : Array (Array (Matrix (Expr K)))) :
    (blocks ss).map (Block.image g) = ss.map (Block.ofEntries g) := by
  simp [blocks, Block.image, Block.ofEntries, Function.comp_def]

theorem held_blocks (h : Present roots ss.flatten) : ∀ x ∈ blocks ss, x.Held roots := by
  intro x hx v hv e he
  obtain ⟨ms, hms, rfl⟩ := Array.mem_map.mp hx
  obtain ⟨m, hm, rfl⟩ := Array.mem_map.mp hv
  refine h e ?_
  rw [Matrix.entries_flatten]
  exact List.mem_flatMap.mpr ⟨ms, Array.mem_toList_iff.mpr hms,
    List.mem_flatMap.mpr ⟨m, Array.mem_toList_iff.mpr hm, Array.mem_toList_iff.mpr he⟩⟩

theorem Seeds.size (h : Seeds ps n ss) : ss.size = n := by
  simpa using congrArg Array.size h.pattern

theorem Seeds.nnz (h : Seeds ps n ss) : ∀ ms ∈ ss, ms.map Matrix.nnz = ps.map Pattern.nnz := by
  intro ms hms
  have hp : ms.map (·.pattern) ∈ Array.replicate n ps := h.pattern ▸ Array.mem_map_of_mem hms
  rw [Matrix.nnz_of_sized (h.sized ms hms), (Array.mem_replicate.mp hp).2]

theorem Seeds.sizes_blocks (h : Seeds ps n ss) : ∀ x ∈ blocks ss, x.sizes = ps.map Pattern.nnz := by
  intro x hx
  obtain ⟨ms, hms, rfl⟩ := Array.mem_map.mp hx
  rw [← h.nnz ms hms]
  simp [Block.sizes, Matrix.nnz, Function.comp_def]

theorem Seeds.sizes_ofEntries (h : Seeds ps n ss) (g : Expr K → T) :
    ∀ x ∈ ss.map (Block.ofEntries g), x.sizes = ps.map Pattern.nnz := by
  intro x hx
  obtain ⟨ms, hms, rfl⟩ := Array.mem_map.mp hx
  rw [Block.sizes_ofEntries, h.nnz ms hms]

theorem Seeds.pattern_flatten (h : Seeds ps n ss) :
    ss.flatten.map (·.pattern) = (Array.replicate n ps).flatten := by
  rw [Array.map_flatten, h.pattern]

theorem Seeds.sized_flatten (h : Seeds ps n ss) : ∀ m ∈ ss.flatten, m.Sized := by
  intro m hm
  obtain ⟨ms, hms, hm⟩ := Array.mem_flatten.mp hm
  exact h.sized ms hms m hm

end Seeds

section Derivative

variable [CommRing K] [Number K] [ExactRing K] {ok : Op → Prop}
  {symbols roots : List (Expr K)} {inputs outputs : Array (Matrix (Expr K))} {sig : Signature K} {t : Tape K}
  {f a : Nat}
  {fs as : Array (Array (Matrix (Expr K)))}

/-- The derivative function, once there are seeds. -/
def seededDerivative (sig : Signature K) (t : Tape K) (inputs : Array (Matrix (Expr K))) (f a : Nat)
    (fs as : Array (Array (Matrix (Expr K)))) (o : Options K) : Make (Definition K) := do
  let b ← buffers sig inputs f a
  let c ← replay t (withSeeds b (blocks fs) (blocks as)) f a
  Definition.ofExpressions (inputs ++ fs.flatten ++ as.flatten)
    (matrices sig.outputs c.output ++ c.forwardSens.flatMap (matrices sig.outputs) ++
      c.adjointSens.flatMap (matrices sig.inputs)) o

omit [CommRing K] [ExactRing K] in
/-- The seeds are made first, of symbols that were not there. -/
theorem exists_seeds (sig : Signature K) (t : Tape K) (hd : DistinctSymbols inputs) {n : Nat}
    (hlt : ∀ e ∈ Matrix.entries inputs, e.id < n) (f a : Nat) (o : Options K) :
    ∃ fs as n', Seeds sig.inputs f fs ∧ Seeds sig.outputs a as ∧
      DistinctSymbols (inputs ++ fs.flatten ++ as.flatten) ∧
      (∀ e ∈ Matrix.entries (inputs ++ fs.flatten ++ as.flatten), e.id < n') ∧
      (derivative (.expressions sig t inputs) t inputs f a o).run n =
        (seededDerivative sig t inputs f a fs as o).run n' := by
  have hunfold : derivative (.expressions sig t inputs) t inputs f a o = (do
      let fs ← seedSymbols "fwd" "i" sig.inputs f
      let as ← seedSymbols "adj" "o" sig.outputs a
      seededDerivative sig t inputs f a fs as o) := rfl
  obtain ⟨hforward, hfs⟩ := makesSymbols_seedSymbols (K := K) "fwd" "i" sig.inputs f n
  obtain ⟨hdistinct, hbelow⟩ := hd.append hlt hforward
  obtain ⟨hadjoint, has⟩ := makesSymbols_seedSymbols (K := K) "adj" "o" sig.outputs a
    ((seedSymbols (K := K) "fwd" "i" sig.inputs f).run n).2
  obtain ⟨hdistinct, hbelow⟩ := hdistinct.append hbelow hadjoint
  refine ⟨_, _, _, hfs, has, hdistinct, hbelow, ?_⟩
  rw [hunfold, run_bind_ok (run_liftState _), run_bind_ok (run_liftState _)]
  rfl

theorem returns_seeded (h : Expresses inputs outputs sig t) (hf : Reading ok (RingHom.id K))
    (hop : ∀ e, ReachedFrom (Matrix.entries outputs) e → e.op.isStructural = false → ok e.op)
    (hrem : ¬ok .rem) (hd : ∀ ρ op, op.isStructural = false → ok op →
      Tape.Derives ok symbols (RingHom.id K) ρ op)
    (hfs : Seeds sig.inputs f fs) (has : Seeds sig.outputs a as) (hroots : Present roots inputs)
    (hfroots : Present roots fs.flatten) (haroots : Present roots as.flatten) :
    Returns ok symbols roots (do
      let b ← buffers sig inputs f a
      replay t (withSeeds b (blocks fs) (blocks as)) f a : Make (Buffers (Expr K))) fun roots' c =>
        (c.Held roots' ∧ c.Shaped sig.inputSizes sig.outputSizes ∧ c.forward = f ∧ c.adjoint = a) ∧
          ∀ ρ, (sig.results f a c).map (Matrix.map (Expr.value ρ)) = sig.derivatives inputs outputs ρ
            (fs.map (Block.ofEntries (Expr.value ρ))) (as.map (Block.ofEntries (Expr.value ρ))) := by
  -- One run serves all points, and its buffers have the shape of their values at any of them.
  refine Returns.all fun ρ => ?_
  have hid : meaning (RingHom.id K) ρ = Expr.value ρ := funext (Expr.meaning_id ρ)
  refine .bind (.lift (yields_buffers sig inputs f a)) fun roots₁ b h₁ hb => ?_
  obtain ⟨i, hz, rfl⟩ := hb
  have hat := held_atSymbols sig (hroots.subset h₁) hz f a
  have hshaped := shaped_atSymbols h.inputSizes f a (const i Number.zero)
  set b := withSeeds (atSymbols sig inputs f a (const i Number.zero)) (blocks fs) (blocks as) with hb
  have hheld : b.Held roots₁ :=
    ⟨hat.input, hat.output, held_blocks (hfroots.subset h₁), hat.forwardSens,
      held_blocks (haroots.subset h₁), hat.adjointSens⟩
  have hforward : b.forwardSeed.size = f := by simp [hb, withSeeds, blocks, hfs.size]
  have hadjoint : b.adjointSeed.size = a := by simp [hb, withSeeds, blocks, has.size]
  have hshape : b.Shaped sig.inputSizes sig.outputSizes :=
    ⟨hshaped.input, hshaped.output, hfs.sizes_blocks, hshaped.forwardSens, has.sizes_blocks,
      hshaped.adjointSens, by rw [hforward]; simp [hb, withSeeds, atSymbols, Buffers.filled],
      by rw [hadjoint]; simp [hb, withSeeds, atSymbols, Buffers.filled]⟩
  refine (h.returns_replay (ρ := ρ) hf hop hrem (hd ρ) hheld hshape rfl hforward.ge hadjoint.ge).mono
    fun roots₂ c _ h => ?_
  obtain ⟨hc, himage⟩ := h
  rw [hid, Matrix.changed_id, Matrix.changed_id] at himage
  have hvalues := hshape.image (Expr.value ρ)
  refine ⟨⟨hc, .of_image (g := Expr.value ρ) ?_, ?_, ?_⟩, ?_⟩
  · rw [himage]
    rw [h.inputSizes, h.outputSizes] at hvalues ⊢
    exact Tape.shaped_evaluatedAt f a hvalues
  · have hsize := congrArg (fun b : Buffers K => b.forwardSeed.size) himage
    simpa [Buffers.image, Tape.evaluatedAt, hforward, Buffers.forward] using hsize
  · have hsize := congrArg (fun b : Buffers K => b.adjointSeed.size) himage
    simpa [Buffers.image, Tape.evaluatedAt, hadjoint, Buffers.adjoint] using hsize
  · have hf' : (b.image (Expr.value ρ)).forwardSeed = fs.map (Block.ofEntries (Expr.value ρ)) :=
      image_blocks _ fs
    have ha' : (b.image (Expr.value ρ)).adjointSeed = as.map (Block.ofEntries (Expr.value ρ)) :=
      image_blocks _ as
    rw [Signature.map_results, himage, Signature.results_evaluatedAt hvalues
      (by simp [Buffers.forward, hf', hfs.size]) (by simp [Buffers.adjoint, ha', has.size]), hf', ha',
      Array.extract_eq_self_of_le (by simp [hfs.size]), Array.extract_eq_self_of_le (by simp [has.size])]

omit [CommRing K] [Number K] [ExactRing K] in
theorem present_flatMap {bs : Array (Block (Expr K))} (h : ∀ x ∈ bs, x.Held roots) (ps : Array Pattern) :
    Present roots (bs.flatMap (matrices ps)) := by
  intro e he
  rw [Array.flatMap_def, Matrix.entries_flatten, List.mem_flatMap] at he
  obtain ⟨ms, hms, he⟩ := he
  obtain ⟨x, hx, rfl⟩ := Array.mem_map.mp (Array.mem_toList_iff.mp hms)
  exact present_matrices (h x hx) ps e he

omit [CommRing K] [Number K] [ExactRing K] in
theorem pattern_arguments (hp : sig.inputs = inputs.map (·.pattern)) (hfs : Seeds sig.inputs f fs)
    (has : Seeds sig.outputs a as) : (inputs ++ fs.flatten ++ as.flatten).map (·.pattern) =
      sig.inputs ++ (Array.replicate f sig.inputs).flatten ++ (Array.replicate a sig.outputs).flatten := by
  rw [Array.map_append, Array.map_append, ← hp, hfs.pattern_flatten, has.pattern_flatten]

omit [CommRing K] [Number K] [ExactRing K] in
theorem sized_arguments (hin : ∀ m ∈ inputs, m.Sized) (hfs : Seeds sig.inputs f fs)
    (has : Seeds sig.outputs a as) : ∀ m ∈ inputs ++ fs.flatten ++ as.flatten, m.Sized := by
  intro m hm
  obtain (hm | hm) | hm := by simpa only [Array.mem_append] using hm
  · exact hin m hm
  · exact hfs.sized_flatten m hm
  · exact has.sized_flatten m hm

theorem returns_seededDerivative (h : Expresses inputs outputs sig t) (hf : Reading ok (RingHom.id K))
    (hop : ∀ e, ReachedFrom (Matrix.entries outputs) e → e.op.isStructural = false → ok e.op)
    (hrem : ¬ok .rem) (hd : ∀ ρ op, op.isStructural = false → ok op →
      Tape.Derives ok (Matrix.entries (inputs ++ fs.flatten ++ as.flatten)) (RingHom.id K) ρ op)
    (hin : ∀ m ∈ inputs, m.Sized) (hfs : Seeds sig.inputs f fs) (has : Seeds sig.outputs a as)
    (hdistinct : DistinctSymbols (inputs ++ fs.flatten ++ as.flatten))
    (hroots : Present roots (inputs ++ fs.flatten ++ as.flatten)) (o : Options K) :
    Returns ok (Matrix.entries (inputs ++ fs.flatten ++ as.flatten)) roots
      (seededDerivative sig t inputs f a fs as o) fun _ g =>
        ∃ sig' t' outs, g = .expressions sig' t' (inputs ++ fs.flatten ++ as.flatten) ∧
          Expresses (inputs ++ fs.flatten ++ as.flatten) outs sig' t' ∧
          (∀ e, ReachedFrom (Matrix.entries outs) e → e.op.isStructural = false → ok e.op) ∧
          sig'.outputs = sig.outputs ++ (Array.replicate f sig.outputs).flatten ++
            (Array.replicate a sig.inputs).flatten ∧
          ∀ ρ, outs.map (Matrix.map (Expr.value ρ)) = sig.derivatives inputs outputs ρ
            (fs.map (Block.ofEntries (Expr.value ρ))) (as.map (Block.ofEntries (Expr.value ρ))) := by
  have hpresent : Present roots inputs ∧ Present roots fs.flatten ∧ Present roots as.flatten := by
    refine ⟨fun e he => hroots e ?_, fun e he => hroots e ?_, fun e he => hroots e ?_⟩
    all_goals
      rw [Matrix.entries_append, Matrix.entries_append]
      simp [he]
  have hunfold : seededDerivative sig t inputs f a fs as o = (do
      let c ← (do
        let b ← buffers sig inputs f a
        replay t (withSeeds b (blocks fs) (blocks as)) f a : Make (Buffers (Expr K)))
      Definition.ofExpressions (inputs ++ fs.flatten ++ as.flatten)
        (matrices sig.outputs c.output ++ c.forwardSens.flatMap (matrices sig.outputs) ++
          c.adjointSens.flatMap (matrices sig.inputs)) o) := by
    simp only [seededDerivative, bind_assoc]
  rw [hunfold]
  refine .bind (returns_seeded h hf hop hrem hd hfs has hpresent.1 hpresent.2.1 hpresent.2.2)
    fun roots' c _ ⟨⟨hc, hshape, hforward, hadjoint⟩, hvalues⟩ => ?_
  -- The buffers have just the directions that were asked for, so no sensitivity is left out.
  have hresults : matrices sig.outputs c.output ++ c.forwardSens.flatMap (matrices sig.outputs) ++
      c.adjointSens.flatMap (matrices sig.inputs) = sig.results f a c := by
    rw [Signature.results, Array.extract_eq_self_of_le (hshape.forward.trans hforward).le,
      Array.extract_eq_self_of_le (hshape.adjoint.trans hadjoint).le]
    rfl
  rw [hresults]
  have hheld : Present roots' (sig.results f a c) := by
    rw [← hresults]
    exact present_append (present_append (present_matrices hc.output _)
      (present_flatMap hc.forwardSens _)) (present_flatMap hc.adjointSens _)
  have hsized := Signature.sized_results hshape hforward.ge hadjoint.ge
  refine (returns_ofExpressions hdistinct (sized_arguments hin hfs has) hsized hheld o).mono
    fun _ g _ ⟨sig', t', hg, _, hx, hops⟩ => ⟨sig', t', _, hg, hx, hops, ?_, hvalues⟩
  rw [hx.outputPatterns, Signature.pattern_results hshape hforward.ge hadjoint.ge]

end Derivative

end Symbolic

namespace Symbolic

section Evaluate

variable [CommRing K] [Number K] {inputs outputs : Array (Matrix (Expr K))}
  {sig : Signature K} {t : Tape K} {f a : Nat} {fs as : Array (Array (Matrix (Expr K)))} {b : Buffers K}

omit [CommRing K] in
/-- The values of inputs and seeds, one after the other, are those of each. -/
theorem values_of_arguments (h : Expresses inputs outputs sig t) (hfs : Seeds sig.inputs f fs)
    (has : Seeds sig.outputs a as) (hb : b.Shaped sig.inputSizes sig.outputSizes) (hf : f ≤ b.forward)
    (ha : a ≤ b.adjoint) {g : Expr K → K}
    (hg : Block.ofEntries g (inputs ++ fs.flatten ++ as.flatten) = b.arguments f a) :
    Block.ofEntries g inputs = b.input ∧ fs.map (Block.ofEntries g) = b.forwardSeed.extract 0 f ∧
      as.map (Block.ofEntries g) = b.adjointSeed.extract 0 a := by
  obtain ⟨hforward, hfsize⟩ := Block.extract_shape hb.forwardSeed hf
  obtain ⟨hadjoint, hasize⟩ := Block.extract_shape hb.adjointSeed ha
  have hsplit : Block.ofEntries g (inputs ++ fs.flatten ++ as.flatten) = Block.ofEntries g inputs ++
      (fs.map (Block.ofEntries g)).flatten ++ (as.map (Block.ofEntries g)).flatten := by
    rw [Block.ofEntries, Array.map_append, Array.map_append, Array.map_flatten, Array.map_flatten]
    rfl
  have hflat {ps : Array Pattern} {n : Nat} {ss : Array (Array (Matrix (Expr K)))} (hss : Seeds ps n ss)
      {bs : Array (Block K)} (hbs : ∀ x ∈ bs, x.sizes = ps.map Pattern.nnz) (hn : bs.size = n) :
      (ss.map (Block.ofEntries g)).flatten.size = bs.flatten.size := by
    refine Block.size_eq ?_
    rw [Block.sizes_flatten (hss.sizes_ofEntries g), Block.sizes_flatten hbs, Array.size_map, hss.size, hn]
  rw [hsplit, Buffers.arguments, Array.append_assoc, Array.append_assoc] at hg
  have hinput : (Block.ofEntries g inputs).size = b.input.size :=
    Block.size_eq ((Block.sizes_ofEntries g inputs).trans (h.inputSizes.symm.trans hb.input.symm))
  obtain ⟨hg₁, hg⟩ := Array.append_inj hg hinput
  obtain ⟨hg₂, hg₃⟩ := Array.append_inj hg (hflat hfs hforward hfsize)
  exact ⟨hg₁, Block.flatten_inj (hfs.sizes_ofEntries g) hforward (by rw [Array.size_map, hfs.size, hfsize]) hg₂,
    Block.flatten_inj (has.sizes_ofEntries g) hadjoint (by rw [Array.size_map, has.size, hasize]) hg₃⟩

/-- An evaluation leaves the derivatives along its seeds. -/
theorem results_evaluated (h : Expresses inputs outputs sig t) (hfs : Seeds sig.inputs f fs)
    (has : Seeds sig.outputs a as) (hb : b.Shaped sig.inputSizes sig.outputSizes) (hf : f ≤ b.forward)
    (ha : a ≤ b.adjoint) {ρ : Symbol → K}
    (hρ : Block.ofEntries (Expr.value ρ) (inputs ++ fs.flatten ++ as.flatten) = b.arguments f a) :
    sig.results f a (Tape.evaluated inputs outputs f a b) = sig.derivatives inputs outputs ρ
      (fs.map (Block.ofEntries (Expr.value ρ))) (as.map (Block.ofEntries (Expr.value ρ))) := by
  obtain ⟨hinput, hforward, hadjoint⟩ := values_of_arguments h hfs has hb hf ha hρ
  have hid : meaning (RingHom.id K) ρ = Expr.value ρ := funext (Expr.meaning_id ρ)
  have hvalues (s : Symbol) (hs : ReachedFrom (Matrix.entries outputs) (.symbol s)) :
      Tape.valuation 0 inputs b.input s = ρ s := by
    have hsymbol := Tape.valuation_symbols h.closed.distinct (RingHom.id K) ρ (h.closed.symbol s hs)
    rwa [hid, Matrix.changed_id, hinput] at hsymbol
  rw [Tape.evaluated_eq hvalues, Signature.results_evaluatedAt hb hf ha, hforward, hadjoint]

end Evaluate

end Symbolic

section Correct

variable [Field K] [Number K] [ExactField K] [ExactPower K] {inputs outputs : Array (Matrix (Expr K))}

/-- The derivative function with `f` forward and `a` adjoint directions. At the inputs and seeds of any buffers
it answers the outputs, the forward sensitivities and the adjoint sensitivities that an evaluation of the function
leaves in these buffers. -/
theorem Definition.derivative_correct (h : Tape.Closed inputs outputs) (hin : ∀ m ∈ inputs, m.Sized)
    (hout : ∀ m ∈ outputs, m.Sized) (hr : ∀ e, ReachedFrom (Matrix.entries outputs) e → e.op ≠ .rem)
    {uid : Nat} (hid : ∀ e ∈ Matrix.entries inputs, e.id < uid) (o : Options K) (f a : Nat) :
    ∃ d, (ofExpressions inputs outputs o).run uid = (.ok d, uid+1) ∧ ∀ n, uid < n →
      ∃ g n', (d.derive (.derivative f a)).run n = (.ok g, n') ∧
        g.sig.inputs = d.sig.inputs ++ (Array.replicate f d.sig.inputs).flatten ++
          (Array.replicate a d.sig.outputs).flatten ∧
        g.sig.outputs = d.sig.outputs ++ (Array.replicate f d.sig.outputs).flatten ++
          (Array.replicate a d.sig.inputs).flatten ∧
        ∀ m : Machine K, m.frame.buffers.Shaped d.sig.inputSizes d.sig.outputSizes →
          f ≤ m.frame.buffers.forward → a ≤ m.frame.buffers.adjoint →
            ∃ m', (d.evaluate f a).run m = (.ok Report.empty, m') ∧
              g.Answers (m.frame.buffers.arguments f a) (d.sig.results f a m'.frame.buffers) := by
  obtain ⟨sig, t, hd, rfl, hx⟩ := Expresses.exists_ofExpressions h hin hout o uid
  refine ⟨_, hd, fun n hn => ?_⟩
  obtain ⟨fs, as, n', hfs, has, hdistinct, hbelow, hseeds⟩ := Symbolic.exists_seeds sig t h.distinct
    (fun e he => (hid e he).trans hn) f a (sig.derivedOptions s!"fwd{f}_adj{a}")
  -- Every operation but the remainder has derivatives that the builders keep.
  have hd (ρ : Symbol → K) (op : Op) (hs : op.isStructural = false) (hok : op ≠ .rem) :
      Tape.Derives (fun op => op ≠ .rem) (Matrix.entries (inputs ++ fs.flatten ++ as.flatten)) (RingHom.id K)
        ρ op := Tape.derives_total reading_total rfl hs hok
  obtain ⟨_, n'', -, hrun, -, -, sig', t', outs, rfl, hx', hops, houtputs, hvalues⟩ :=
    (Symbolic.returns_seededDerivative hx reading_total (fun e he _ => hr e he) (by simp) hd hin hfs has
      hdistinct (fun e he => .root he) _).exists_run (Symbolic.stock_symbols hdistinct hbelow)
  refine ⟨_, n'', hseeds.trans hrun, ?_, houtputs, fun m hm hf ha => ?_⟩
  · exact hx'.inputPatterns.trans (Symbolic.pattern_arguments hx.inputPatterns hfs has)
  · obtain ⟨stats, heval⟩ := hx.run_around ExactField.finite hr hm hf ha
    refine ⟨_, heval, ?_⟩
    have hsizes : (m.frame.buffers.arguments f a).sizes =
        (inputs ++ fs.flatten ++ as.flatten).map Matrix.nnz := by
      rw [Buffers.sizes_arguments hm hf ha, Matrix.nnz_of_sized (Symbolic.sized_arguments hin hfs has),
        Symbolic.pattern_arguments hx.inputPatterns hfs has]
      simp [Definition.sig, Signature.inputSizes, Signature.outputSizes]
    -- The derivative has no remainder either, so its call cannot fail.
    have hanswers := hx'.answers (ne_rem_of_ok (· ≠ .rem) (by simp) hops) hsizes
    rw [hvalues, ← Symbolic.results_evaluated hx hfs has hm hf ha
      (Tape.ofEntries_valuation hdistinct hsizes 0)] at hanswers
    exact hanswers

end Correct

section Powers

/-- Two symbols. -/
def powerInputs : Array (Matrix (Expr Powered)) := #[.column #[.symbol ⟨0,"x"⟩, .symbol ⟨1,"y"⟩]]

/-- The cube of the first symbol, times the second. -/
def cubeProduct : Expr Powered :=
  .binary 4 .mul (.binary 3 .constPow (.symbol ⟨0,"x"⟩) (.const 2 3)) (.symbol ⟨1,"y"⟩)

theorem cubeProduct_closed : Tape.Closed powerInputs #[.scalar cubeProduct] := by
  have hx := (numbered_nil (K := Powered) 0).new (e := .symbol ⟨0,"x"⟩) rfl trivial (by simp [operands])
  have hy := hx.new (e := .symbol ⟨1,"y"⟩) rfl trivial (by simp [operands])
  have hthree := hy.new (e := .const 2 3) rfl trivial (by simp [operands])
  have hcube := hthree.new (e := .binary 3 .constPow (.symbol ⟨0,"x"⟩) (.const 2 3)) rfl
    ⟨rfl, trivial, trivial⟩ fun b hb => .root (by
      obtain rfl | rfl : b = _ ∨ b = _ := by simpa [operands] using hb
      all_goals simp)
  have hproduct := hcube.new (e := cubeProduct) rfl ⟨rfl, ⟨rfl, trivial, trivial⟩, trivial⟩ fun b hb => .root (by
      obtain rfl | rfl : b = _ ∨ b = _ := by simpa [cubeProduct, operands] using hb
      all_goals simp)
  refine ⟨hproduct.toCoherent.mono ?_, ⟨?_, ?_⟩, fun s hs => ?_⟩
  · intro e he
    obtain rfl : e = cubeProduct := by simpa [Matrix.entries, Matrix.scalar] using he
    exact .root List.mem_cons_self
  · simp [Matrix.entries, powerInputs, Matrix.column]
  · simp [Matrix.entries, powerInputs, Matrix.column, Expr.id]
  · have hxy : s = ⟨0,"x"⟩ ∨ s = ⟨1,"y"⟩ := by
      simpa [Matrix.entries, Matrix.scalar, cubeProduct, ReachedFrom, Reaches] using hs
    obtain rfl | rfl := hxy <;> simp [Matrix.entries, powerInputs, Matrix.column]

theorem cubeProduct_ne_rem (e : Expr Powered) (he : ReachedFrom (Matrix.entries #[.scalar cubeProduct]) e) :
    e.op ≠ .rem := by
  simp [Matrix.entries, Matrix.scalar, cubeProduct, ReachedFrom, Reaches] at he
  obtain rfl | (rfl | rfl | rfl) | rfl := he <;> simp [Expr.op]

/-- At two and three, with one direction of each kind. -/
def powerBuffers : Buffers Powered :=
  {Buffers.filled #[2] #[1] 1 1 0 with
    input := #[#[2,3]]
    forwardSeed := #[#[#[1,1]]]
    adjointSeed := #[#[#[1]]]}

theorem Definition.derivative_correct_power : Tape.Closed powerInputs #[.scalar cubeProduct] ∧
    (∀ m ∈ powerInputs, m.Sized) ∧ (∀ m ∈ #[Matrix.scalar cubeProduct], m.Sized) ∧
    (∀ e, ReachedFrom (Matrix.entries #[.scalar cubeProduct]) e → e.op ≠ .rem) ∧
    (∀ e ∈ Matrix.entries powerInputs, e.id < 5) ∧
    ∃ d g n', (ofExpressions powerInputs #[.scalar cubeProduct] (.standard 1)).run 5 = (.ok d, 6) ∧
      (d.derive (.derivative 1 1)).run 6 = (.ok g, n') ∧
      g.Answers #[#[2,3], #[1,1], #[1]] #[.scalar 24, .scalar 44, .column #[36,8]] := by
  have hin : ∀ m ∈ powerInputs, m.Sized := by
    simp [powerInputs, Matrix.Sized, Matrix.column, Pattern.column]
  have hout : ∀ m ∈ #[Matrix.scalar cubeProduct], m.Sized := by
    simp [Matrix.Sized, Matrix.scalar, Pattern.scalar]
  have hid : ∀ e ∈ Matrix.entries powerInputs, e.id < 5 := by
    simp [Matrix.entries, powerInputs, Matrix.column, Expr.id]
  refine ⟨cubeProduct_closed, hin, hout, cubeProduct_ne_rem, hid, ?_⟩
  obtain ⟨d, hd, hderive⟩ := derivative_correct cubeProduct_closed hin hout cubeProduct_ne_rem hid
    (.standard 1) 1 1
  obtain ⟨g, n', hrun, -, -, hanswers⟩ := hderive 6 (by decide)
  obtain ⟨sig, t, hd', -, hx⟩ := Expresses.exists_ofExpressions cubeProduct_closed hin hout (.standard 1) 5
  obtain rfl : d = .expressions sig t powerInputs :=
    Except.ok.inj (congrArg Prod.fst (hd.symm.trans hd'))
  have hins : sig.inputs = #[.column 2] := by simpa [powerInputs, Matrix.column] using hx.inputPatterns
  have houts : sig.outputs = #[.scalar] := by simpa [Matrix.scalar] using hx.outputPatterns
  have hshaped : powerBuffers.Shaped sig.inputSizes sig.outputSizes := by
    rw [hx.inputSizes, hx.outputSizes]
    constructor <;> simp [powerBuffers, Buffers.filled, Block.filled, Block.sizes, powerInputs, Matrix.nnz,
      Matrix.column, Matrix.scalar]
  have hone : 1 ≤ powerBuffers.forward ∧ 1 ≤ powerBuffers.adjoint := by decide
  let m : Machine Powered := ⟨⟨powerBuffers, 0, 0, 0⟩, [], .empty⟩
  obtain ⟨m', hm', hpoint⟩ := hanswers m hshaped hone.1 hone.2
  obtain ⟨stats, hm⟩ := hx.run_around ExactField.finite cubeProduct_ne_rem (m := m) hshaped hone.1 hone.2
  obtain rfl := congrArg Prod.snd (hm'.symm.trans hm)
  refine ⟨_, g, n', hd, hrun, ?_⟩
  have harguments : powerBuffers.arguments 1 1 = #[#[2,3], #[1,1], #[1]] := by decide +kernel
  have houtput : (Tape.evaluated powerInputs #[.scalar cubeProduct] 1 1 powerBuffers).output = #[#[24]] := by
    decide +kernel
  have hforward : (Tape.evaluated powerInputs #[.scalar cubeProduct] 1 1 powerBuffers).forwardSens =
      #[#[#[44]]] := by decide +kernel
  have hadjoint : (Tape.evaluated powerInputs #[.scalar cubeProduct] 1 1 powerBuffers).adjointSens =
      #[#[#[36,8]]] := by decide +kernel
  have hresults : sig.results 1 1 (Tape.evaluated powerInputs #[.scalar cubeProduct] 1 1 powerBuffers) =
      #[.scalar 24, .scalar 44, .column #[36,8]] := by
    rw [Signature.results, houtput, hforward, hadjoint, hins, houts]
    simp [Block.on, Matrix.scalar, Matrix.column]
  rw [← harguments, ← hresults]
  exact hpoint

end Powers

end Fluxion
