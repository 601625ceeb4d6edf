import Fluxion.Proofs.Function.Gradient
import Fluxion.Proofs.Function.RecoverMap
import Fluxion.Proofs.Function.Sweeps

/-!
Symbolic Jacobians. The seeds of the colors have the values of unit seeds, so the replay makes sensitivities
with the values of numeric sweeps, and recovery puts them where it would put these values.
-/
set_option autoImplicit false

namespace Fluxion

open Fluxion.Expr

variable {K R : Type}

theorem Matrix.map_id [CommRing K] (m : Matrix (Expr K)) : m.map (Expr.map (RingHom.id K)) = m := by
  have hvalues : m.values.map (Expr.map (RingHom.id K)) = m.values.map fun e => e :=
    Array.map_congr_left fun e _ => e.map_eq_self fun _ => rfl
  rw [Array.map_id'] at hvalues
  exact congrArg (Matrix.mk m.pattern) hvalues

@[simp] theorem Matrix.changed_id [CommRing K] (ms : Array (Matrix (Expr K))) :
    Matrix.changed (RingHom.id K) ms = ms :=
  (Array.map_congr_left fun m _ => m.map_id).trans (Array.map_id' ms)

theorem Block.foldl_set {T : Type} (slot : Nat) (x : T) (members : List Nat) (b : Block T) :
    members.foldl (fun b i => b.set slot i x) b =
      b.modify slot fun v => members.foldl (fun v i => v.setIfInBounds i x) v := by
  induction members generalizing b with
  | nil =>
    refine Array.ext_getElem? fun i => ?_
    simp only [List.foldl_nil, Array.getElem?_modify]
    split <;> simp
  | cons k members ih =>
    refine Array.ext_getElem? fun i => ?_
    rw [List.foldl_cons, ih]
    simp only [Block.set, Array.getElem?_modify, List.foldl_cons]
    split <;> simp [Option.map_map, Function.comp_def]

theorem Make.lift_ok {α β : Type} {r : Except Fault α} {a : α} (h : r = .ok a) (next : α → Make β) :
    ((liftM r : Make α) >>= next) = next a := by
  subst h
  rfl

namespace Symbolic

section Seeds

variable [CommRing K] [Number K] [ExactRing K] [CommRing R] [Number R] [ExactRing R] {ok : Op → Prop}
  {symbols roots : List (Expr K)} {f : K →+* R} {ρ : Symbol → R}

omit [ExactRing R] in
theorem yields_units {seed : Block (Expr K)} (hseed : seed.Held roots) (slot : Nat) (members : Array Nat) :
    Yields ok symbols roots (units seed slot members) fun roots' s => s.Held roots' ∧
      s.image (meaning f ρ) = members.toList.foldl (fun s i => s.set slot i 1) (seed.image (meaning f ρ)) := by
  rw [units, ← Array.foldlM_toList]
  generalize members.toList = members
  induction members generalizing roots seed with
  | nil => exact .pure ⟨hseed, rfl⟩
  | cons i members ih =>
    rw [List.foldlM_cons]
    have hset : Yields ok symbols roots (do return seed.set slot i (← newConst Number.one))
        fun roots' s => s.Held roots' ∧
          s.image (meaning f ρ) = (seed.image (meaning f ρ)).set slot i 1 := by
      refine .bind (yields_one f ρ) fun roots' one hr hone => .pure ⟨(hseed.subset hr).set hone.1 slot i, ?_⟩
      rw [Block.image_set, hone.2]
    refine .bind hset fun roots' s hr ⟨hs, himage⟩ => (ih hs).mono fun roots'' s' _ ⟨hs', h⟩ => ⟨hs', ?_⟩
    rw [h, himage, List.foldl_cons]

/-- Unit seeds for as many colors as there are directions. -/
theorem yields_seedColors {z : Expr K} (hz : ReachedFrom roots z) (hzero : z.meaning f ρ = 0)
    (sizes : Array Nat) (slot n : Nat) (p : Pattern) :
    Yields ok symbols roots (seedColors (.replicate n (.filled sizes z)) slot p) fun roots' bs =>
      (∀ b ∈ bs, b.Held roots') ∧ bs.map (Block.image (meaning f ρ)) =
        (Array.range n).map fun k => (Assemble.unitSeed sizes slot (p.row k) : Block R) := by
  have hmap : Yields ok symbols roots (seedColors (.replicate n (.filled sizes z)) slot p) fun roots' bs =>
      (∀ b ∈ bs, b.Held roots') ∧ bs.map (Block.image (meaning f ρ)) =
        ((Array.replicate n (Block.filled sizes z)).zipIdx).map fun x =>
          (Assemble.unitSeed sizes slot (p.row x.2) : Block R) := by
    refine yields_mapM (fun _ _ _ hr hb => hb.subset hr) fun roots' x hr hmem => ?_
    obtain ⟨seed, k⟩ := x
    have hseed : seed = Block.filled sizes z := by
      have hget := (Array.mem_zipIdx hmem).2.2
      simpa using hget
    subst hseed
    refine (yields_units (f := f) (ρ := ρ) (Block.held_filled (hz.subset hr) sizes) slot (p.row k)).mono
      fun roots'' s _ hs => ⟨hs.1, ?_⟩
    rw [hs.2, Block.image_filled, hzero, Block.foldl_set]
    simp only [Assemble.unitSeed, Number.zero_eq, Number.one_eq, Array.foldl_toList]
  refine hmap.mono fun roots' bs _ hb => ⟨hb.1, hb.2.trans ?_⟩
  refine Array.ext_getElem? fun k => ?_
  by_cases hk : k < n <;> simp [hk]

end Seeds

section Colors

variable [CommRing K] [Number K] [ExactRing K] {ok : Op → Prop} {roots : List (Expr K)}
  {inputs outputs : Array (Matrix (Expr K))} {sig : Signature K} {t : Tape K} {iind oind : Nat}
  {p first : Pattern} {side : Partition} {symmetric compact : Bool}

/-- Buffers with other seeds. -/
def withSeeds (b : Buffers (Expr K)) (fs as : Array (Block (Expr K))) : Buffers (Expr K) :=
  {b with forwardSeed := fs, adjointSeed := as}

/-- Seeds for the colors, with the values of unit seeds. -/
structure Colored (sig : Signature K) (side : Partition) (iind oind : Nat) (g : Expr K → K)
    (roots : List (Expr K)) (fs as : Array (Block (Expr K))) : Prop where
  heldForward : ∀ b ∈ fs, b.Held roots
  heldAdjoint : ∀ b ∈ as, b.Held roots
  forward : fs.map (Block.image g) = (Array.range (Assemble.sweep side side.colors).1).map fun k =>
    (Assemble.unitSeed sig.inputSizes iind (side.seeds.row k) : Block K)
  adjoint : as.map (Block.image g) = (Array.range (Assemble.sweep side side.colors).2).map fun k =>
    (Assemble.unitSeed sig.outputSizes oind (side.seeds.row k) : Block K)

omit [CommRing K] [ExactRing K] in
theorem Colored.sizes {g : Expr K → K} {fs as : Array (Block (Expr K))}
    (h : Colored sig side iind oind g roots fs as) :
    fs.size = (Assemble.sweep side side.colors).1 ∧ as.size = (Assemble.sweep side side.colors).2 := by
  have hfs := congrArg Array.size h.forward
  have has := congrArg Array.size h.adjoint
  simp only [Array.size_map, Array.size_range] at hfs has
  exact ⟨hfs, has⟩

omit [CommRing K] [ExactRing K] in
theorem Colored.shaped {g : Expr K → K} {b : Buffers (Expr K)} {fs as : Array (Block (Expr K))}
    (h : Colored sig side iind oind g roots fs as) (hb : b.Shaped sig.inputSizes sig.outputSizes)
    (hf : b.forwardSens.size = (Assemble.sweep side side.colors).1)
    (ha : b.adjointSens.size = (Assemble.sweep side side.colors).2) :
    (withSeeds b fs as).Shaped sig.inputSizes sig.outputSizes := by
  have hsizes {bs : Array (Block (Expr K))} {ns : Array Nat} {n : Nat} {seed : Nat → Block K}
      (hbs : bs.map (Block.image g) = (Array.range n).map seed) (hseed : ∀ k, (seed k).sizes = ns) :
      ∀ x ∈ bs, x.sizes = ns := by
    intro x hx
    have hmem := Array.mem_map_of_mem (f := Block.image g) hx
    rw [hbs] at hmem
    obtain ⟨k, -, hk⟩ := Array.mem_map.mp hmem
    rw [← Block.sizes_image g, ← hk, hseed]
  exact ⟨hb.input, hb.output, hsizes h.forward fun k => Assemble.sizes_unitSeed _ _ _, hb.forwardSens,
    hsizes h.adjoint fun k => Assemble.sizes_unitSeed _ _ _, hb.adjointSens, hf.trans h.sizes.1.symm,
    ha.trans h.sizes.2.symm⟩

omit [CommRing K] [Number K] [ExactRing K] in
theorem sens_image {T U : Type} (g : T → U) (j : Assemble.Job) (b : Buffers T) (k : Nat) :
    j.sens (b.image g) k = (j.sens b k).map g := by
  have hblock (bs : Array (Block T)) (i : Nat) :
      (((bs.map (Block.image g)).getD k #[]).getD i #[] : Array U) = ((bs.getD k #[]).getD i #[]).map g := by
    rw [Tape.getD_image, Block.getD_image]
  obtain ⟨iind, oind, p, t, map, side, symmetric⟩ := j
  cases side with
  | forward s => exact hblock b.forwardSens oind
  | adjoint s => exact hblock b.adjointSens iind

omit [ExactRing K] in
/-- With the seeds of all colors, each direction has the sweep of its color. -/
theorem sens_evaluatedAt {ρ : Symbol → K} {b : Buffers K} {k : Nat}
    (hforward : b.forwardSeed = (Array.range (Assemble.sweep side side.colors).1).map fun k =>
      Assemble.unitSeed (inputs.map Matrix.nnz) iind (side.seeds.row k))
    (hadjoint : b.adjointSeed = (Array.range (Assemble.sweep side side.colors).2).map fun k =>
      Assemble.unitSeed (outputs.map Matrix.nnz) oind (side.seeds.row k))
    (hf : b.forwardSens.size = (Assemble.sweep side side.colors).1)
    (ha : b.adjointSens.size = (Assemble.sweep side side.colors).2) (hk : k < side.colors) :
    (Assemble.Job.of iind oind p side symmetric).sens (Tape.evaluatedAt inputs outputs ρ
      (Assemble.sweep side side.colors).1 (Assemble.sweep side side.colors).2 b) k =
        Assemble.sweepOf inputs outputs ρ side iind oind k := by
  cases side with
  | forward s =>
    have hlt : k < (Assemble.sweep (.forward s) (Partition.colors (.forward s))).1 := hk
    change ((Buffers.firstBlocks _ _ b.forwardSens).getD k #[]).getD oind #[] = _
    rw [Buffers.getD_firstBlocks hlt (hf ▸ hlt), hforward]
    simp [Array.getD_eq_getD_getElem?, hlt, Assemble.sweepOf, Partition.seeds]
  | adjoint s =>
    have hlt : k < (Assemble.sweep (.adjoint s) (Partition.colors (.adjoint s))).2 := hk
    change ((Buffers.firstBlocks _ _ b.adjointSens).getD k #[]).getD iind #[] = _
    rw [Buffers.getD_firstBlocks hlt (ha ▸ hlt), hadjoint]
    simp [Array.getD_eq_getD_getElem?, hlt, Assemble.sweepOf, Partition.seeds]

theorem returns_sweeps (h : Expresses inputs outputs sig t) (hf : Reading ok (RingHom.id K))
    (hop : ∀ e, ReachedFrom (Matrix.entries outputs) e → e.op.isStructural = false → ok e.op)
    (hrem : ¬ok .rem) (hd : ∀ ρ op, op.isStructural = false → ok op →
      Tape.Derives ok (Matrix.entries inputs) (RingHom.id K) ρ op)
    (hroots : Present roots inputs) (iind oind : Nat) (p : Pattern) (side : Partition) (symmetric : Bool) :
    Returns ok (Matrix.entries inputs) roots (do
      let b ← buffers sig inputs (Assemble.sweep side side.colors).1 (Assemble.sweep side side.colors).2
      let fs ← seedColors b.forwardSeed iind side.seeds
      let as ← seedColors b.adjointSeed oind side.seeds
      replay t (withSeeds b fs as) (Assemble.sweep side side.colors).1
        (Assemble.sweep side side.colors).2 : Make (Buffers (Expr K))) fun roots' c => c.Held roots' ∧
        ∀ ρ, c.output.image (Expr.value ρ) = Block.ofEntries (Expr.value ρ) outputs ∧
          ∀ k, k < side.colors →
            ((Assemble.Job.of iind oind p side symmetric).sens c k).map (Expr.value ρ) =
              Assemble.sweepOf inputs outputs ρ side iind oind k := by
  -- One run for all points: the buffers do not depend on the point.
  refine Returns.all fun ρ => ?_
  have hid : meaning (RingHom.id K) ρ = Expr.value ρ := funext (Expr.meaning_id ρ)
  refine .bind (.lift (yields_buffers sig inputs _ _)) fun roots₁ b h₁ hb => ?_
  obtain ⟨i, hz, rfl⟩ := hb
  have hzero : meaning (RingHom.id K) ρ (const i Number.zero) = 0 := by simp
  refine .bind (.lift (yields_seedColors hz hzero _ iind _ side.seeds)) fun roots₂ fs h₂ hseeds => ?_
  obtain ⟨hfs, hforward⟩ := hseeds
  refine .bind (.lift (yields_seedColors (hz.subset h₂) hzero _ oind _ side.seeds))
    fun roots₃ as h₃ hseeds => ?_
  obtain ⟨has, hadjoint⟩ := hseeds
  rw [hid] at hforward hadjoint
  have hcolored : Colored sig side iind oind (Expr.value ρ) roots₃ fs as :=
    ⟨fun b hb => (hfs b hb).subset h₃, has, hforward, hadjoint⟩
  have hshape := hcolored.shaped (shaped_atSymbols h.inputSizes (Assemble.sweep side side.colors).1
    (Assemble.sweep side side.colors).2 (const i Number.zero)) (by simp [atSymbols, Buffers.filled])
    (by simp [atSymbols, Buffers.filled])
  have hatSymbols := held_atSymbols sig (((hroots.subset h₁).subset h₂).subset h₃)
    ((hz.subset h₂).subset h₃) (Assemble.sweep side side.colors).1 (Assemble.sweep side side.colors).2
  have hheld : (withSeeds (atSymbols sig inputs (Assemble.sweep side side.colors).1
      (Assemble.sweep side side.colors).2 (const i Number.zero)) fs as).Held roots₃ :=
    ⟨hatSymbols.input, hatSymbols.output, hcolored.heldForward, hatSymbols.forwardSens, hcolored.heldAdjoint,
      hatSymbols.adjointSens⟩
  refine (h.returns_replay (ρ := ρ) hf hop hrem (hd ρ) hheld hshape rfl hcolored.sizes.1.ge
    hcolored.sizes.2.ge).mono fun roots₄ c _ hc => ⟨hc.1, ?_, fun k hk => ?_⟩
  · have houtput := congrArg Buffers.output hc.2
    rw [hid, Matrix.changed_id, Matrix.changed_id] at houtput
    exact houtput
  · have himage := hc.2
    rw [hid, Matrix.changed_id, Matrix.changed_id] at himage
    rw [← sens_image, himage]
    refine sens_evaluatedAt ?_ ?_ (b := (withSeeds _ fs as).image (Expr.value ρ)) ?_ ?_ hk
    · rw [← h.inputSizes]
      exact hforward
    · rw [← h.outputSizes]
      exact hadjoint
    · simp [Buffers.image, withSeeds, atSymbols, Buffers.filled]
    · simp [Buffers.image, withSeeds, atSymbols, Buffers.filled]

/-- The entries that all colors give. -/
def collected {T : Type} (j : Assemble.Job) (b : Buffers T) (z : T) : Array T :=
  ((List.range j.partition.colors).foldl (fun s k => j.recover k (j.sens b k) s)
    (.replicate j.pattern.nrow 0, .replicate j.pattern.nnz z)).2

omit [CommRing K] [Number K] [ExactRing K] in
/-- Recovery looks at places only. -/
theorem map_collected {T U : Type} (g : T → U) (j : Assemble.Job) (b : Buffers T) (z : T) :
    (collected j b z).map g = collected j (b.image g) (g z) := by
  have hmap := j.foldl_recover_map g (fun k => j.sens b k) (List.range j.partition.colors)
    (.replicate j.pattern.nrow 0, .replicate j.pattern.nnz z)
  rw [Array.map_replicate] at hmap
  simp only [collected, sens_image]
  exact (congrArg Prod.snd hmap).symm

omit [CommRing K] [Number K] [ExactRing K] in
theorem held_collected {j : Assemble.Job} {b : Buffers (Expr K)} (hb : b.Held roots) {z : Expr K}
    (hz : ReachedFrom roots z) : ∀ x ∈ collected j b z, ReachedFrom roots x := by
  intro x hx
  obtain hx | ⟨k, -, hx⟩ := j.mem_foldl_recover hx
  · rwa [(Array.mem_replicate.mp hx).2]
  · obtain ⟨iind, oind, p, t, map, side, symmetric⟩ := j
    cases side with
    | forward s => exact (Tape.held_getD hb.forwardSens k).getD oind x hx
    | adjoint s => exact (Tape.held_getD hb.adjointSens k).getD iind x hx

omit [ExactRing K] in
/-- The values of the recovered entries are recovered from the values. -/
theorem recover_sweeps {ρ : Symbol → K} {c : Buffers (Expr K)} {z : Expr K} (hz : z.value ρ = 0)
    (hsens : ∀ k, k < side.colors →
      ((Assemble.Job.of iind oind p side symmetric).sens c k).map (Expr.value ρ) =
        Assemble.sweepOf inputs outputs ρ side iind oind k) :
    (collected (.of iind oind p side symmetric) c z).map (Expr.value ρ) =
      recovered inputs outputs ρ p side iind oind symmetric := by
  rw [map_collected, hz]
  refine congrArg Prod.snd (List.foldl_ext _ _ _ fun s k hk => ?_)
  rw [sens_image, hsens k (List.mem_range.mp hk)]

omit [CommRing K] [ExactRing K] in
theorem jacobian_eq (hp : (Definition.expressions sig t inputs).jacSparsity iind oind true symmetric = .ok p)
    (hside : (Definition.expressions sig t inputs).partition iind oind true symmetric = .ok side)
    (hfirst : (if compact then pure p else
      (Definition.expressions sig t inputs).enlarge p iind oind) = .ok first) (o : Options K) :
    jacobian (.expressions sig t inputs) t inputs iind oind compact symmetric o = (do
      let c ← (do
        let b ← buffers sig inputs (Assemble.sweep side side.colors).1 (Assemble.sweep side side.colors).2
        let fs ← seedColors b.forwardSeed iind side.seeds
        let as ← seedColors b.adjointSeed oind side.seeds
        replay t (withSeeds b fs as) (Assemble.sweep side side.colors).1
          (Assemble.sweep side side.colors).2 : Make (Buffers (Expr K)))
      let zero ← newConst Number.zero
      Definition.ofExpressions inputs (#[⟨first, collected (.of iind oind p side symmetric) c zero⟩] ++
        matrices sig.outputs c.output) o) := by
  rw [jacobian, Make.lift_ok hp, Make.lift_ok hside]
  -- The patterns are known, so only the sweeps, a zero and the tape are left.
  cases compact with
  | true =>
    obtain rfl : p = first := Except.ok.inj hfirst
    cases side <;> rfl
  | false =>
    have hlarge : (Definition.expressions sig t inputs).enlarge p iind oind = .ok first := hfirst
    rw [hlarge]
    cases side <;> rfl

/-- The block is made, and the outputs are made again. -/
theorem returns_jacobian (h : Expresses inputs outputs sig t) (hf : Reading ok (RingHom.id K))
    (hop : ∀ e, ReachedFrom (Matrix.entries outputs) e → e.op.isStructural = false → ok e.op)
    (hrem : ¬ok .rem) (hd : ∀ ρ op, op.isStructural = false → ok op →
      Tape.Derives ok (Matrix.entries inputs) (RingHom.id K) ρ op)
    (hin : ∀ m ∈ inputs, m.Sized) (hroots : Present roots inputs)
    (hp : (Definition.expressions sig t inputs).jacSparsity iind oind true symmetric = .ok p)
    (hside : (Definition.expressions sig t inputs).partition iind oind true symmetric = .ok side)
    (hfirst : (if compact then pure p else
      (Definition.expressions sig t inputs).enlarge p iind oind) = .ok first)
    {V : (Symbol → K) → Array K} (hV : ∀ ρ, recovered inputs outputs ρ p side iind oind symmetric = V ρ)
    (hsize : ∀ ρ, (V ρ).size = first.nnz) (o : Options K) :
    Returns ok (Matrix.entries inputs) roots
      (jacobian (.expressions sig t inputs) t inputs iind oind compact symmetric o) fun _ g =>
        ∃ sig' t' values outs, g = .expressions sig' t' inputs ∧ sig'.options = o ∧
          Expresses inputs (#[⟨first,values⟩] ++ outs) sig' t' ∧
          (∀ e, ReachedFrom (Matrix.entries (#[⟨first,values⟩] ++ outs)) e → e.op.isStructural = false →
            ok e.op) ∧
          Again Expr.value outputs outs ∧ ∀ ρ, values.map (Expr.value ρ) = V ρ := by
  rw [jacobian_eq hp hside hfirst]
  refine .bind (returns_sweeps h hf hop hrem hd hroots iind oind p side symmetric)
    fun roots₁ c h₁ hsweeps => ?_
  obtain ⟨hc, hall⟩ := hsweeps
  refine .bind (.lift (yields_const Number.zero)) fun roots₂ zero h₂ hzero => ?_
  obtain ⟨hz, i, hi⟩ := hzero
  have hvalues (ρ : Symbol → K) := (recover_sweeps (z := zero) (by rw [hi]; exact Number.zero_eq)
    (hall ρ).2).trans (hV ρ)
  have hheld : ∀ x ∈ collected (.of iind oind p side symmetric) c zero, ReachedFrom roots₂ x :=
    held_collected (Tape.held_subset hc h₂) hz
  generalize collected (.of iind oind p side symmetric) c zero = values at hvalues hheld ⊢
  have hagain := again_matrices h (g := Expr.value) fun ρ => (hall ρ).1
  have hblock : Present roots₂ #[⟨first,values⟩] := by
    intro e he
    simp only [Matrix.entries, List.flatMap_cons, List.flatMap_nil, List.append_nil,
      Array.mem_toList_iff] at he
    exact hheld e he
  refine (returns_ofExpressions h.closed.distinct hin ?_ (present_append hblock
    (present_matrices (hc.output.subset h₂) _)) o).mono fun _ g _ hg => ?_
  · intro m' hm'
    obtain hm' | hm' := Array.mem_append.mp hm'
    · obtain rfl := Array.mem_singleton.mp hm'
      have hs := congrArg Array.size (hvalues 0)
      rw [Array.size_map] at hs
      exact hs.trans (hsize 0)
    · exact hagain.sized m' hm'
  · obtain ⟨sig', t', hg, ho, hx, hops⟩ := hg
    exact ⟨sig', t', _, _, hg, ho, hx, hops, hagain, hvalues⟩

end Colors

end Symbolic

end Fluxion
