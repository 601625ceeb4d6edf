import Fluxion.Proofs.Function.Decided
import Fluxion.Proofs.Function.Drawn
import Fluxion.Proofs.Tape.Free
import Fluxion.Proofs.Tape.Renumbered

/-!
Jacobian blocks whatever the numbers of the nodes. The sweeps of a block make nodes and look at no numbers, so two
blocks that are made from different numbers on have the same values and the same outputs, apart from the numbers.
-/
set_option autoImplicit false

namespace Fluxion

variable {K : Type}

theorem Buffers.image_atSymbols (sig : Signature K) (inputs : Array (Matrix (Expr K))) (f a i : Nat) (v : K) :
    (Symbolic.atSymbols sig inputs f a (.const i v)).image Expr.bare =
      (Symbolic.atSymbols sig inputs f a (.const 0 v)).image Expr.bare := by
  simp [Symbolic.atSymbols, Buffers.image, Buffers.filled, Block.image_filled, Expr.bare]

namespace Symbolic

variable [Number K] (sig : Signature K) (t : Tape K) (inputs : Array (Matrix (Expr K)))

/-- As `buffers`, with nodes that have no numbers. -/
def bareBuffers (f a : Nat) : Id (Buffers (Expr K)) :=
  return (atSymbols sig inputs f a (.const 0 Number.zero)).image Expr.bare

/-- As `seedColors`, with nodes that have no numbers. -/
def bareColors (seeds : Array (Block (Expr K))) (slot : Nat) (p : Pattern) : Id (Array (Block (Expr K))) :=
  seeds.zipIdx.mapM fun (seed, k) => (p.row k).toList.foldlM (fun seed i => do
    return seed.set slot i (← Arithmetic.bare.lift Number.one)) seed

/-- As `replay`, with nodes that have no numbers. -/
def bareReplay (b : Buffers (Expr K)) (f a : Nat) : ExceptT Fault Id (Buffers (Expr K)) := do
  let r ← (t.evaluate .bare b f a).run
  match r with
  | .ok b => return b
  | .error s => throw s.fault

/-- As `blockValues`, with nodes that have no numbers. -/
def bareValues (j : Assemble.Job) : ExceptT Fault Id (Array (Expr K) × Block (Expr K)) := do
  let (f, a) := Assemble.sweep j.partition j.partition.colors
  let b ← bareBuffers sig inputs f a
  let fs ← bareColors b.forwardSeed j.iind j.partition.seeds
  let as ← bareColors b.adjointSeed j.oind j.partition.seeds
  let c ← bareReplay t (withSeeds b fs as) f a
  let zero ← (Arithmetic.bare.lift Number.zero : Id (Expr K))
  return (collected j c zero, c.output)

theorem repeats_seedColors (seeds : Array (Block (Expr K))) (slot : Nat) (p : Pattern) :
    Fresh.Repeats (Array.map (Block.image Expr.bare)) (seedColors seeds slot p)
      (bareColors (seeds.map (Block.image Expr.bare)) slot p) := by
  have hunits (seed : Block (Expr K)) (k : Nat) : Fresh.Repeats (Block.image Expr.bare) (units seed slot (p.row k))
      ((p.row k).toList.foldlM (fun seed i => do
        return seed.set slot i (← Arithmetic.bare.lift Number.one)) (seed.image Expr.bare)) := by
    rw [units, ← Array.foldlM_toList]
    exact .foldlM (fun s i n => Block.image_set _ _ _ _ _) (p.row k).toList seed
  rw [seedColors, bareColors, Array.zipIdx_map]
  exact .mapM (f := Prod.map (Block.image Expr.bare) id) (fun x => hunits x.1 x.2) _

theorem repeats_replay (b : Buffers (Expr K)) (f a : Nat) :
    Make.Repeats id (Buffers.image Expr.bare) (replay t b f a) (bareReplay t (b.image Expr.bare) f a) := by
  refine .bind (.lift (Tape.repeats_evaluate Expr.repeats_symbolic t b f a)) fun r => ?_
  cases r with
  | ok c => exact .pure rfl
  | error s => exact .throw rfl

/-- The values of a block and the outputs come to the same from every number on. -/
theorem repeats_blockValues (j : Assemble.Job) :
    Make.Repeats id (Prod.map (Array.map Expr.bare) (Block.image Expr.bare)) (blockValues sig t inputs j)
      (bareValues sig t inputs j) := by
  have hbuffers (f a : Nat) : Fresh.Repeats (Buffers.image Expr.bare) (buffers sig inputs f a)
      (bareBuffers sig inputs f a) := fun n => Buffers.image_atSymbols sig inputs f a n Number.zero
  refine .bind (.lift (hbuffers _ _)) fun b => ?_
  refine .bind (.lift (repeats_seedColors b.forwardSeed j.iind j.partition.seeds)) fun fs => ?_
  refine .bind (.lift (repeats_seedColors b.adjointSeed j.oind j.partition.seeds)) fun as => ?_
  refine .bind (repeats_replay t (withSeeds b fs as) _ _) fun c => ?_
  refine .bind (.lift (Expr.repeats_symbolic.lift Number.zero)) fun zero => .pure ?_
  rw [Prod.map, map_collected]
  rfl

end Symbolic

/-! ### Like outputs -/

/-- Entry by entry the same trees, but for the numbers of the nodes. -/
def Matrix.Alike (ms ms' : Array (Matrix (Expr K))) : Prop := Block.ofEntries Expr.bare ms = Block.ofEntries Expr.bare ms'

namespace Matrix.Alike

variable {ms ms' : Array (Matrix (Expr K))}

/-- They have the same values, whatever the symbols stand for. -/
theorem ofEntries [Number K] (h : Alike ms ms') (ρ : Symbol → K) :
    Block.ofEntries (Expr.value ρ) ms = Block.ofEntries (Expr.value ρ) ms' := by
  have hbare (ms : Array (Matrix (Expr K))) : Block.ofEntries (Expr.value ρ) ms =
      (Block.ofEntries Expr.bare ms).image (Expr.value ρ) := by
    rw [Block.image_ofEntries]
    simp only [Expr.value_bare]
  rw [hbare, hbare, h]

/-- A first matrix and the outputs of a function, both renumbered. -/
theorem withFirst {ps : Array Pattern} {outs outs' : Block (Expr K)} {first first' : Matrix (Expr K)}
    (hsize : outs.size = ps.size) (hsize' : outs'.size = ps.size)
    (hfirst : first.values.map Expr.bare = first'.values.map Expr.bare)
    (houts : outs.image Expr.bare = outs'.image Expr.bare) :
    Alike (#[first] ++ Symbolic.matrices ps outs) (#[first'] ++ Symbolic.matrices ps outs') := by
  have happend (m : Matrix (Expr K)) {b : Block (Expr K)} (hb : b.size = ps.size) :
      Block.ofEntries Expr.bare (#[m] ++ Symbolic.matrices ps b) = #[m.values.map Expr.bare] ++ b.image Expr.bare := by
    rw [← Block.ofEntries_on Expr.bare hb, Block.ofEntries, Array.map_append, Array.map_singleton]
    rfl
  rw [Alike, happend first hsize, happend first' hsize', hfirst, houts]

/-- They reach the same symbols. -/
theorem reached (h : Alike ms ms') {s : Symbol} : Expr.ReachedFrom (entries ms) (.symbol s) ↔
    Expr.ReachedFrom (entries ms') (.symbol s) := by
  have hbare (ms : Array (Matrix (Expr K))) : Expr.ReachedFrom (entries ms) (.symbol s) ↔
      ∃ v ∈ Block.ofEntries Expr.bare ms, ∃ e ∈ v, Expr.Reaches (.symbol s) e := by
    simp only [Expr.ReachedFrom, entries, Block.ofEntries, List.mem_flatMap, Array.mem_toList_iff, Array.mem_map]
    constructor
    · rintro ⟨r, ⟨m, hm, hr⟩, hs⟩
      exact ⟨_, ⟨m, hm, rfl⟩, r.bare, Array.mem_map_of_mem hr, Expr.reaches_symbol_bare.mpr hs⟩
    · rintro ⟨_, ⟨m, hm, rfl⟩, _, hv, hs⟩
      obtain ⟨r, hr, rfl⟩ := Array.mem_map.mp hv
      exact ⟨r, ⟨m, hm, hr⟩, Expr.reaches_symbol_bare.mp hs⟩
  rw [hbare, hbare, h]

end Matrix.Alike

section Functions

variable [Number K] {inputs outputs : Array (Matrix (Expr K))} {sig : Signature K} {t : Tape K}

theorem Tape.free_eq_empty_iff {live : Bool} {sorting : Sorting} (ht : ofGraph inputs outputs live sorting = .ok t)
    (hall : Expr.Coherent (Matrix.entries inputs ++ Matrix.entries outputs)) : t.free = #[] ↔
      ∀ s, Expr.ReachedFrom (Matrix.entries outputs) (.symbol s) → .symbol s ∈ Matrix.entries inputs := by
  obtain ⟨places, slot, hc⟩ := ofGraph_compiled (hall.mono fun e he => .root (List.mem_append_right _ he)) ht
  rw [Array.eq_empty_iff_forall_not_mem]
  simp only [(hc.frees hall).mem, not_and, not_not]

/-- What an evaluation tells of the outputs: their values, if there are no free symbols. -/
theorem Sorts.value_bareEffect (h : Sorts inputs outputs sig t) {x : Block K} (hx : x.sizes = sig.inputSizes) :
    (Definition.expressions sig t inputs).bareEffect.value x = if t.free.isEmpty then
      some (Block.ofEntries (Expr.value (Tape.valuation Number.zero inputs x)) outputs) else none := by
  change (if t.free.isEmpty then (t.recorded sig.outputSizes false x).map (·.1) else none) = _
  split
  · next hfree =>
    obtain ⟨places, slot, hc⟩ := Tape.ofGraph_compiled h.coherent h.tape
    have hnone : Tape.freeAmong places (Order.exprs (Order.sorted outputs sig.options.sorting).toList) = [] := by
      rw [← hc.free, Array.isEmpty_iff.mp hfree]
    have hcovers : t.Covers sig.outputSizes := hc.covers fun i n hn => by
      rw [h.outputSizes, Array.getElem?_map] at hn
      obtain ⟨m, hm, rfl⟩ := Option.map_eq_some_iff.mp hn
      exact ⟨m, hm, le_rfl⟩
    let b : Buffers K := {Buffers.filled sig.inputSizes sig.outputSizes 0 0 Number.zero with input := x}
    have hb : b.Shaped sig.inputSizes sig.outputSizes :=
      {Buffers.shaped_filled sig.inputSizes sig.outputSizes 0 0 Number.zero with input := hx}
    have hends := Tape.evaluate_recorded hc h.coherent hcovers (h.inputSizes ▸ hb) (Nat.zero_le _) (Nat.zero_le _)
    have hvalues := Tape.evaluate_observed (m := Id) hc h.coherent hnone (hb.output.trans h.outputSizes)
      (Tape.supplies_valuation hc hnone (hx.trans h.inputSizes) Number.zero) fun _ _ _ => pure ()
    have hrun : (t.evaluate .numeric b 0 0).run =
        .ok {b with output := Block.ofEntries (Expr.value (Tape.valuation Number.zero inputs x)) outputs} :=
      congrArg ExceptT.run hvalues
    rw [hrun] at hends
    have hbool : (decide (0 < 0) || decide (0 < 0)) = false := rfl
    rw [hbool] at hends
    cases hr : t.recorded sig.outputSizes false x with
    | none =>
      rw [hr] at hends
      obtain ⟨s, hs⟩ := hends
      cases hs
    | some r =>
      rw [hr] at hends
      have hy := congrArg Buffers.output (Except.ok.inj hends.2)
      exact congrArg some hy.symm
  · rfl

theorem Effect.passes_congr {s s' : Signature K} (h : s'.options = s.options) : passes s' = passes s := by
  funext y
  rw [passes, passes, h]

/-- The same options and inputs, and the same outputs where there are some. -/
structure Definition.SameValues (d d' : Definition K) : Prop where
  options : d'.sig.options = d.sig.options
  inputs : d'.sig.inputs = d.sig.inputs
  value : ∀ x, x.sizes = d.sig.inputSizes → d'.effect.value x = d.effect.value x

/-- From like outputs over the same inputs a function is made or refused alike, and its evaluations tell the same. -/
theorem Matrix.Alike.exists_ofExpressions {outputs' : Array (Matrix (Expr K))} (h : Alike outputs outputs')
    (hin : ∀ m ∈ inputs, m.Sized) (hout : ∀ m ∈ outputs, m.Sized) (hout' : ∀ m ∈ outputs', m.Sized)
    (hall : Expr.Coherent (entries inputs ++ entries outputs)) (hall' : Expr.Coherent (entries inputs ++ entries outputs'))
    {o : Options K} {uid : Nat} {d : Definition K} (hd : ((Definition.ofExpressions inputs outputs o).run uid).1 = .ok d)
    (uid' : Nat) : ∃ d', ((Definition.ofExpressions inputs outputs' o).run uid').1 = .ok d' ∧ d.SameValues d' ∧
      d.sig.outputs = outputs.map (·.pattern) ∧ d'.sig.outputs = outputs'.map (·.pattern) := by
  have hright {outputs : Array (Matrix (Expr K))} (hall : Expr.Coherent (entries inputs ++ entries outputs)) :
      Expr.Coherent (entries outputs) := hall.mono fun e he => .root (List.mem_append_right _ he)
  obtain ⟨sig, t, rfl, rfl, hs⟩ := Sorts.of_run (hright hall) hin hout (Prod.ext hd rfl)
  obtain ⟨places, slot, hc⟩ := Tape.ofGraph_compiled hs.coherent hs.tape
  obtain ⟨t', ht'⟩ := Tape.exists_ofGraph hc.placed.distinct outputs' sig.options.liveVariables sig.options.sorting
  have hfree : t.free = #[] ∨ sig.options.allowFree = true := by
    by_contra hfree
    rw [run_ofExpressions_unresolved hs.tape hfree] at hd
    cases hd
  have hsame : t'.free = #[] ↔ t.free = #[] := by
    rw [Tape.free_eq_empty_iff ht' hall', Tape.free_eq_empty_iff hs.tape hall]
    simp only [h.reached]
  obtain ⟨sig', hrun, ho, hs'⟩ := run_ofExpressions (hright hall') hin hout' sig.options uid' ht'
    (hfree.imp_left hsame.mpr)
  refine ⟨_, congrArg Prod.fst hrun, ⟨ho, hs'.inputPatterns.trans hs.inputPatterns.symm, fun x hx => ?_⟩,
    hs.outputPatterns, hs'.outputPatterns⟩
  have hx' : x.sizes = sig'.inputSizes := by rw [hs'.inputSizes, ← hs.inputSizes]; exact hx
  have hempty : t'.free.isEmpty = t.free.isEmpty := by rw [Bool.eq_iff_iff, Array.isEmpty_iff, Array.isEmpty_iff, hsame]
  have hvalue : (Definition.expressions sig' t' inputs).bareEffect.value x =
      (Definition.expressions sig t inputs).bareEffect.value x := by
    rw [hs'.value_bareEffect hx', hs.value_bareEffect hx, h.ofEntries, hempty]
  change ((Effect.skipping sig' _).value x).filter (Effect.passes sig') =
    ((Effect.skipping sig _).value x).filter (Effect.passes sig)
  rw [Effect.value_skipping, Effect.value_skipping, hvalue, Effect.passes_congr ho]

end Functions

end Fluxion
