import Fluxion.Proofs.Function.Replay

/-!
The gradient function. Its first output has the derivatives of a scalar output by the entries of an input,
in every reading of the constants, and the outputs of the function follow with the values that they had.
-/
set_option autoImplicit false

namespace Fluxion

open Fluxion.Expr

variable {K R : Type}

theorem Block.image_filled {T U : Type} (f : T → U) (ns : Array Nat) (x : T) :
    (Block.filled ns x).image f = Block.filled ns (f x) := by
  simp [Block.image, Block.filled, Function.comp_def]

theorem Block.getD_image {T U : Type} (f : T → U) (b : Block T) (i : Nat) :
    (b.image f).getD i #[] = (b.getD i #[]).map f := by
  cases hi : b[i]? <;> simp [Array.getD_eq_getD_getElem?, hi, Block.image]

theorem Block.Held.getD {roots : List (Expr K)} {b : Block (Expr K)} (h : b.Held roots) (i : Nat) :
    ∀ x ∈ b.getD i #[], ReachedFrom roots x := by
  intro x hx
  rw [Array.getD_eq_getD_getElem?] at hx
  cases hv : b[i]? with
  | none => simp [hv] at hx
  | some v =>
    rw [hv, Option.getD_some] at hx
    exact h v (Array.mem_of_getElem? hv) x hx

theorem Block.held_filled {roots : List (Expr K)} {x : Expr K} (hx : ReachedFrom roots x) (ns : Array Nat) :
    (Block.filled ns x).Held roots := by
  intro v hv y hy
  obtain ⟨n, -, rfl⟩ := Array.mem_map.mp hv
  rwa [(Array.mem_replicate.mp hy).2]

/-- Matrices with the given patterns. -/
def Block.on {T : Type} (ps : Array Pattern) (b : Block T) : Array (Matrix T) := ps.zipWith Matrix.mk b

section On

variable {T U : Type} {ps : Array Pattern} {b : Block T}

theorem Block.map_on (f : T → U) (ps : Array Pattern) (b : Block T) :
    (b.on ps).map (Matrix.map f) = (b.image f).on ps := by
  simp [Block.on, Block.image, Matrix.map, Array.map_zipWith, Array.zipWith_map_right]

theorem Block.pattern_on (h : b.size = ps.size) : (b.on ps).map (·.pattern) = ps := by
  refine Array.ext_getElem? fun i => ?_
  by_cases hi : i < ps.size
  · simp [Block.on, hi, h]
  · simp [Block.on, hi]

theorem Block.sized_on (h : b.sizes = ps.map Pattern.nnz) : ∀ m ∈ b.on ps, m.Sized := by
  intro m hm
  obtain ⟨i, hi⟩ := Array.mem_iff_getElem?.mp hm
  simp only [Block.on, Array.getElem?_zipWith] at hi
  split at hi
  · next p v hp hv =>
    obtain rfl := Option.some.inj hi
    have hget := congrArg (fun a : Array Nat => a[i]?) h
    simpa [Block.sizes, hp, hv, Matrix.Sized] using hget
  · cases hi

theorem Block.ofEntries_on (f : T → U) (h : b.size = ps.size) : Block.ofEntries f (b.on ps) = b.image f := by
  refine Array.ext_getElem? fun i => ?_
  by_cases hi : i < ps.size <;> simp [Block.on, Block.ofEntries, Block.image, hi, h]

end On

namespace Symbolic

/-- The entries of the inputs are there. -/
def Present (roots : List (Expr K)) (ms : Array (Matrix (Expr K))) : Prop :=
  ∀ e ∈ Matrix.entries ms, ReachedFrom roots e

theorem Present.subset {roots roots' : List (Expr K)} {ms : Array (Matrix (Expr K))} (h : Present roots ms)
    (hr : roots ⊆ roots') : Present roots' ms :=
  fun e he => (h e he).subset hr

/-- Buffers at the input symbols. -/
def atSymbols (sig : Signature K) (inputs : Array (Matrix (Expr K))) (n m : Nat) (z : Expr K) :
    Buffers (Expr K) :=
  {Buffers.filled sig.inputSizes sig.outputSizes n m z with input := inputs.map (·.values)}

theorem held_atSymbols (sig : Signature K) {inputs : Array (Matrix (Expr K))} {roots : List (Expr K)}
    {z : Expr K} (h : Present roots inputs) (hz : ReachedFrom roots z) (n m : Nat) :
    (atSymbols sig inputs n m z).Held roots := by
  have hall (ns : Array Nat) (n : Nat) : ∀ y ∈ Array.replicate n (Block.filled ns z), y.Held roots := by
    intro y hy
    rw [(Array.mem_replicate.mp hy).2]
    exact Block.held_filled hz ns
  refine ⟨fun v hv x hx => ?_, Block.held_filled hz _, hall _ _, hall _ _, hall _ _, hall _ _⟩
  obtain ⟨m, hm, rfl⟩ := Array.mem_map.mp hv
  exact h x (List.mem_flatMap.mpr ⟨m, Array.mem_toList_iff.mpr hm, Array.mem_toList_iff.mpr hx⟩)

theorem shaped_atSymbols {inputs : Array (Matrix (Expr K))} {sig : Signature K}
    (h : sig.inputSizes = inputs.map Matrix.nnz) (n m : Nat) (z : Expr K) :
    (atSymbols sig inputs n m z).Shaped sig.inputSizes sig.outputSizes := by
  have hfilled := Buffers.shaped_filled sig.inputSizes sig.outputSizes n m z
  refine ⟨?_, hfilled.output, hfilled.forwardSeed, hfilled.forwardSens, hfilled.adjointSeed,
    hfilled.adjointSens, hfilled.forward, hfilled.adjoint⟩
  rw [h]
  simp [atSymbols, Block.sizes, Matrix.nnz, Function.comp_def]

variable [Number K] {ok : Op → Prop} {symbols roots : List (Expr K)}

theorem yields_buffers (sig : Signature K) (inputs : Array (Matrix (Expr K))) (n m : Nat) :
    Yields ok symbols roots (buffers sig inputs n m) fun roots' b => ∃ i,
      ReachedFrom roots' (.const i Number.zero) ∧ b = atSymbols sig inputs n m (.const i Number.zero) := by
  refine .bind (yields_const Number.zero) fun roots' z _ ⟨hz, i, hi⟩ => ?_
  subst hi
  exact .pure ⟨i, hz, rfl⟩

/-- Outputs over the input symbols that are there make a function. -/
theorem returns_ofExpressions {inputs outputs : Array (Matrix (Expr K))} (hd : DistinctSymbols inputs)
    (hin : ∀ m ∈ inputs, m.Sized) (hout : ∀ m ∈ outputs, m.Sized) (h : Present roots outputs)
    (o : Options K) :
    Returns ok (Matrix.entries inputs) roots (Definition.ofExpressions inputs outputs o)
      fun _ d => ∃ sig t, d = .expressions sig t inputs ∧ sig.options = o ∧
        Expresses inputs outputs sig t ∧
        ∀ e, ReachedFrom (Matrix.entries outputs) e → e.op.isStructural = false → ok e.op := by
  intro n hn
  have hreach (e : Expr K) (he : ReachedFrom (Matrix.entries outputs) e) : ReachedFrom roots e := by
    obtain ⟨r, hr, he⟩ := he
    exact .trans he (h r hr)
  have hclosed : Tape.Closed inputs outputs :=
    ⟨⟨fun e he => hn.proper e (hreach e he), fun d e hd he => hn.unique d e (hreach d hd) (hreach e he)⟩,
      hd, fun s hs => hn.symbol s (hreach _ hs)⟩
  obtain ⟨sig, t, hrun, ho, hx⟩ := Expresses.exists_ofExpressions hclosed hin hout o n
  refine ⟨roots, List.Subset.refl _, ?_, _, congrArg Prod.fst hrun, sig, t, rfl, ho, hx,
    fun e he => hn.op e (hreach e he)⟩
  change Stock ok _ ((Definition.ofExpressions inputs outputs o).run n).2 roots
  rw [hrun]
  exact hn.mono (Nat.le_succ n)

end Symbolic

/-- The derivative of the entry of a scalar by `x`. A scalar without an entry is zero. -/
def Matrix.slope [CommRing R] [Number R] (ρ : Symbol → R) (n : Matrix (Expr R)) (x : Expr R) : R :=
  n.values[0]?.elim 0 fun y => y.derivative ρ x.indicator

theorem Matrix.slope_scalar [CommRing R] [Number R] (f : Expr K → Expr R) (ρ : Symbol → R) (y : Expr K) (x : Expr R) :
    ((Matrix.scalar y).map f).slope ρ x = (f y).derivative ρ x.indicator := by
  simp [slope, map, scalar]

namespace Tape

variable [CommRing R] [Number R] {inputs outputs : Array (Matrix (Expr R))} {iind oind : Nat}
  {m n : Matrix (Expr R)} {ρ : Symbol → R}

theorem gradient_unit (hm : inputs[iind]? = some m) (hn : outputs[oind]? = some n) :
    (gradient inputs outputs ρ (unit outputs oind 0)).getD iind #[] = m.values.map (n.slope ρ) := by
  have hdot (x : Expr R) : (unit outputs oind 0).dot (Block.ofEntries (Expr.derivative ρ x.indicator) outputs) =
      n.slope ρ x := by
    have hsizes := Block.sizes_ofEntries (Expr.derivative ρ x.indicator) outputs
    cases hy : n.values[0]? with
    | some y =>
      have ht : (oind,0,y) ∈ Order.targets outputs := Order.mem_targets.mpr ⟨_, hn, hy⟩
      have hget : (Block.ofEntries (Expr.derivative ρ x.indicator) outputs).get? oind 0 =
          some (y.derivative ρ x.indicator) := (Block.get?_ofEntries _ _).mpr ⟨y, ht, rfl⟩
      rw [Block.dot_comm (by rw [sizes_unit, hsizes]), dot_unit hsizes ht, Block.entry, hget, Option.getD_some,
        Matrix.slope, hy, Option.elim_some]
    | none =>
      have hempty : n.values.size = 0 := Nat.le_zero.mp (Array.getElem?_eq_none_iff.mp hy)
      have hunit : (unit outputs oind 0 : Block R) = .filled (outputs.map Matrix.nnz) 0 := by
        refine Array.ext_getElem? fun i => ?_
        by_cases hi : oind = i
        · subst hi
          simp [unit, Block.set, Block.filled, Array.getElem?_modify, hn, Matrix.nnz, hempty]
        · simp [unit, Block.set, Array.getElem?_modify, hi]
      rw [hunit, Block.dot_zero (Block.entry_filled _), Matrix.slope, hy, Option.elim_none]
  simp [gradient, Block.ofEntries, Array.getD_eq_getD_getElem?, hm]
  exact fun x _ => hdot x

end Tape

namespace Symbolic

variable [CommRing K] [Number K] [ExactRing K] [CommRing R] [Number R] [ExactRing R] {ok : Op → Prop}
  {roots : List (Expr K)} {f : K →+* R} {inputs outputs : Array (Matrix (Expr K))} {sig : Signature K}
  {t : Tape K} {iind oind : Nat} {m n : Matrix (Expr K)}

/-- The outputs again, on their patterns. -/
structure Again (g : (Symbol → R) → Expr K → R) (outputs outs : Array (Matrix (Expr K))) : Prop where
  pattern : outs.map (·.pattern) = outputs.map (·.pattern)
  sized : ∀ m ∈ outs, m.Sized
  value : ∀ ρ, Block.ofEntries (g ρ) outs = Block.ofEntries (g ρ) outputs

omit [CommRing K] [ExactRing K] [CommRing R] [Number R] [ExactRing R] in
/-- Values of the outputs are on their patterns. -/
theorem sizes_outputs {T : Type} (h : Sorts inputs outputs sig t) {values : Block T}
    (hvalues : values.sizes = outputs.map Matrix.nnz) :
    values.sizes = sig.outputs.map Pattern.nnz ∧ values.size = sig.outputs.size := by
  have hsizes : values.sizes = sig.outputs.map Pattern.nnz := hvalues.trans h.outputSizes.symm
  exact ⟨hsizes, by simpa [Block.sizes] using congrArg Array.size hsizes⟩

omit [CommRing K] [ExactRing K] [CommRing R] [Number R] [ExactRing R] in
theorem again_matrices [Nonempty R] (h : Expresses inputs outputs sig t)
    {g : (Symbol → R) → Expr K → R} {values : Block (Expr K)}
    (hvalues : ∀ ρ, values.image (g ρ) = Block.ofEntries (g ρ) outputs) :
    Again g outputs (matrices sig.outputs values) := by
  have hsizes : values.sizes = outputs.map Matrix.nnz := by
    obtain ⟨r⟩ := ‹Nonempty R›
    rw [← Block.sizes_image (g fun _ => r), hvalues, Block.sizes_ofEntries]
  obtain ⟨hnnz, hsize⟩ := sizes_outputs h.toSorts hsizes
  refine ⟨?_, Block.sized_on hnnz, fun ρ => ?_⟩
  · rw [← h.outputPatterns]
    exact Block.pattern_on hsize
  · rw [← hvalues ρ]
    exact Block.ofEntries_on _ hsize

omit [CommRing K] [Number K] [ExactRing K] in
theorem present_matrices {values : Block (Expr K)} (h : values.Held roots) (ps : Array Pattern) :
    Present roots (matrices ps values) := by
  intro e he
  obtain ⟨m, hm, he⟩ := List.mem_flatMap.mp he
  obtain ⟨i, hi⟩ := Array.mem_iff_getElem?.mp (Array.mem_toList_iff.mp hm)
  simp only [matrices, Array.getElem?_zipWith] at hi
  split at hi
  · next p v _ hv =>
    obtain rfl := Option.some.inj hi
    exact h v (Array.mem_of_getElem? hv) e (Array.mem_toList_iff.mp he)
  · cases hi

omit [CommRing K] [Number K] [ExactRing K] in
theorem present_append {ms ms' : Array (Matrix (Expr K))} (h : Present roots ms) (h' : Present roots ms') :
    Present roots (ms ++ ms') := by
  intro e he
  rw [Matrix.entries_append, List.mem_append] at he
  exact he.elim (h e) (h' e)

omit [CommRing K] [Number K] [ExactRing K] in
/-- The input symbols alone, where their numbers have been given. -/
theorem stock_symbols (hd : DistinctSymbols inputs) {n : Nat}
    (hlt : ∀ e ∈ Matrix.entries inputs, e.id < n) :
    Stock ok (Matrix.entries inputs) n (Matrix.entries inputs) := by
  have hsymbol (e : Expr K) (he : ReachedFrom (Matrix.entries inputs) e) :
      e ∈ Matrix.entries inputs ∧ ∃ s, e = .symbol s := by
    obtain ⟨r, hr, he⟩ := he
    obtain ⟨s, rfl⟩ := hd.symbol r hr
    obtain rfl : e = .symbol s := he
    exact ⟨hr, s, rfl⟩
  refine ⟨⟨⟨fun e he => ?_, fun d e hd' he hid => ?_⟩, fun e he => hlt e (hsymbol e he).1⟩,
    fun s hs => (hsymbol _ hs).1, fun e he hs => ?_⟩
  · obtain ⟨-, s, rfl⟩ := hsymbol e he
    trivial
  · exact List.inj_on_of_nodup_map hd.nodup (hsymbol d hd').1 (hsymbol e he).1 hid
  · obtain ⟨-, s, rfl⟩ := hsymbol e he
    cases hs

/-- The buffers of the gradient, with the unit at the scalar output. -/
def seeded (b : Buffers (Expr K)) (oind : Nat) (one : Expr K) : Buffers (Expr K) :=
  {b with adjointSeed := b.adjointSeed.modify 0 (·.modify oind (·.map fun _ => one))}

omit [CommRing K] [Number K] [ExactRing K] in
theorem held_seeded {b : Buffers (Expr K)} (hb : b.Held roots) {one : Expr K} (hone : ReachedFrom roots one)
    (oind : Nat) : (seeded b oind one).Held roots := by
  refine ⟨hb.input, hb.output, hb.forwardSeed, hb.forwardSens, fun x hx v hv e he => ?_, hb.adjointSens⟩
  obtain ⟨d, hd⟩ := Array.mem_iff_getElem?.mp hx
  obtain ⟨i, hi⟩ := Array.mem_iff_getElem?.mp hv
  simp only [seeded, Array.getElem?_modify] at hd
  split at hd
  · obtain ⟨w, hw, rfl⟩ := Option.map_eq_some_iff.mp hd
    rw [Array.getElem?_modify] at hi
    split at hi
    · obtain ⟨u, -, rfl⟩ := Option.map_eq_some_iff.mp hi
      obtain ⟨-, -, rfl⟩ := Array.mem_map.mp he
      exact hone
    · exact hb.adjointSeed w (Array.mem_of_getElem? hw) v (Array.mem_of_getElem? hi) e he
  · exact hb.adjointSeed x (Array.mem_of_getElem? hd) v hv e he

omit [CommRing K] [Number K] [ExactRing K] in
theorem shaped_seeded {b : Buffers (Expr K)} {ins outs : Array Nat} (hb : b.Shaped ins outs) (one : Expr K)
    (oind : Nat) : (seeded b oind one).Shaped ins outs := by
  refine ⟨hb.input, hb.output, hb.forwardSeed, hb.forwardSens, fun x hx => ?_, hb.adjointSens, hb.forward,
    by simpa [seeded] using hb.adjoint⟩
  obtain ⟨d, hd⟩ := Array.mem_iff_getElem?.mp hx
  simp only [seeded, Array.getElem?_modify] at hd
  split at hd
  · obtain ⟨w, hw, rfl⟩ := Option.map_eq_some_iff.mp hd
    rw [← hb.adjointSeed w (Array.mem_of_getElem? hw)]
    refine Array.ext_getElem? fun i => ?_
    simp only [Block.sizes, Array.getElem?_map, Array.getElem?_modify]
    split <;> simp [Option.map_map, Function.comp_def]
  · exact hb.adjointSeed x (Array.mem_of_getElem? hd)

omit [Number K] [ExactRing K] [ExactRing R] in
theorem seed_seeded (h : sig.outputSizes = outputs.map Matrix.nnz) (hn : outputs[oind]? = some n)
    (hnnz : n.nnz ≤ 1) {ρ : Symbol → R} {z one : Expr K} (hz : z.meaning f ρ = 0) (hone : one.meaning f ρ = 1) :
    ((seeded (atSymbols sig inputs 0 1 z) oind one).image (meaning f ρ)).adjointSeed.getD 0 #[] =
      (Tape.unit (Matrix.changed f outputs) oind 0 : Block R) := by
  have hget : (seeded (atSymbols sig inputs 0 1 z) oind one).adjointSeed =
      #[(Block.filled sig.outputSizes z).modify oind (·.map fun _ => one)] := by
    simp [seeded, atSymbols, Buffers.filled, Array.replicate_succ, Array.modify, Array.modifyM]
  simp only [Buffers.image, hget, List.map_toArray, List.map_cons, List.map_nil]
  refine Array.ext_getElem? fun i => ?_
  have hi : sig.outputSizes[i]? = outputs[i]?.map Matrix.nnz := by rw [h, Array.getElem?_map]
  simp only [Tape.unit, Block.set, Matrix.sizes_changed, Array.getElem?_modify]
  by_cases hio : oind = i
  · subst hio
    obtain hcount | hcount : n.nnz = 0 ∨ n.nnz = 1 := by omega
    all_goals simp [Block.image, Block.filled, Array.getElem?_modify, hi, hn, hcount, hone, Array.replicate_succ]
  · cases hv : outputs[i]? <;>
      simp [Block.image, Block.filled, Array.getElem?_modify, hi, hio, hv, hz]

omit [Number K] [ExactRing K] [ExactRing R] in
/-- A sweep from the unit has the derivatives of the scalar output. -/
theorem sens_seeded (h : sig.outputSizes = outputs.map Matrix.nnz) (hm : inputs[iind]? = some m)
    (hn : outputs[oind]? = some n) (hnnz : n.nnz ≤ 1) {ρ : Symbol → R} {z one : Expr K}
    (hz : z.meaning f ρ = 0) (hone : one.meaning f ρ = 1) :
    ((Tape.evaluatedAt (Matrix.changed f inputs) (Matrix.changed f outputs) ρ 0 1
      ((seeded (atSymbols sig inputs 0 1 z) oind one).image (meaning f ρ))).adjointSens.getD 0 #[]).getD iind
        #[] = m.values.map fun x => (n.map (Expr.map f)).slope ρ (x.map f) := by
  have hm' : (Matrix.changed f inputs)[iind]? = some (m.map (Expr.map f)) := by
    simp [Matrix.changed, hm]
  have hn' : (Matrix.changed f outputs)[oind]? = some (n.map (Expr.map f)) := by
    simp [Matrix.changed, hn]
  dsimp only [Tape.evaluatedAt]
  rw [Buffers.getD_firstBlocks Nat.one_pos (by simp [Buffers.image, seeded, atSymbols, Buffers.filled]),
    seed_seeded h hn hnnz hz hone, Tape.gradient_unit hm' hn']
  simp [Matrix.map, Function.comp_def]

/-- One adjoint sweep from a unit at the scalar output. -/
def reverse (sig : Signature K) (t : Tape K) (inputs : Array (Matrix (Expr K))) (oind : Nat) :
    Make (Buffers (Expr K)) := do
  let b ← buffers sig inputs 0 1
  let one ← newConst Number.one
  replay t (seeded b oind one) 0 1

omit [CommRing K] [ExactRing K] in
theorem gradient_eq (h : Expresses inputs outputs sig t) (hm : inputs[iind]? = some m) (oind : Nat)
    (o : Options K) : gradient (.expressions sig t inputs) t inputs iind oind o = (do
      let c ← reverse sig t inputs oind
      Definition.ofExpressions inputs (#[⟨m.pattern, (c.adjointSens.getD 0 #[]).getD iind #[]⟩] ++
        matrices sig.outputs c.output) o) := by
  have hpattern : sig.inputs.getD iind default = m.pattern := by
    simp [h.inputPatterns, Array.getD_eq_getD_getElem?, hm]
  simp only [gradient, reverse, Definition.sig, hpattern, bind_assoc]
  rfl

theorem returns_reverse (h : Expresses inputs outputs sig t) (hf : Reading ok f)
    (hop : ∀ e, ReachedFrom (Matrix.entries outputs) e → e.op.isStructural = false → ok e.op)
    (hrem : ¬ok .rem) (hd : ∀ ρ op, op.isStructural = false → ok op →
      Tape.Derives ok (Matrix.entries inputs) f ρ op)
    (hm : inputs[iind]? = some m) (hn : outputs[oind]? = some n) (hnnz : n.nnz ≤ 1)
    (hroots : Present roots inputs) :
    Returns ok (Matrix.entries inputs) roots (reverse sig t inputs oind) fun roots' c => c.Held roots' ∧
      ∀ ρ, c.output.image (meaning f ρ) = Block.ofEntries (meaning f ρ) outputs ∧
        ((c.adjointSens.getD 0 #[]).getD iind #[]).map (meaning f ρ) =
          m.values.map fun x => (n.map (Expr.map f)).slope ρ (x.map f) := by
  refine Returns.all fun ρ => ?_
  refine .bind (.lift (yields_buffers sig inputs 0 1)) fun roots₁ b h₁ ⟨i, hz, hb⟩ => ?_
  refine .bind (.lift (yields_const Number.one)) fun roots₂ one h₂ ⟨hone, j, hj⟩ => ?_
  subst hb hj
  have hheld := held_seeded (held_atSymbols sig ((hroots.subset h₁).subset h₂) (hz.subset h₂) 0 1)
    hone oind
  have hshape := shaped_seeded (shaped_atSymbols h.inputSizes 0 1 (.const i Number.zero))
    (.const j Number.one) oind
  refine (h.returns_replay (ρ := ρ) hf hop hrem (hd ρ) hheld hshape rfl (Nat.zero_le _)
    (by simp [Buffers.adjoint, seeded, atSymbols, Buffers.filled])).mono fun roots₃ c _ ⟨hc, himage⟩ =>
      ⟨hc, ?_, ?_⟩
  · have houtput := congrArg Buffers.output himage
    exact houtput.trans (Block.ofEntries_changed _ _ _)
  · have hsens := congrArg (fun b : Buffers R => (b.adjointSens.getD 0 #[]).getD iind #[]) himage
    rw [sens_seeded h.outputSizes hm hn hnnz (by simp) (by simp), Buffers.image, Tape.getD_image,
      Block.getD_image] at hsens
    exact hsens

/-- The gradient is made, and the outputs are made again. -/
theorem returns_gradient (h : Expresses inputs outputs sig t) (hf : Reading ok f)
    (hop : ∀ e, ReachedFrom (Matrix.entries outputs) e → e.op.isStructural = false → ok e.op)
    (hrem : ¬ok .rem) (hd : ∀ ρ op, op.isStructural = false → ok op →
      Tape.Derives ok (Matrix.entries inputs) f ρ op)
    (hin : ∀ m ∈ inputs, m.Sized) (hm : inputs[iind]? = some m) (hn : outputs[oind]? = some n)
    (hnnz : n.nnz ≤ 1) (hroots : Present roots inputs) (o : Options K) :
    Returns ok (Matrix.entries inputs) roots
      (gradient (.expressions sig t inputs) t inputs iind oind o) fun _ g =>
        ∃ sig' t' grad outs, g = .expressions sig' t' inputs ∧ sig'.options = o ∧
          Expresses inputs (#[⟨m.pattern,grad⟩] ++ outs) sig' t' ∧
          (∀ e, ReachedFrom (Matrix.entries (#[⟨m.pattern,grad⟩] ++ outs)) e → e.op.isStructural = false →
            ok e.op) ∧
          Again (meaning f) outputs outs ∧
          ∀ ρ, grad.map (meaning f ρ) =
            m.values.map fun x => (n.map (Expr.map f)).slope ρ (x.map f) := by
  rw [gradient_eq h hm]
  refine .bind (returns_reverse h hf hop hrem hd hm hn hnnz hroots) fun roots' c _ hreverse => ?_
  obtain ⟨hc, hall⟩ := hreverse
  have hgain := again_matrices h (g := meaning f) fun ρ => (hall ρ).1
  have hsize : ((c.adjointSens.getD 0 #[]).getD iind #[]).size = m.pattern.nnz := by
    have hs := congrArg Array.size (hall 0).2
    rw [Array.size_map, Array.size_map] at hs
    exact hs.trans (hin m (Array.mem_of_getElem? hm))
  have hgrad : Present roots' #[⟨m.pattern, (c.adjointSens.getD 0 #[]).getD iind #[]⟩] := by
    intro e he
    simp only [Matrix.entries, List.flatMap_cons, List.flatMap_nil, List.append_nil,
      Array.mem_toList_iff] at he
    exact (Tape.held_getD hc.adjointSens 0).getD iind e he
  refine (returns_ofExpressions h.closed.distinct hin ?_
    (present_append hgrad (present_matrices hc.output _)) o).mono fun _ g _ hg => ?_
  · intro m' hm'
    obtain hm' | hm' := Array.mem_append.mp hm'
    · obtain rfl := Array.mem_singleton.mp hm'
      exact hsize
    · exact hgain.sized m' hm'
  · obtain ⟨sig', t', hg, ho, hx, hops⟩ := hg
    exact ⟨sig', t', _, _, hg, ho, hx, hops, hgain, fun ρ => (hall ρ).2⟩

end Symbolic

end Fluxion
