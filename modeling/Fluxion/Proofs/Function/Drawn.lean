import Fluxion.Proofs.Function.Derivative
import Fluxion.Proofs.Function.Jobs
import Fluxion.Proofs.Pattern.Enlarge
import Fluxion.Proofs.Tape.Grows

/-!
Functions over expressions, over any numbers. What is made of nodes that are there has a tape that stores every
output, and so have the derivatives that are made of it symbolically. A Jacobian block over all elements may have
more values than places; then it can be made, but not replayed.
-/
set_option autoImplicit false

namespace Fluxion

open Fluxion.Expr

variable {K : Type} {roots : List (Expr K)}

/-- Symbols with the next numbers are there once they are made. -/
theorem Expr.Numbered.consecutive {es : List (Expr K)} {n m : Nat} (hn : Numbered n roots)
    (h : Consecutive n m es) : ∃ roots', roots ⊆ roots' ∧ Numbered m roots' ∧ ∀ e ∈ es, ReachedFrom roots' e := by
  induction es generalizing n roots with
  | nil => exact ⟨roots, List.Subset.refl _, hn.mono h.le, by simp⟩
  | cons e es ih =>
    have hlt := h.id_mem List.mem_cons_self
    have hids := h.ids
    have hcount : m-n = m-(n+1)+1 := by omega
    rw [List.map_cons, hcount, List.range'_succ, List.cons.injEq] at hids
    obtain ⟨s, rfl⟩ := h.symbol e List.mem_cons_self
    have hnew : Numbered (n+1) (.symbol s :: roots) := hn.new hids.1 trivial (by simp [operands])
    obtain ⟨roots', hsub, hend, hes⟩ := ih hnew
      ⟨by omega, fun e he => h.symbol e (List.mem_cons_of_mem _ he), hids.2⟩
    exact ⟨roots', List.Subset.trans (List.subset_cons_self _ _) hsub, hend,
      List.forall_mem_cons.mpr ⟨.root (hsub List.mem_cons_self), hes⟩⟩

theorem Expr.MakesSymbols.grows {α : Type} {entries : α → List (Expr K)} {P : α → Prop} {act : Fresh α}
    (h : MakesSymbols entries P act) :
    Grows roots act fun roots' x => P x ∧ ∀ e ∈ entries x, ReachedFrom roots' e := by
  intro n hn
  obtain ⟨hs, hp⟩ := h n
  obtain ⟨roots', hsub, hend, hes⟩ := hn.consecutive hs
  exact ⟨roots', hsub, hend, hp, hes⟩

theorem Expr.grows_next : Grows roots Fresh.next fun _ _ => True :=
  fun n hn => ⟨roots, List.Subset.refl _, hn.mono (Nat.le_succ n), trivial⟩

/-- There are as many places as values, in the definition and in those that it stands on. Blocks over all elements
have fewer where numbers of elements coincide. -/
def Definition.Entire : Definition K → Prop
  | .expressions sig t _ => t.outputSizes = sig.outputSizes
  | .external _ _ => True
  | .jacobian sig block p =>
    (block.layout = .jacobian → sig.outputSizes[0]? = some block.pattern.nnz) ∧ p.Entire
  | .derivative _ _ _ p => p.Entire

/-- The patterns of a definition, and what it takes for all values to have places. -/
structure Definition.Shows (ins outs : Array Pattern) (C : Prop) (d : Definition K) : Prop where
  inputs : d.sig.inputs = ins
  outputs : d.sig.outputs = outs
  entire : C → d.Entire

/-- The elements of input `i` and of output `o` can be counted. -/
def Signature.Counted (sig : Signature K) (i o : Nat) : Prop :=
  ∀ p q, sig.inputs[i]? = some p → sig.outputs[o]? = some q → p.Counted ∧ q.Counted

variable [Number K]

open Symbolic

/-- A tape of outputs over inputs, all of nodes that are there. The outputs have all the entries that their
patterns have, or more. -/
structure Draws (roots : List (Expr K)) (inputs outputs : Array (Matrix (Expr K))) (sig : Signature K)
    (t : Tape K) : Prop where
  coherent : Coherent (Matrix.entries outputs)
  presentInputs : Present roots inputs
  presentOutputs : Present roots outputs
  tape : Tape.ofGraph inputs outputs sig.options.liveVariables sig.options.sorting = .ok t
  inputPatterns : sig.inputs = inputs.map (·.pattern)
  outputPatterns : sig.outputs = outputs.map (·.pattern)
  sized : ∀ m ∈ inputs, m.Sized
  enough : ∀ m ∈ outputs, m.pattern.nnz ≤ m.nnz

/-- A definition that is drawn from the nodes that are there, with the given options. -/
def Definition.Drawn (o : Options K) (roots : List (Expr K)) (d : Definition K) : Prop :=
  ∃ inputs outputs sig t, d = .expressions sig t inputs ∧ sig.options = o ∧ Draws roots inputs outputs sig t

namespace Draws

variable {inputs outputs : Array (Matrix (Expr K))} {sig : Signature K} {t : Tape K} {W : Prop}

theorem subset {roots' : List (Expr K)} (h : Draws roots inputs outputs sig t) (hr : roots ⊆ roots') :
    Draws roots' inputs outputs sig t :=
  ⟨h.coherent, h.presentInputs.subset hr, h.presentOutputs.subset hr, h.tape, h.inputPatterns, h.outputPatterns,
    h.sized, h.enough⟩

theorem inputSizes (h : Draws roots inputs outputs sig t) : sig.inputSizes = inputs.map Matrix.nnz := by
  rw [Signature.inputSizes, h.inputPatterns, Matrix.nnz_of_sized h.sized]

/-- The free symbols of the tape are among those of the outputs. -/
theorem free (h : Draws roots inputs outputs sig t) : ∀ s ∈ t.free, ReachedFrom roots (.symbol s) := by
  obtain ⟨places, slot, hc⟩ := Tape.ofGraph_compiled h.coherent h.tape
  intro s hs
  rw [← Array.mem_toList_iff, hc.free] at hs
  exact ((hc.complete.mem_exprs _).mp (Tape.mem_freeAmong.mp hs).1).mono h.presentOutputs

theorem fitting (h : Draws roots inputs outputs sig t) (hw : W ∨ t.outputSizes = sig.outputSizes) :
    Evaluate.Fitting W sig t := by
  obtain ⟨places, slot, hc⟩ := Tape.ofGraph_compiled h.coherent h.tape
  refine ⟨hc.covers fun i n hn => ?_, hw.imp_right fun hsizes => ⟨fun hfree => hc.inside h.coherent hfree, ?_, hsizes⟩⟩
  · rw [Signature.outputSizes, h.outputPatterns, Array.map_map, Array.getElem?_map] at hn
    obtain ⟨m, hm, rfl⟩ := Option.map_eq_some_iff.mp hn
    exact ⟨m, hm, h.enough m (Array.mem_of_getElem? hm)⟩
  · rw [hc.inputSizes, h.inputSizes]

/-- Where every output has its place, the outputs have no more entries than their patterns. -/
theorem sorts (h : Draws roots inputs outputs sig t) (hs : t.storesWithin sig.outputSizes = true) :
    Sorts inputs outputs sig t := by
  refine ⟨h.coherent, h.tape, h.inputPatterns, h.outputPatterns, h.inputSizes, ?_⟩
  obtain ⟨places, slot, hc⟩ := Tape.ofGraph_compiled h.coherent h.tape
  have hcovers : t.Covers (outputs.map Matrix.nnz) := hc.covers fun i n hn => by
    rw [Array.getElem?_map] at hn
    obtain ⟨m, hm, rfl⟩ := Option.map_eq_some_iff.mp hn
    exact ⟨m, hm, le_rfl⟩
  rw [Signature.outputSizes, h.outputPatterns, Array.map_map] at hs ⊢
  refine Array.map_congr_left fun m hm => ?_
  refine Nat.le_antisymm (h.enough m hm) ?_
  obtain ⟨i, hi⟩ := Array.mem_iff_getElem?.mp hm
  by_contra hlt
  change ¬m.nnz ≤ m.pattern.nnz at hlt
  -- The last entry is stored, and its place is one of the pattern.
  obtain ⟨el, hel, hop, rfl, hright⟩ := hcovers i (m.nnz-1) m.nnz (by simp [hi]) (by omega)
  have hplace := Array.all_eq_true'.mp hs el hel
  simp only [hop, hright, bne_self_eq_false, Bool.false_or, decide_eq_true_eq, Array.getD_eq_getD_getElem?,
    Array.getElem?_map, hi, Option.map_some, Option.getD_some, Function.comp_apply] at hplace
  omega

end Draws

namespace Symbolic

variable {inputs outputs : Array (Matrix (Expr K))} {sig : Signature K} {t : Tape K} {o : Options K} {f a : Nat}

/-- Outputs over inputs that are there make a function. -/
theorem attempts_ofExpressions (hin : Present roots inputs) (hsized : ∀ m ∈ inputs, m.Sized)
    (hout : Present roots outputs) (henough : ∀ m ∈ outputs, m.pattern.nnz ≤ m.nnz) (o : Options K) :
    Attempts roots (Definition.ofExpressions inputs outputs o) fun roots' e => e.Drawn o roots' ∧
      e.Shows (inputs.map (·.pattern)) (outputs.map (·.pattern)) (∀ m ∈ outputs, m.pattern.nnz = m.nnz) := by
  refine .assume fun n hn => ?_
  have hu : Coherent (Matrix.entries outputs) := hn.toCoherent.mono hout
  refine .bind (P := fun _ t => Tape.ofGraph inputs outputs o.liveVariables o.sorting = .ok t)
    (.look fun _ ht => ht) fun roots' t hr ht => ?_
  have hdrawn {roots' : List (Expr K)} (hr : roots ⊆ roots') (uid : Nat) : Definition.Drawn o roots'
      (.expressions ⟨uid, o, inputs.map (·.pattern), outputs.map (·.pattern)⟩ t inputs) :=
    ⟨inputs, outputs, _, t, rfl, rfl, hu, hin.subset hr, hout.subset hr, ht, rfl, rfl, hsized, henough⟩
  split
  · exact .throw
  · refine .bind (.lift grows_next) fun _ uid hr' _ => .pure ⟨hdrawn (List.Subset.trans hr hr') uid, rfl, rfl,
      fun hall => ?_⟩
    obtain ⟨places, slot, hc⟩ := Tape.ofGraph_compiled hu ht
    have hplaces : outputs.map Matrix.nnz = outputs.map fun m => m.pattern.nnz :=
      Array.map_congr_left fun m hm => (hall m hm).symm
    rw [Definition.Entire, hc.outputSizes, hplaces, Signature.outputSizes, Array.map_map]
    rfl

theorem attempts_replay {ins outs : Array Nat} (hfree : ∀ s ∈ t.free, ReachedFrom roots (.symbol s))
    {b : Buffers (Expr K)} (hb : b.Held roots) (hshaped : b.Shaped ins outs) (f a : Nat) :
    Attempts roots (replay t b f a) fun roots' c => c.Held roots' ∧ c.Shaped ins outs ∧
      c.directions = b.directions ∧ t.storesWithin outs = true := by
  refine .bind (.lift (Tape.attempts_evaluate hfree hb hshaped f a)) fun _ r _ hr => ?_
  split
  · exact .pure (hr _ rfl)
  · exact .throw

omit [Number K] in
theorem sized_flatMap {ps : Array Pattern} {bs : Array (Block (Expr K))}
    (h : ∀ b ∈ bs, Block.sizes b = ps.map Pattern.nnz) : ∀ m ∈ bs.flatMap (matrices ps), m.Sized := by
  intro m hm
  obtain ⟨b, hb, hm⟩ := Array.mem_flatMap.mp hm
  exact Block.sized_on (h b hb) m hm

omit [Number K] in
/-- The outputs of a function after a first one, of which `P` holds. -/
theorem forall_withFirst {P : Matrix (Expr K) → Prop} {outs : Block (Expr K)} (hsizes : outs.sizes = sig.outputSizes)
    {first : Matrix (Expr K)} (hfirst : P first) (hsized : ∀ m : Matrix (Expr K), m.Sized → P m) :
    ∀ m ∈ #[first] ++ matrices sig.outputs outs, P m := by
  intro m hm
  obtain hm | hm := Array.mem_append.mp hm
  · exact Array.mem_singleton.mp hm ▸ hfirst
  · exact hsized m (Block.sized_on hsizes m hm)

omit [Number K] in
theorem present_withFirst {outs : Block (Expr K)} (houts : outs.Held roots) {first : Matrix (Expr K)}
    (hfirst : ∀ x ∈ first.values, ReachedFrom roots x) (ps : Array Pattern) :
    Present roots (#[first] ++ matrices ps outs) := by
  refine present_append (fun e he => hfirst e ?_) (present_matrices houts ps)
  simpa only [Matrix.entries, List.flatMap_cons, List.flatMap_nil, List.append_nil, Array.mem_toList_iff] using he

omit [Number K] in
theorem patterns_withFirst {outs : Block (Expr K)} (hsizes : outs.sizes = sig.outputSizes) (first : Matrix (Expr K)) :
    (#[first] ++ matrices sig.outputs outs).map (·.pattern) = #[first.pattern] ++ sig.outputs := by
  have hsize : outs.size = sig.outputs.size := by
    simpa [Block.sizes, Signature.outputSizes] using congrArg Array.size hsizes
  have hpatterns : (matrices sig.outputs outs).map (·.pattern) = sig.outputs := Block.pattern_on hsize
  rw [Array.map_append, hpatterns, Array.map_singleton]

/-- A first output before the outputs of the function. -/
theorem attempts_withFirst (h : Draws roots inputs outputs sig t) {outs : Block (Expr K)} (houts : outs.Held roots)
    (hsizes : outs.sizes = sig.outputSizes) (first : Pattern) {values : Array (Expr K)}
    (hvalues : ∀ x ∈ values, ReachedFrom roots x) (hfirst : first.nnz ≤ values.size) (o : Options K) :
    Attempts roots (Definition.ofExpressions inputs (#[⟨first, values⟩] ++ matrices sig.outputs outs) o)
      fun roots' e => e.Drawn o roots' ∧
        e.Shows sig.inputs (#[first] ++ sig.outputs) (first.nnz = values.size) :=
  (attempts_ofExpressions h.presentInputs h.sized (present_withFirst houts hvalues _)
    (forall_withFirst hsizes hfirst fun _ hm => hm.ge) o).mono fun _ _ _ he => ⟨he.1,
      he.2.inputs.trans h.inputPatterns.symm, he.2.outputs.trans (patterns_withFirst hsizes _),
      fun hvalues => he.2.entire (forall_withFirst hsizes hvalues fun _ hm => hm.symm)⟩

theorem grows_buffers (h : Draws roots inputs outputs sig t) (f a : Nat) :
    Grows roots (buffers sig inputs f a) fun roots' b => b.Held roots' ∧
      b.Shaped sig.inputSizes sig.outputSizes ∧ b.directions = (f,a) := by
  refine .bind (grows_const Number.zero) fun roots' z hr hz => .pure ⟨held_atSymbols sig (h.presentInputs.subset hr) hz f a,
    shaped_atSymbols h.inputSizes f a z, ?_⟩
  simp [Buffers.directions, Buffers.forward, Buffers.adjoint, Buffers.filled]

theorem attempts_gradient (h : Draws roots inputs outputs sig t) (iind oind : Nat) (o : Options K) :
    Attempts roots (gradient (.expressions sig t inputs) t inputs iind oind o) fun roots' e => e.Drawn o roots' ∧
      e.Shows sig.inputs (#[sig.inputs.getD iind default] ++ sig.outputs) True := by
  refine .bind (.lift (grows_buffers h 0 1)) fun roots₁ b h₁ hbuffers => ?_
  obtain ⟨hb, hshaped, hdirs⟩ := hbuffers
  refine .bind (.lift (grows_const Number.one)) fun roots₂ one h₂ hone => ?_
  have hr := List.Subset.trans h₁ h₂
  have hseeded := held_seeded (Tape.held_subset hb h₂) hone oind
  refine .bind (attempts_replay (fun s hs => (h.free s hs).subset hr) hseeded (shaped_seeded hshaped one oind) 0 1)
    fun roots₃ c h₃ ⟨hc, hc', hcdirs, _⟩ => ?_
  have hone : 0 < c.adjointSens.size := by
    have hsize : b.adjointSeed.size = 1 := congrArg Prod.snd hdirs
    have hseeds : c.adjointSeed.size = (seeded b oind one).adjointSeed.size := congrArg Prod.snd hcdirs
    rw [hc'.adjoint, hseeds]
    simp [seeded, hsize]
  have hsizes := Buffers.sizes_getD hc'.adjointSens hone
  have hget := congrArg (fun ns : Array Nat => ns[iind]?) hsizes
  simp only [Signature.inputSizes, Block.sizes, Array.getElem?_map] at hget
  have hfirst : (sig.inputs.getD iind default).nnz = ((c.adjointSens.getD 0 #[]).getD iind #[]).size := by
    rw [Array.getD_eq_getD_getElem?, Array.getD_eq_getD_getElem?]
    cases hp : sig.inputs[iind]? with
    | none =>
      rw [hp, Option.map_none, Option.map_eq_none_iff] at hget
      rw [hget]
      rfl
    | some p =>
      rw [hp] at hget
      obtain ⟨v, hv, hsize⟩ := Option.map_eq_some_iff.mp hget
      rw [hv]
      exact hsize.symm
  exact (attempts_withFirst (h.subset (List.Subset.trans hr h₃)) hc.output hc'.output _ ((Tape.held_getD hc.adjointSens 0).getD iind)
    hfirst.le o).mono fun _ e _ he => ⟨he.1, he.2.inputs, he.2.outputs, fun _ => he.2.entire hfirst⟩

/-- Seeds with new units keep their sizes. -/
theorem grows_units {seed : Block (Expr K)} (hseed : seed.Held roots) (slot : Nat) (members : Array Nat) :
    Grows roots (units seed slot members) fun roots' s => s.Held roots' ∧ Block.sizes s = seed.sizes := by
  rw [units, ← Array.foldlM_toList]
  exact .foldlM (fun _ s i _ _ hs => .bind (grows_const Number.one) fun _ one hr hone =>
    .pure ⟨(hs.1.subset hr).set hone slot i, (Block.sizes_set _ _ _ _).trans hs.2⟩) ⟨hseed, rfl⟩

theorem grows_seedColors {ns : Array Nat} {seeds : Array (Block (Expr K))} (hheld : ∀ s ∈ seeds, s.Held roots)
    (hsizes : ∀ s ∈ seeds, Block.sizes s = ns) (slot : Nat) (p : Pattern) :
    Grows roots (seedColors seeds slot p) fun roots' bs => (∀ b ∈ bs, b.Held roots') ∧
      (∀ b ∈ bs, Block.sizes b = ns) ∧ bs.size = seeds.size := by
  have hseed {x : Block (Expr K) × Nat} (hx : x ∈ seeds.zipIdx) : x.1 ∈ seeds := by
    obtain ⟨s, k⟩ := x
    exact (Array.mem_zipIdx hx).2.2 ▸ Array.getElem_mem _
  refine (Grows.mapM (P := fun roots' b => b.Held roots' ∧ Block.sizes b = ns) (g := fun _ => ()) (h := fun _ => ())
    (fun _ _ _ hr hb => ⟨hb.1.subset hr, hb.2⟩) fun roots' x hr hx => (grows_units ((hheld _ (hseed hx)).subset hr)
      slot (p.row x.2)).mono fun _ s _ hs => ⟨⟨hs.1, hs.2.trans (hsizes _ (hseed hx))⟩, rfl⟩).mono
    fun _ bs _ hbs => ⟨fun b hb => (hbs.1 b hb).1, fun b hb => (hbs.1 b hb).2, ?_⟩
  simpa using congrArg Array.size hbs.2

/-- A block that has a pattern is one of an input and an output that are there. -/
theorem exists_block (h : Draws roots inputs outputs sig t) {iind oind : Nat} {symmetric : Bool} {p : Pattern}
    (hp : (Definition.expressions sig t inputs).jacSparsity iind oind true symmetric = .ok p) :
    ∃ m n, inputs[iind]? = some m ∧ outputs[oind]? = some n ∧
      (Definition.expressions sig t inputs).detectPattern iind oind symmetric = .ok p := by
  have hsig : (Definition.expressions sig t inputs).sig = sig := rfl
  rw [Definition.jacSparsity, hsig] at hp
  obtain ⟨_, hinput, hp⟩ := exists_of_bind_eq_ok hp
  obtain ⟨_, houtput, hp⟩ := exists_of_bind_eq_ok hp
  obtain ⟨q, hq, hp⟩ := exists_of_bind_eq_ok hp
  obtain rfl : q = p := Except.ok.inj hp
  have hin := Signature.inputs_of_checkInput hinput
  have hout := Signature.outputs_of_checkOutput houtput
  rw [h.inputPatterns, Array.getElem?_map] at hin
  rw [h.outputPatterns, Array.getElem?_map] at hout
  obtain ⟨m, hm, -⟩ := Option.map_eq_some_iff.mp hin
  obtain ⟨n, hn, -⟩ := Option.map_eq_some_iff.mp hout
  exact ⟨m, n, hm, hn, hq⟩

/-- A symmetric block has to have as many rows as columns. -/
theorem detectPattern_of_not_square (h : Sorts inputs outputs sig t) {iind oind : Nat} {m n : Matrix (Expr K)}
    (hm : inputs[iind]? = some m) (hn : outputs[oind]? = some n) (hne : n.values.size ≠ m.values.size) :
    (Definition.expressions sig t inputs).detectPattern iind oind true =
      .error (.invalidPattern (.blockNotSquare sig.name n.pattern.nnz m.pattern.nnz)) := by
  have hinput : m.pattern.nnz = m.values.size := by
    have hget := congrArg (fun ns : Array Nat => ns[iind]?) h.inputSizes
    simpa [Signature.inputSizes, h.inputPatterns, hm, Matrix.nnz] using hget
  have houtput : n.pattern.nnz = n.values.size := by
    have hget := congrArg (fun ns : Array Nat => ns[oind]?) h.outputSizes
    simpa [Signature.outputSizes, h.outputPatterns, hn, Matrix.nnz] using hget
  have hblock : m.pattern.nnz ≠ n.pattern.nnz := by omega
  have hsig : (Definition.expressions sig t inputs).sig = sig := rfl
  rw [Definition.detectPattern, hsig, h.checkInput hm, ok_bind, h.checkOutput hn, ok_bind,
    if_pos (by simpa using hblock)]
  rfl

theorem square_of_detectPattern (h : Sorts inputs outputs sig t) {iind oind : Nat} {m n : Matrix (Expr K)}
    (hm : inputs[iind]? = some m) (hn : outputs[oind]? = some n) {p : Pattern}
    (hp : (Definition.expressions sig t inputs).detectPattern iind oind true = .ok p) :
    n.values.size = m.values.size := by
  by_contra hne
  rw [detectPattern_of_not_square h hm hn hne] at hp
  cases hp

/-- The pattern of a block of a function over expressions is valid, and symmetric where it is to be. -/
theorem valid_jacSparsity (h : Draws roots inputs outputs sig t) (hs : Sorts inputs outputs sig t) {iind oind : Nat}
    {symmetric : Bool} {p : Pattern}
    (hp : (Definition.expressions sig t inputs).jacSparsity iind oind true symmetric = .ok p) :
    p.Valid ∧ (symmetric = true → p.isSymmetric = true) := by
  obtain ⟨m, n, hm, hn, hdetect⟩ := exists_block h hp
  cases symmetric with
  | false =>
    obtain rfl : dependence m.values n.values = p := Except.ok.inj ((hs.jacSparsity hm hn).symm.trans hp)
    exact ⟨valid_dependence m.values n.values, fun h => by cases h⟩
  | true =>
    obtain ⟨q, hq, hover⟩ := hs.detectPattern_symmetric hm hn (square_of_detectPattern hs hm hn hdetect)
      (S := fun _ _ => False) (fun _ _ h => h.elim) fun _ _ h => h
    obtain rfl : q = p := Except.ok.inj (hq.symm.trans hdetect)
    exact ⟨hover.valid, fun _ => hover.isSymmetric⟩

omit [Number K] in
/-- A pattern spread over the elements has no more entries. -/
theorem nnz_enlarge_le {d : Definition K} {p first : Pattern} (hp : p.Valid) {iind oind : Nat}
    (h : d.enlarge p iind oind = .ok first) : first.nnz ≤ p.nnz := by
  rw [Definition.enlarge] at h
  obtain ⟨_, -, h⟩ := exists_of_bind_eq_ok h
  obtain ⟨_, -, h⟩ := exists_of_bind_eq_ok h
  obtain ⟨_, -, h⟩ := exists_of_bind_eq_ok h
  obtain ⟨_, -, h⟩ := exists_of_bind_eq_ok h
  exact Pattern.nnz_enlarge?_le hp h

omit [Number K] in
/-- Over elements that can be counted it has as many. -/
theorem nnz_enlarge_eq {d : Definition K} {p first : Pattern} (hp : p.Valid) {iind oind : Nat}
    (hcount : d.sig.Counted iind oind) (h : d.enlarge p iind oind = .ok first) : first.nnz = p.nnz := by
  rw [Definition.enlarge] at h
  obtain ⟨input, hin, h⟩ := exists_of_bind_eq_ok h
  obtain ⟨output, hout, h⟩ := exists_of_bind_eq_ok h
  obtain ⟨_, -, h⟩ := exists_of_bind_eq_ok h
  obtain ⟨_, -, h⟩ := exists_of_bind_eq_ok h
  obtain ⟨hcin, hcout⟩ := hcount _ _ (Signature.inputs_of_checkInput hin) (Signature.outputs_of_checkOutput hout)
  exact Pattern.nnz_enlarge?_eq hp hcout hcin h

/-- The values of a Jacobian block and the outputs, from one sweep for each color. -/
def blockValues (sig : Signature K) (t : Tape K) (inputs : Array (Matrix (Expr K))) (j : Assemble.Job) :
    Make (Array (Expr K) × Block (Expr K)) := do
  let (f, a) := Assemble.sweep j.partition j.partition.colors
  let b ← buffers sig inputs f a
  let fs ← seedColors b.forwardSeed j.iind j.partition.seeds
  let as ← seedColors b.adjointSeed j.oind j.partition.seeds
  let c ← replay t (withSeeds b fs as) f a
  let zero ← newConst Number.zero
  return (collected j c zero, c.output)

/-- What is left of a Jacobian where the pattern and the colors are known. -/
theorem jacobian_eq_blockValues {iind oind : Nat} {symmetric : Bool} {p : Pattern} {side : Partition}
    (hp : (Definition.expressions sig t inputs).jacSparsity iind oind true symmetric = .ok p)
    (hside : (Definition.expressions sig t inputs).partition iind oind true symmetric = .ok side) (compact : Bool)
    (o : Options K) :
    jacobian (.expressions sig t inputs) t inputs iind oind compact symmetric o = (do
      let (values, outs) ← blockValues sig t inputs (.of iind oind p side symmetric)
      let first ← if compact then pure p else (Definition.expressions sig t inputs).enlarge p iind oind
      Definition.ofExpressions inputs (#[⟨first, values⟩] ++ matrices sig.outputs outs) o) := by
  rw [jacobian, hp, hside]
  simp only [blockValues, bind_assoc, pure_bind]
  cases compact <;> cases side <;> rfl

/-- Where the sweeps come to their end, there is a place for every output and a value for every entry of the block. -/
theorem attempts_blockValues (h : Draws roots inputs outputs sig t) (j : Assemble.Job) :
    Attempts roots (blockValues sig t inputs j) fun roots' r => t.storesWithin sig.outputSizes = true ∧
      (∀ x ∈ r.1, ReachedFrom roots' x) ∧ r.1.size = j.pattern.nnz ∧ r.2.Held roots' ∧
      r.2.sizes = sig.outputSizes := by
  refine .bind (.lift (grows_buffers h _ _)) fun roots₁ b h₁ hbuffers => ?_
  obtain ⟨hb, hshaped, hdirs⟩ := hbuffers
  refine .bind (.lift (grows_seedColors hb.forwardSeed hshaped.forwardSeed j.iind j.partition.seeds))
    fun roots₂ fs h₂ hseeds => ?_
  obtain ⟨hfs, hfsizes, hfsize⟩ := hseeds
  have hb := Tape.held_subset hb h₂
  refine .bind (.lift (grows_seedColors hb.adjointSeed hshaped.adjointSeed j.oind j.partition.seeds))
    fun roots₃ as h₃ hseeds => ?_
  obtain ⟨has, hasizes, hasize⟩ := hseeds
  have hb := Tape.held_subset hb h₃
  have hr := List.Subset.trans h₁ (List.Subset.trans h₂ h₃)
  refine .bind (attempts_replay (fun s hs => (h.free s hs).subset hr) (b := withSeeds b fs as)
    ⟨hb.input, hb.output, Tape.Block.Held.subsets hfs h₃, hb.forwardSens, has, hb.adjointSens⟩
    ⟨hshaped.input, hshaped.output, hfsizes, hshaped.forwardSens, hasizes, hshaped.adjointSens,
      hshaped.forward.trans hfsize.symm, hshaped.adjoint.trans hasize.symm⟩ _ _)
    fun roots₄ c h₄ hreplay => ?_
  obtain ⟨hc, hc', -, hstores⟩ := hreplay
  refine .bind (.lift (grows_const Number.zero)) fun roots₅ zero h₅ hzero => .pure ⟨hstores,
    held_collected (Tape.held_subset hc h₅) hzero, ?_, hc.output.subset h₅, hc'.output⟩
  have hfold := j.size_foldl_recover 0 j.partition.colors (fun k => j.sens c k)
    (.replicate j.pattern.nrow 0, .replicate j.pattern.nnz zero)
  simpa [collected] using hfold

theorem attempts_jacobian (h : Draws roots inputs outputs sig t) (iind oind : Nat) (compact symmetric : Bool)
    (o : Options K) : Attempts roots
      (jacobian (.expressions sig t inputs) t inputs iind oind compact symmetric o) fun roots' e =>
        e.Drawn o roots' ∧ e.sig.inputs = sig.inputs ∧ (compact = true ∨ sig.Counted iind oind → e.Entire) := by
  cases hp : (Definition.expressions sig t inputs).jacSparsity iind oind true symmetric with
  | error e =>
    rw [jacobian, hp]
    exact .throw
  | ok p =>
  cases hside : (Definition.expressions sig t inputs).partition iind oind true symmetric with
  | error e =>
    rw [jacobian, hp, hside]
    exact .throw
  | ok side =>
  rw [jacobian_eq_blockValues hp hside]
  refine .bind (attempts_blockValues h (.of iind oind p side symmetric)) fun roots₁ r h₁ hr => ?_
  obtain ⟨hstores, hheld, hsize, houts, hsizes⟩ := hr
  obtain ⟨values, outs⟩ := r
  have hsize : values.size = p.nnz := hsize
  -- The replay found a place for every output, so the function sorts them all.
  have hvalid := (valid_jacSparsity h (h.sorts hstores) hp).1
  have hlast {roots' : List (Expr K)} (hr : roots₁ ⊆ roots') (first : Pattern) (hfirst : first.nnz ≤ p.nnz) :=
    attempts_withFirst (h.subset (List.Subset.trans h₁ hr)) (houts.subset hr) hsizes first
      (fun x hx => (hheld x hx).subset hr) (hfirst.trans hsize.ge) o
  cases compact with
  | true => exact (hlast (List.Subset.refl _) p le_rfl).mono fun _ e _ he =>
    ⟨he.1, he.2.inputs, fun _ => he.2.entire hsize.symm⟩
  | false =>
    refine .bind (P := fun _ first => (Definition.expressions sig t inputs).enlarge p iind oind = .ok first)
      (.look fun _ h => h) fun _ first hr hfirst => ?_
    refine (hlast hr first (nnz_enlarge_le hvalid hfirst)).mono fun _ e _ he =>
      ⟨he.1, he.2.inputs, fun hcount => ?_⟩
    have hcount : sig.Counted iind oind := hcount.resolve_left (by simp)
    exact he.2.entire ((nnz_enlarge_eq (d := .expressions sig t inputs) hvalid hcount hfirst).trans hsize.symm)

theorem attempts_seededDerivative (h : Draws roots inputs outputs sig t) {fs as : Array (Array (Matrix (Expr K)))}
    (hfs : Seeds sig.inputs f fs) (has : Seeds sig.outputs a as) (hpf : Present roots fs.flatten)
    (hpa : Present roots as.flatten) (o : Options K) :
    Attempts roots (seededDerivative sig t inputs f a fs as o) fun roots' e => e.Drawn o roots' ∧ e.Entire := by
  refine .bind (.lift (grows_buffers h f a)) fun roots₁ b h₁ ⟨hb, hshaped, hdirs⟩ => ?_
  have hforward : b.forwardSeed.size = f := congrArg Prod.fst hdirs
  have hadjoint : b.adjointSeed.size = a := congrArg Prod.snd hdirs
  have hheld : (withSeeds b (blocks fs) (blocks as)).Held roots₁ :=
    ⟨hb.input, hb.output, held_blocks (hpf.subset h₁), hb.forwardSens, held_blocks (hpa.subset h₁), hb.adjointSens⟩
  have hshape : (withSeeds b (blocks fs) (blocks as)).Shaped sig.inputSizes sig.outputSizes :=
    ⟨hshaped.input, hshaped.output, hfs.sizes_blocks, hshaped.forwardSens, has.sizes_blocks, hshaped.adjointSens,
      by simp [withSeeds, blocks, hshaped.forward, hforward, hfs.size],
      by simp [withSeeds, blocks, hshaped.adjoint, hadjoint, has.size]⟩
  refine .bind (attempts_replay (fun s hs => (h.free s hs).subset h₁) hheld hshape f a)
    fun roots₂ c h₂ hreplay => ?_
  obtain ⟨hc, hc', -⟩ := hreplay
  have hr := List.Subset.trans h₁ h₂
  have hpresent : Present roots₂ (inputs ++ fs.flatten ++ as.flatten) :=
    present_append (present_append (h.presentInputs.subset hr) (hpf.subset hr)) (hpa.subset hr)
  have hsized : ∀ m ∈ matrices sig.outputs c.output ++ c.forwardSens.flatMap (matrices sig.outputs) ++
      c.adjointSens.flatMap (matrices sig.inputs), m.Sized := fun m hm => by
    obtain (hm | hm) | hm := by simpa only [Array.mem_append] using hm
    · exact Block.sized_on hc'.output m hm
    · exact sized_flatMap hc'.forwardSens m hm
    · exact sized_flatMap hc'.adjointSens m hm
  exact (attempts_ofExpressions hpresent (sized_arguments h.sized hfs has) (present_append (present_append
    (present_matrices hc.output _) (present_flatMap hc.forwardSens _)) (present_flatMap hc.adjointSens _))
    (fun m hm => (hsized m hm).ge) o).mono fun _ e _ he => ⟨he.1, he.2.entire fun m hm => (hsized m hm).symm⟩

theorem attempts_derivative (h : Draws roots inputs outputs sig t) (f a : Nat) (o : Options K) :
    Attempts roots (derivative (.expressions sig t inputs) t inputs f a o) fun roots' e =>
      e.Drawn o roots' ∧ e.Entire := by
  have hunfold : derivative (.expressions sig t inputs) t inputs f a o = (do
      let fs ← seedSymbols "fwd" "i" sig.inputs f
      let as ← seedSymbols "adj" "o" sig.outputs a
      seededDerivative sig t inputs f a fs as o) := rfl
  rw [hunfold]
  refine .bind (.lift (makesSymbols_seedSymbols "fwd" "i" sig.inputs f).grows) fun _ fs h₁ ⟨hfs, hpf⟩ => ?_
  refine .bind (.lift (makesSymbols_seedSymbols "adj" "o" sig.outputs a).grows) fun _ as h₂ ⟨has, hpa⟩ => ?_
  exact attempts_seededDerivative (h.subset (List.Subset.trans h₁ h₂)) hfs has (Present.subset hpf h₂) hpa o

end Symbolic

end Fluxion
