import Fluxion.Proofs.Exact
import Fluxion.Proofs.Expr.Built
import Fluxion.Proofs.Tape.Live

/-!
The values that a tape computes. Every operation of every expression that the outputs reach is done once,
on the values of its operands, and the outputs get the values of their expressions. No law of the numbers
is used, so an operation may stand for what a machine does.
-/
set_option autoImplicit false

namespace Fluxion

variable {K T : Type} {m : Type → Type}

/-- Computes with numbers and shows every operation with its operands to an observer. -/
def Arithmetic.observed [Monad m] [Number K] (see : Op → K → K → m Unit) : Arithmetic K K m where
  lift x := pure x
  apply op x y := do
    see op x y
    return Number.eval op x y
  isZero := Number.isZero
  free _ := none

theorem Arithmetic.observed_pure [Number K] :
    Arithmetic.observed (m := Id) (fun _ _ _ => pure ()) = (Arithmetic.numeric : Arithmetic K K Id) :=
  rfl

/-- Shows the operation of a node, if it has one, on the values of its operands. -/
def Expr.present [Monad m] [Number K] (see : Op → K → K → m Unit) (ρ : Symbol → K) : Expr K → m Unit
  | symbol _ | const _ _ => pure ()
  | unary _ op a => see op (a.value ρ) (a.value ρ)
  | binary _ op a b => see op (a.value ρ) (b.value ρ)

namespace Tape

/-- The value of every symbol, from the values of the inputs; `z` for a symbol that is no input. -/
def valuation (z : T) (inputs : Array (Matrix (Expr K))) (x : Block T) (s : Symbol) : T :=
  match (Order.targets inputs).find? (fun t => t.2.2.id == s.id) with
  | some (i,k,_) => (x.get? i k).getD z
  | none => z

theorem valuation_eq {inputs : Array (Matrix (Expr K))} (hd : DistinctSymbols inputs) (z : T)
    {x : Block T} (hx : x.sizes = inputs.map Matrix.nnz) {i k : Nat} {e : Expr K} {s : Symbol}
    (he : (i,k,e) ∈ Order.targets inputs) (hid : e.id = s.id) :
    x.get? i k = some (valuation z inputs x s) := by
  have hn : ((Order.targets inputs).map fun t => t.2.2.id).Nodup := by
    have := hd.nodup
    rwa [← Order.targets_map, List.map_map] at this
  have hfind : (Order.targets inputs).find? (fun t => t.2.2.id == s.id) = some (i,k,e) := by
    obtain ⟨u, hu⟩ := Option.isSome_iff_exists.mp
      (List.find?_isSome.mpr ⟨(i,k,e), he, by simp [hid]⟩ :
        ((Order.targets inputs).find? (fun t => t.2.2.id == s.id)).isSome)
    have hus : u.2.2.id = s.id := by simpa using List.find?_some hu
    rw [hu, List.inj_on_of_nodup_map hn (List.mem_of_find?_eq_some hu) he (hus.trans hid.symm)]
  obtain ⟨y, hy⟩ := Option.isSome_iff_exists.mp (Block.target_isSome hx he)
  rw [valuation, hfind]
  simp [hy]

theorem ofEntries_valuation [Number K] {inputs : Array (Matrix (Expr K))} (hd : DistinctSymbols inputs)
    {x : Block K} (hx : x.sizes = inputs.map Matrix.nnz) (z : K) :
    Block.ofEntries (Expr.value (valuation z inputs x)) inputs = x := by
  refine (Block.eq_ofEntries hx fun i k e he => ?_).symm
  obtain ⟨s, rfl⟩ := hd.symbol e (Order.mem_targets_entries he)
  exact valuation_eq hd z hx he rfl

/-- An element that is no load and no store computes, and records its derivatives when asked to. -/
theorem step_operation [Monad m] [Number K] (A : Arithmetic K T m) (t : Tape K) (taping : Bool)
    (s : Replay T) {el : Element K} (hop : el.op.isStructural = false) {x y : T}
    (hx : s.work[el.left]? = some x) (hy : s.work[el.right]? = some y) :
    s.step A t taping el = do
      let r ← A.apply el.op x y
      if taping then
        match ← A.partials el.op x y r with
        | some p => return ⟨s.work.setIfInBounds el.result r, s.partials.push p, s.buffers⟩
        | none => s.stop (.missingDerivative el.op)
      else return s.write el.result r := by
  obtain ⟨op, result, left, right, v⟩ := el
  cases op
  case input | output | const | parameter => cases hop
  all_goals
    unfold Replay.step
    simp only [hx, hy]
    try rfl

theorem step_store [Monad m] [Number K] (A : Arithmetic K T m) (t : Tape K) (taping : Bool)
    (places : Std.HashMap Nat (Nat × Nat)) (slot : Nat → Nat) {s : Replay T} {i k id : Nat} {x : T}
    (hx : s.work[slot id]? = some x) (hk : (s.buffers.output.get? i k).isSome) :
    s.step A t taping (elementAt places slot 0 (.store i k id)) =
      return ⟨s.work, s.partials, {s.buffers with output := s.buffers.output.set i k x}⟩ := by
  obtain ⟨y, hy⟩ := Option.isSome_iff_exists.mp hk
  simp [elementAt, Replay.step, hx, hy]

section Observed

variable [Monad m] [LawfulMonad m] [Number K] {inputs outputs : Array (Matrix (Expr K))}
  {places : Std.HashMap Nat (Nat × Nat)} {l l₁ l₂ : List (Node K)} {slot : Nat → Nat} {t : Tape K}
  {b : Buffers K} {s : Replay K}

/-- The inputs have the value of every symbol that has a place. -/
def Supplies (places : Std.HashMap Nat (Nat × Nat)) (ρ : Symbol → T) (x : Block T) (l : List (Node K)) :
    Prop :=
  ∀ s, .symbol s ∈ Order.exprs l → ∃ i k, places[s.id]? = some (i,k) ∧ x.get? i k = some (ρ s)

theorem step_observed_expr (hc : Compiled inputs outputs places l slot t) {ρ : Symbol → K}
    (hs : Supplies places ρ s.buffers.input l) (see : Op → K → K → m Unit) {e : Expr K}
    (he : e.Proper) (hl : l = l₁ ++ .expr e :: l₂)
    (h : Holds slot (fun e x => x = e.value ρ) l₁ (.expr e :: l₂) s.work) :
    s.step (Arithmetic.observed see) t false (elementAt places slot 0 (.expr e)) = do
      liftM (e.present see ρ)
      return s.write (slot e.id) (e.value ρ) := by
  cases e with
  | symbol y =>
    obtain ⟨i, k, hp, hx⟩ := hs y (by rw [hl]; simp)
    simp only [elementAt, hp, Replay.step, hx, Expr.present, Expr.value, Expr.id, liftM_pure, pure_bind]
  | const i v =>
    simp [elementAt, Replay.step, Arithmetic.observed, Expr.present, Expr.value, Expr.id]
  | unary i op a =>
    obtain ⟨x, hx, rfl⟩ := h.operand hc hl (a := a) (by simp [Expr.operands])
    rw [step_operation _ t false s he.1 hx hx]
    simp [elementAt, Arithmetic.observed, Expr.present, Expr.value, Expr.id]
  | binary i op a c =>
    obtain ⟨x, hx, rfl⟩ := h.operand hc hl (a := a) (by simp [Expr.operands])
    obtain ⟨y, hy, rfl⟩ := h.operand hc hl (a := c) (by simp [Expr.operands])
    rw [step_operation _ t false s (Op.isStructural_of_arity he.1) hx hy]
    simp [elementAt, Arithmetic.observed, Expr.present, Expr.value, Expr.id]

theorem foldlM_observed (hc : Compiled inputs outputs places l slot t)
    (hu : Expr.Coherent (Matrix.entries outputs)) (hb : b.output.sizes = outputs.map Matrix.nnz)
    {ρ : Symbol → K} (hs : Supplies places ρ b.input l) (see : Op → K → K → m Unit)
    (hl : l = l₁ ++ l₂) (h : Midway outputs slot t (fun e x => x = e.value ρ) b l₁ l₂ s) :
    ∃ s', Midway outputs slot t (fun e x => x = e.value ρ) b l [] s' ∧
      (l₂.map (elementAt places slot 0)).foldlM (Replay.step (Arithmetic.observed see) t false) s = do
        liftM ((Order.exprs l₂).forM (Expr.present see ρ))
        return s' := by
  -- What is observed are the operations of the nodes that are left, in their order.
  induction l₂ generalizing l₁ s with
  | nil =>
    rw [List.append_nil] at hl
    subst hl
    exact ⟨s, h, by simp⟩
  | cons n l₂ ih =>
    cases n with
    | expr e =>
      have he : e.Proper := hc.complete.proper hu (.expr e) (by rw [hl]; simp)
      have hin : Supplies places ρ s.buffers.input l := by rw [h.buffers]; exact hs
      obtain ⟨s', hs', hfold⟩ := ih (show l = (l₁ ++ [.expr e]) ++ l₂ by simpa using hl)
        (h.expr hc hl rfl s.partials)
      refine ⟨s', hs', ?_⟩
      rw [List.map_cons, List.foldlM_cons, step_observed_expr hc hin see he hl h.holds]
      simp [Replay.write, hfold]
    | store i k id =>
      obtain ⟨x, hx, hk, hm⟩ := h.store hc hu hb hl
      obtain ⟨s', hs', hfold⟩ := ih (show l = (l₁ ++ [.store i k id]) ++ l₂ by simpa using hl) hm
      refine ⟨s', hs', ?_⟩
      rw [List.map_cons, List.foldlM_cons, step_store _ _ _ _ _ hx hk]
      simp [hfold]

/-- With no direction asked for, only the forward pass is done. -/
theorem evaluate_zero (A : Arithmetic K T m) (t : Tape K) (b : Buffers T) :
    t.evaluate A b 0 0 = do
      let r ← t.forwardPass A false b
      return r.buffers := by
  simp [evaluate, forwardSweeps, adjointSweeps]

theorem evaluate_observed (hc : Compiled inputs outputs places l slot t)
    (hu : Expr.Coherent (Matrix.entries outputs)) (hf : freeAmong places (Order.exprs l) = [])
    (hb : b.output.sizes = outputs.map Matrix.nnz) {ρ : Symbol → K} (hs : Supplies places ρ b.input l)
    (see : Op → K → K → m Unit) :
    t.evaluate (Arithmetic.observed see) b 0 0 = do
      liftM ((Order.exprs l).forM (Expr.present see ρ))
      return {b with output := Block.ofEntries (Expr.value ρ) outputs} := by
  have hzero : (Arithmetic.observed see).zero = (pure Number.zero : m K) := rfl
  obtain ⟨r, hr, hfold⟩ := foldlM_observed hc hu hb hs see (List.nil_append l).symm
    (.start outputs slot t _ b l Number.zero)
  rw [← layout_eq_map places slot hf, ← hc.elements, Array.foldlM_toList] at hfold
  rw [evaluate_zero, forwardPass, hzero]
  simp [hfold, hr.finish hc hb]

end Observed

/-- The inputs that every symbol of the outputs has to be one of. -/
structure Closed (inputs outputs : Array (Matrix (Expr K))) : Prop where
  coherent : Expr.Coherent (Matrix.entries outputs)
  distinct : DistinctSymbols inputs
  symbol : ∀ s, Expr.ReachedFrom (Matrix.entries outputs) (.symbol s) →
    .symbol s ∈ Matrix.entries inputs

section Numeric

variable [Number K] {inputs outputs : Array (Matrix (Expr K))} {places : Std.HashMap Nat (Nat × Nat)}
  {l : List (Node K)} {slot : Nat → Nat} {t : Tape K}

omit [Number K] in
theorem Closed.target (h : Closed inputs outputs) {s : Symbol}
    (hs : Expr.ReachedFrom (Matrix.entries outputs) (.symbol s)) :
    ∃ i k, (i,k,.symbol s) ∈ Order.targets inputs := by
  obtain ⟨i, k, m, hm, hk⟩ := Matrix.mem_entries.mp (h.symbol s hs)
  exact ⟨i, k, Order.mem_targets.mpr ⟨m, hm, hk⟩⟩

theorem Closed.free (h : Closed inputs outputs) (hc : Compiled inputs outputs places l slot t) :
    freeAmong places (Order.exprs l) = [] := by
  refine List.eq_nil_iff_forall_not_mem.mpr fun s hs => ?_
  obtain ⟨he, hnone⟩ := mem_freeAmong.mp hs
  obtain ⟨i, k, ht⟩ := h.target ((hc.complete.mem_exprs _).mp he)
  have hplace := hc.placed.get i k _ ht
  rw [Expr.id, hnone] at hplace
  cases hplace

/-- Inputs supply every symbol that is not free. -/
theorem supplies_valuation (hc : Compiled inputs outputs places l slot t)
    (hf : freeAmong places (Order.exprs l) = []) {x : Block T} (hx : x.sizes = inputs.map Matrix.nnz)
    (z : T) : Supplies places (valuation z inputs x) x l := by
  intro s hs
  obtain ⟨i, k, hp⟩ := exists_place hf hs
  obtain ⟨e, he, hid⟩ := hc.placed.mem _ i k hp
  exact ⟨i, k, hp, valuation_eq hc.placed.distinct z hx he hid⟩

theorem evalNumeric_eq (hfree : t.free = #[]) {x : Block K} (hx : x.sizes = t.inputSizes) :
    t.evalNumeric x = Except.mapError Stopped.fault (Except.map Buffers.output (t.evaluate .numeric
      {Buffers.filled t.inputSizes t.outputSizes 0 0 (Number.zero : K) with input := x} 0 0).run) := by
  have hsize : x.size = t.inputSizes.size := by
    rw [← hx]
    simp [Block.sizes]
  have hlength {e : (Array K × Nat) × Nat} (he : e ∈ (x.zip t.inputSizes).zipIdx) : e.1.1.size = e.1.2 := by
    obtain ⟨⟨v, n⟩, i⟩ := e
    have hi := Array.mk_mem_zipIdx_iff_getElem?.mp he
    obtain ⟨hv, hn⟩ := Array.getElem?_zip_eq_some.mp hi
    rw [← hx, Block.sizes, Array.getElem?_map, hv] at hn
    simpa using hn
  rw [evalNumeric, hfree, if_neg (by simp), if_neg (by simp [hsize])]
  generalize hfound : Array.find? _ (x.zip t.inputSizes).zipIdx = found
  cases found with
  | some e =>
    have hother := Array.find?_some hfound
    simp [hlength (Array.mem_of_find?_eq_some hfound)] at hother
  | none =>
    dsimp only
    generalize ExceptT.run _ = result
    cases result <;> rfl

/-- What the element of an expression says; `slot` gives the slot of the expression with a number. -/
def Emits (inputs : Array (Matrix (Expr K))) (slot : Nat → Nat) (el : Element K) : Expr K → Prop
  | .symbol s =>
    el.op = .input ∧ el.result = slot s.id ∧ (el.left,el.right,.symbol s) ∈ Order.targets inputs
  | .const i v => el.op = .const ∧ el.result = slot i ∧ el.value = v
  | .unary i op a => el.op = op ∧ el.result = slot i ∧ el.left = slot a.id ∧ el.right = slot a.id
  | .binary i op a b => el.op = op ∧ el.result = slot i ∧ el.left = slot a.id ∧ el.right = slot b.id

theorem filter_elements (places : Std.HashMap Nat (Nat × Nat)) (slot : Nat → Nat)
    (hl : ∀ n ∈ l, n.Proper) :
    (l.map (elementAt places slot 0)).filter (·.op != .output) =
      (Order.exprs l).map fun e => elementAt places slot 0 (.expr e) := by
  induction l with
  | nil => rfl
  | cons n l ih =>
    obtain ⟨hn, hproper⟩ := List.forall_mem_cons.mp hl
    cases n with
    | store i k id => simpa [elementAt] using ih hproper
    | expr e =>
      have hop := op_elementAt_expr places slot 0 hn
      rw [List.map_cons, List.filter_cons_of_pos (by simpa using hop), ih hproper]
      rfl

theorem Closed.emits (h : Closed inputs outputs) (hc : Compiled inputs outputs places l slot t) :
    (t.elements.toList.filter (·.op != .output)).Forall₂ (Emits inputs slot) (Order.exprs l) := by
  rw [hc.elements, layout_eq_map places slot (h.free hc),
    filter_elements places slot (hc.complete.proper h.coherent), List.forall₂_map_left_iff,
    List.forall₂_same]
  intro e he
  cases e with
  | symbol s =>
    obtain ⟨i, k, ht⟩ := h.target ((hc.complete.mem_exprs _).mp he)
    have hp : places[s.id]? = some (i,k) := hc.placed.get i k _ ht
    simp [Emits, elementAt, hp, ht]
  | _ => simp [Emits, elementAt]

end Numeric

/-- A tape that does the operations of a list of expressions, one after the other. -/
structure Realizes [Number K] (inputs outputs : Array (Matrix (Expr K))) (order : List (Expr K))
    (t : Tape K) : Prop where
  free : t.free = #[]
  /-- Apart from the stores, each element is for one expression of the list. -/
  emitted : ∃ slot, (t.elements.toList.filter (·.op != .output)).Forall₂ (Emits inputs slot) order
  /-- Whoever watches the operations sees those of the list on the values of their operands. -/
  observed : ∀ (m : Type → Type) [Monad m] [LawfulMonad m] (see : Op → K → K → m Unit) (b : Buffers K),
    b.input.sizes = inputs.map Matrix.nnz → b.output.sizes = outputs.map Matrix.nnz →
      t.evaluate (Arithmetic.observed see) b 0 0 = do
        liftM (order.forM (Expr.present see (valuation Number.zero inputs b.input)))
        return {b with output :=
          Block.ofEntries (Expr.value (valuation Number.zero inputs b.input)) outputs}
  evalNumeric : ∀ x : Block K, x.sizes = inputs.map Matrix.nnz →
    t.evalNumeric x =
      .ok (Block.ofEntries (Expr.value (valuation Number.zero inputs x)) outputs)

theorem Closed.realizes [Number K] {inputs outputs : Array (Matrix (Expr K))} {live : Bool}
    {sorting : Sorting} {t : Tape K} (h : Closed inputs outputs)
    (ht : ofGraph inputs outputs live sorting = .ok t) :
    Realizes inputs outputs (Order.exprs (Order.sorted outputs sorting).toList) t := by
  obtain ⟨places, slot, hc⟩ := ofGraph_compiled h.coherent ht
  have hfree : t.free = #[] := by
    rw [← Array.toList_inj, hc.free, h.free hc]
  refine ⟨hfree, ⟨slot, h.emits hc⟩, fun m _ _ see b hx hb => ?_, fun x hx => ?_⟩
  · exact evaluate_observed hc h.coherent (h.free hc) hb (supplies_valuation hc (h.free hc) hx Number.zero) see
  · rw [evalNumeric_eq hfree (hx.trans hc.inputSizes.symm), ← Arithmetic.observed_pure,
      evaluate_observed hc h.coherent (h.free hc) ?_ (supplies_valuation hc (h.free hc) hx Number.zero)]
    · simp
      rfl
    · rw [← hc.outputSizes]
      exact Block.sizes_filled _ _

/-- Distinct symbols that are all the outputs depend on make a tape, whatever the options. It does the
operation of each expression that the outputs reach once, the operands being the values of its operands,
and each output gets its value. The options only change which operation comes first, and live variables
not even that. -/
theorem ofGraph_correct [Number K] {inputs outputs : Array (Matrix (Expr K))}
    (h : Closed inputs outputs) :
    ∃ order : Sorting → List (Expr K),
      (∀ sorting, (order sorting).Nodup ∧
        ∀ e, e ∈ order sorting ↔ Expr.ReachedFrom (Matrix.entries outputs) e) ∧
      (∀ sorting sorting', (order sorting).Perm (order sorting')) ∧
      (∀ x : Block K, x.sizes = inputs.map Matrix.nnz →
        Block.ofEntries (Expr.value (valuation Number.zero inputs x)) inputs = x) ∧
      ∀ live sorting, ∃ t, ofGraph inputs outputs live sorting = .ok t ∧
        Realizes inputs outputs (order sorting) t := by
  have hc (sorting : Sorting) := Order.complete_sorted h.coherent sorting
  refine ⟨fun sorting => Order.exprs (Order.sorted outputs sorting).toList, fun sorting => ?_,
    fun sorting sorting' => (hc sorting).perm (hc sorting'), fun x hx => ?_, fun live sorting => ?_⟩
  · exact ⟨(hc sorting).placed.nodup.of_map, (hc sorting).mem_exprs⟩
  · exact ofEntries_valuation h.distinct hx Number.zero
  · obtain ⟨t, ht⟩ := exists_ofGraph h.distinct outputs live sorting
    exact ⟨t, ht, h.realizes ht⟩

/-- Two symbols. -/
def sampleInputs : Array (Matrix (Expr ℚ)) := #[.column #[.symbol ⟨0,"x"⟩, .symbol ⟨1,"y"⟩]]

/-- A product, and a sum in which it is shared. -/
def sampleOutputs : Array (Matrix (Expr ℚ)) :=
  let x := .symbol ⟨0,"x"⟩
  let product := .binary 2 .mul x (.symbol ⟨1,"y"⟩)
  #[.column #[.binary 3 .add product x, product]]

theorem sample_closed : Closed sampleInputs sampleOutputs := by
  have hsymbols := (Expr.Built.nil (K := ℚ) 0).symbol "x" |>.symbol "y"
  have hproduct := hsymbols.apply (show Op.mul.isStructural = false from rfl) (a := .symbol ⟨0,"x"⟩) (b := .symbol ⟨1,"y"⟩)
    (.tail _ (.head _)) (.head _)
  have hsum := hproduct.apply (show Op.add.isStructural = false from rfl) (b := .symbol ⟨0,"x"⟩) (.head _)
    (.tail _ (.tail _ (.head _)))
  refine ⟨hsum.coherent ?_, ⟨?_, ?_⟩, ?_⟩
  · intro e he
    obtain rfl | rfl : e = _ ∨ e = _ := by
      simpa [Matrix.entries, sampleOutputs, Matrix.column] using he
    · exact .head _
    · exact .tail _ (.head _)
  · simp [Matrix.entries, sampleInputs, Matrix.column]
  · simp [Matrix.entries, sampleInputs, Matrix.column, Expr.id]
  · intro s hs
    have hxy : s = ⟨0,"x"⟩ ∨ s = ⟨1,"y"⟩ := by
      simp [Matrix.entries, sampleOutputs, Matrix.column, Expr.ReachedFrom, Expr.Reaches] at hs
      tauto
    obtain rfl | rfl := hxy <;> simp [Matrix.entries, sampleInputs, Matrix.column]

theorem sample_ne_rem (e : Expr ℚ) (he : Expr.ReachedFrom (Matrix.entries sampleOutputs) e) :
    e.op ≠ .rem := by
  simp [Matrix.entries, sampleOutputs, Matrix.column, Expr.ReachedFrom, Expr.Reaches] at he
  obtain (rfl | (rfl | rfl | rfl) | rfl) | rfl | rfl | rfl := he <;> simp [Expr.op]

theorem ofGraph_correct_sample : Closed sampleInputs sampleOutputs ∧
    ∃ t, ofGraph sampleInputs sampleOutputs true .breadthFirst = .ok t ∧
      t.evalNumeric #[#[3,4]] = .ok #[#[15,12]] := by
  obtain ⟨order, -, -, -, h⟩ := ofGraph_correct sample_closed
  obtain ⟨t, ht, hr⟩ := h true .breadthFirst
  refine ⟨sample_closed, t, ht, ?_⟩
  rw [hr.evalNumeric #[#[3,4]] (by simp [Block.sizes, sampleInputs, Matrix.nnz, Matrix.column])]
  decide +kernel

end Tape

end Fluxion
