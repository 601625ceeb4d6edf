import Fluxion.Proofs.Tape.Chain
import Fluxion.Proofs.Tape.Products

/-!
Duality. Each step of an adjoint sweep is the transpose of the same step of a forward sweep, as maps of
all work slots at once. Which value a slot holds does not matter for this, only that every slot is
written before it is read: then the work array ends as it began, with zeros.
-/
set_option autoImplicit false

namespace Fluxion.Tape

variable {K : Type} [Number K] {inputs outputs : Array (Matrix (Expr K))}
  {places : Std.HashMap Nat (Nat × Nat)} {l l₁ l₂ : List (Node K)} {slot : Nat → Nat} {t : Tape K}

section Adjoint

variable [CommRing K] [ExactRing K] {partials : Array (K × K)} {seed : Block K} {a : Sweep K}

theorem accumulate_eq (work : Array K) (s : Nat) {act : Id K} {d : K} (hd : act = pure d) :
    Sweep.accumulate Arithmetic.numeric work s act = (pure (work.modify s (· + d)) : Id (Array K)) := by
  rw [hd]
  cases hs : work[s]? with
  | none =>
    have hmodify : work.modify s (· + d) = work := by
      refine Array.ext_getElem? fun i => ?_
      rw [Array.getElem?_modify]
      split
      · next hi => rw [← hi, hs]; rfl
      · rfl
    simp [Sweep.accumulate, hs, hmodify]
  | some x =>
    have hmodify : work.modify s (· + d) = work.setIfInBounds s (x+d) := by
      refine Array.ext_getElem? fun i => ?_
      rw [Array.getElem?_modify, Array.getElem?_setIfInBounds]
      split
      · next hi =>
        obtain ⟨hlt, hx⟩ := Array.getElem?_eq_some_iff.mp hs
        subst hi
        simp [hx, hlt]
      · rfl
    simp [Sweep.accumulate, hs, hmodify, Arithmetic.numeric_add]

theorem adjoint_operation (partials : Array (K × K)) (seed : Block K) (a : Sweep K) (el : Element K)
    (hop : el.op.isStructural = false) {p : K × K} {d : K}
    (hp : partials[a.next-1]? = some p) (hd : a.work[el.result]? = some d) :
    Sweep.adjoint Arithmetic.numeric partials seed a el =
      (pure ⟨((a.work.setIfInBounds el.result 0).modify el.left (· + p.1*d)).modify el.right (· + p.2*d),
        a.sens, a.next-1⟩ : Id (Sweep K)) := by
  obtain ⟨p, q⟩ := p
  have hzero : (Arithmetic.numeric : Arithmetic K K Id).isZero d = true ↔ d = 0 := Number.isZero_iff d
  have hunfold : Sweep.adjoint Arithmetic.numeric partials seed a el = (do
      let work := a.work.setIfInBounds el.result 0
      if (Arithmetic.numeric : Arithmetic K K Id).isZero d then return ⟨work, a.sens, a.next-1⟩
      else if el.left = el.right then
        let work ← Sweep.accumulate Arithmetic.numeric work el.left (pure ((p+q)*d))
        return ⟨work, a.sens, a.next-1⟩
      else
        let work ← Sweep.accumulate Arithmetic.numeric work el.left (pure (p*d))
        let work ← Sweep.accumulate Arithmetic.numeric work el.right (pure (q*d))
        return ⟨work, a.sens, a.next-1⟩ : Id (Sweep K)) := by
    obtain ⟨op, result, left, right, v⟩ := el
    cases op
    case input | output | const | parameter => cases hop
    all_goals
      unfold Sweep.adjoint
      simp only [hp, hd, Arithmetic.numeric_zero, Arithmetic.numeric_add, Arithmetic.numeric_mul, pure_bind]
  rw [hunfold]
  split
  · next h =>
    obtain rfl := hzero.mp h
    simp only [mul_zero, modify_add_zero]
  · split
    · next heq =>
      simp [accumulate_eq _ _ rfl, heq, modify_add_add, add_mul]
    · simp [accumulate_eq _ _ rfl]

theorem adjoint_output {el : Element K} (hop : el.op = .output) {d : K}
    (hd : seed.get? el.result el.right = some d) :
    Sweep.adjoint Arithmetic.numeric partials seed a el =
      (pure ⟨a.work.modify el.left (· + d), a.sens, a.next⟩ : Id (Sweep K)) := by
  have hzero : (Arithmetic.numeric : Arithmetic K K Id).isZero d = true ↔ d = 0 := Number.isZero_iff d
  simp only [Sweep.adjoint, hop, hd]
  split
  · next h =>
    obtain rfl := hzero.mp h
    rw [modify_add_zero]
  · rw [accumulate_eq _ _ rfl]
    rfl

theorem adjoint_store {i k id : Nat} {d : K} (hd : seed.get? i k = some d) :
    Sweep.adjoint Arithmetic.numeric partials seed a (elementAt places slot 0 (.store i k id)) =
      (pure ⟨a.work.modify (slot id) (· + d), a.sens, a.next⟩ : Id (Sweep K)) :=
  adjoint_output rfl hd

theorem adjoint_symbol {y : Symbol} {i k : Nat} {x : K} (hp : places[y.id]? = some (i,k))
    (hx : a.work[slot y.id]? = some x) :
    Sweep.adjoint Arithmetic.numeric partials seed a (elementAt places slot 0 (.expr (.symbol y))) =
      (pure ⟨a.work.setIfInBounds (slot y.id) 0, a.sens.set i k x, a.next⟩ : Id (Sweep K)) := by
  simp [elementAt, hp, Sweep.adjoint, hx, Arithmetic.numeric_zero]

theorem adjoint_const (i : Nat) (v : K) :
    Sweep.adjoint Arithmetic.numeric partials seed a (elementAt places slot 0 (.expr (.const i v))) =
      (pure ⟨a.work.setIfInBounds (slot i) 0, a.sens, a.next⟩ : Id (Sweep K)) := by
  simp [elementAt, Sweep.adjoint, Arithmetic.numeric_zero]

/-- An adjoint sweep that has done the nodes `l₂` and has the nodes `l₁` before it. Whatever state a
forward sweep is in between them, its inner product with the adjoint is what will be stored. -/
structure Adjoining (inputs outputs : Array (Matrix (Expr K))) (places : Std.HashMap Nat (Nat × Nat))
    (slot : Nat → Nat) (t : Tape K) (partials : Array (K × K)) (v w : Block K) (l₁ l₂ : List (Node K))
    (a : Sweep K) : Prop where
  size : a.work.size = t.worksize
  next : a.next = (Order.operations l₁).length
  sizes : a.sens.sizes = inputs.map Matrix.nnz
  /-- Inputs that no node has loaded have zero. -/
  unloaded : ∀ i k, (∀ s, .symbol s ∈ Order.exprs l₂ → places[s.id]? ≠ some (i,k)) →
    a.sens.entry i k = 0
  /-- So has every slot that no node before will have written. -/
  clean : ∀ s, (∀ e ∈ Order.exprs l₁, slot e.id ≠ s) → a.work.getD s 0 = 0
  dual : ∀ f f' : Sweep K, f.work.size = t.worksize → f.next = (Order.operations l₁).length →
    f.sens.sizes = outputs.map Matrix.nnz →
    (∀ i k id, (i,k,id) ∈ Order.stores l₂ → f.sens.entry i k = 0) →
    (l₂.map (elementAt places slot 0)).foldlM (Sweep.forward Arithmetic.numeric partials v) f =
      (pure f' : Id (Sweep K)) →
    w.dot f'.sens = slotDot t.worksize a.work f.work + a.sens.dot v + w.dot f.sens

variable {v w : Block K}

omit [ExactRing K] in
/-- A slot of an expression is one of the work array. -/
theorem Compiled.getElem?_slot (hc : Compiled inputs outputs places l slot t) {e : Expr K}
    (he : e ∈ Order.exprs l) {work : Array K} (hw : work.size = t.worksize) :
    work[slot e.id]? = some (work.getD (slot e.id) 0) :=
  getElem?_eq_some_getD (hw ▸ hc.bound e he) 0

theorem Adjoining.store (hc : Compiled inputs outputs places l slot t)
    (hu : Expr.Coherent (Matrix.entries outputs)) (hw : w.sizes = outputs.map Matrix.nnz)
    {i k id : Nat} (hl : l = l₁ ++ .store i k id :: l₂)
    (h : Adjoining inputs outputs places slot t partials v w (l₁ ++ [.store i k id]) l₂ a) :
    ∃ a', Sweep.adjoint Arithmetic.numeric partials w a (elementAt places slot 0 (.store i k id)) =
        (pure a' : Id (Sweep K)) ∧
      Adjoining inputs outputs places slot t partials v w l₁ (.store i k id :: l₂) a' := by
  obtain ⟨e, hel, ht, rfl⟩ := hc.complete.store hu hl
  have he : e ∈ Order.exprs l := by
    rw [hl]
    simp [hel]
  obtain ⟨d, hd⟩ := Option.isSome_iff_exists.mp (Block.target_isSome hw ht)
  refine ⟨_, adjoint_store hd, by simpa using h.size, by simpa using h.next, h.sizes, h.unloaded,
    fun s hs => ?_, fun f f' hf hnext hsens hzero hfold => ?_⟩
  · have hclean := h.clean s (by simpa using hs)
    simpa [Array.getD_eq_getD_getElem?, Array.getElem?_modify, hs e hel] using hclean
  · have hx := hc.getElem?_slot he hf
    have hsome : (f.sens.get? i k).isSome := Block.target_isSome hsens ht
    have hrest : ∀ j n id, (j,n,id) ∈ Order.stores l₂ →
        (f.sens.set i k (f.work.getD (slot e.id) 0)).entry j n = 0 := by
      intro j n id hid
      have hne : (i,k) ≠ (j,n) := by
        intro heq
        cases heq
        exact hc.complete.stored_once hl id hid
      rw [Block.entry, Block.get?_set_of_ne hne]
      exact hzero j n id (by simp [hid])
    rw [List.map_cons, List.foldlM_cons, forward_store hx, pure_bind] at hfold
    rw [h.dual _ f' (by simpa using hf) (by simpa using hnext) (by rw [Block.sizes_set, hsens]) hrest hfold,
      Block.dot_set_right (hw.trans hsens.symm) hsome, slotDot_modify h.size (hc.bound e he),
      hzero i k e.id (by simp)]
    simp only [Block.entry, hd, Option.getD_some]
    ring

omit [ExactRing K] in
/-- What a step clears is the slot of its own value. -/
theorem Adjoining.clean_set {e : Expr K}
    (h : Adjoining inputs outputs places slot t partials v w (l₁ ++ [.expr e]) l₂ a) {s : Nat}
    (hs : ∀ d ∈ Order.exprs l₁, slot d.id ≠ s) : (a.work.setIfInBounds (slot e.id) 0).getD s 0 = 0 := by
  rw [Array.getD_eq_getD_getElem?, Array.getElem?_setIfInBounds]
  split
  · split <;> rfl
  · next hne =>
    have hclean := h.clean s (by
      intro d hd
      rw [Order.exprs_append, List.mem_append] at hd
      obtain hd | hd := hd
      · exact hs d hd
      · obtain rfl : d = e := by simpa using hd
        exact hne)
    rwa [Array.getD_eq_getD_getElem?] at hclean

theorem Adjoining.symbol (hc : Compiled inputs outputs places l slot t)
    (hv : v.sizes = inputs.map Matrix.nnz) (hf : freeAmong places (Order.exprs l) = []) {y : Symbol}
    (hl : l = l₁ ++ .expr (.symbol y) :: l₂)
    (h : Adjoining inputs outputs places slot t partials v w (l₁ ++ [.expr (.symbol y)]) l₂ a) :
    ∃ a', Sweep.adjoint Arithmetic.numeric partials w a (elementAt places slot 0 (.expr (.symbol y))) =
        (pure a' : Id (Sweep K)) ∧
      Adjoining inputs outputs places slot t partials v w l₁ (.expr (.symbol y) :: l₂) a' := by
  have hy : Expr.symbol y ∈ Order.exprs l := by
    rw [hl]
    simp
  obtain ⟨i, k, hp⟩ := exists_place hf hy
  obtain ⟨e, ht, hid⟩ := hc.placed.mem _ i k hp
  have hsome := Block.target_isSome h.sizes ht
  obtain ⟨x, hx⟩ := Option.isSome_iff_exists.mp (Block.target_isSome hv ht)
  have hbound : slot y.id < t.worksize := hc.bound _ hy
  have hslot : a.work[slot y.id]? = some (a.work.getD (slot y.id) 0) := hc.getElem?_slot hy h.size
  -- This is the only load of the entry, so nothing has been stored there yet.
  have hunloaded : a.sens.entry i k = 0 := by
    refine h.unloaded i k fun s hs hps => ?_
    obtain ⟨d, hd, hds⟩ := hc.placed.mem _ i k hps
    obtain rfl := Order.targets_unique ht hd
    exact hc.complete.placed_once hl (.inr hs) (hds.symm.trans hid)
  refine ⟨_, adjoint_symbol hp hslot, by simpa using h.size, ?_, by rw [Block.sizes_set, h.sizes],
    fun j n hjn => ?_, fun s hs => h.clean_set hs, fun f f' hf hnext hsens hzero hfold => ?_⟩
  · simpa [Order.operations_cons_expr, Expr.op, Op.isStructural] using h.next
  · have hne : (i,k) ≠ (j,n) := by
      intro heq
      cases heq
      exact hjn y (by simp) hp
    rw [Block.entry, Block.get?_set_of_ne hne]
    exact h.unloaded j n fun s hs => hjn s (by simp [hs])
  · rw [List.map_cons, List.foldlM_cons, forward_symbol hp hx, pure_bind] at hfold
    have hdual := h.dual ⟨f.work.setIfInBounds (slot y.id) x, f.sens, f.next⟩ f' (by simpa using hf)
      (by simpa [Order.operations_cons_expr, Expr.op, Op.isStructural] using hnext) hsens
      (fun j n id hid => hzero j n id (by simpa using hid)) hfold
    dsimp only at hdual ⊢
    rw [hdual, slotDot_set_right hf hbound, slotDot_set_left h.size hbound, Block.dot_set_left hsome,
      hunloaded]
    simp only [Block.entry, hx, Option.getD_some]
    ring

theorem Adjoining.const (hc : Compiled inputs outputs places l slot t) {i : Nat} {c : K}
    (hl : l = l₁ ++ .expr (.const i c) :: l₂)
    (h : Adjoining inputs outputs places slot t partials v w (l₁ ++ [.expr (.const i c)]) l₂ a) :
    ∃ a', Sweep.adjoint Arithmetic.numeric partials w a (elementAt places slot 0 (.expr (.const i c))) =
        (pure a' : Id (Sweep K)) ∧
      Adjoining inputs outputs places slot t partials v w l₁ (.expr (.const i c) :: l₂) a' := by
  have hbound : slot i < t.worksize := hc.bound (.const i c) (by rw [hl]; simp)
  refine ⟨_, adjoint_const i c, by simpa using h.size, ?_, h.sizes,
    fun j n hjn => h.unloaded j n fun s hs => hjn s (by simp [hs]), fun s hs => h.clean_set hs,
    fun f f' hf hnext hsens hzero hfold => ?_⟩
  · simpa [Order.operations_cons_expr, Expr.op, Op.isStructural] using h.next
  · rw [List.map_cons, List.foldlM_cons, forward_const, pure_bind] at hfold
    have hdual := h.dual ⟨f.work.setIfInBounds (slot i) 0, f.sens, f.next⟩ f' (by simpa using hf)
      (by simpa [Order.operations_cons_expr, Expr.op, Op.isStructural] using hnext) hsens
      (fun j n id hid => hzero j n id (by simpa using hid)) hfold
    dsimp only at hdual ⊢
    rw [hdual, slotDot_set_right hf hbound, slotDot_set_left h.size hbound]
    ring

theorem Adjoining.operation (hc : Compiled inputs outputs places l slot t)
    (hp : partials.size = (Order.operations l).length) {e : Expr K} (he : e.op.isStructural = false)
    (hl : l = l₁ ++ .expr e :: l₂)
    (h : Adjoining inputs outputs places slot t partials v w (l₁ ++ [.expr e]) l₂ a) :
    ∃ a', Sweep.adjoint Arithmetic.numeric partials w a (elementAt places slot 0 (.expr e)) =
        (pure a' : Id (Sweep K)) ∧
      Adjoining inputs outputs places slot t partials v w l₁ (.expr e :: l₂) a' := by
  obtain ⟨x, y, hxy, hel⟩ := elementAt_operation places slot he
  have hx : x ∈ e.operands := (hxy x).mpr (.inl rfl)
  have hy : y ∈ e.operands := (hxy y).mpr (.inr rfl)
  have hel₁ : ∀ b ∈ e.operands, b ∈ Order.exprs l := by
    intro b hb
    rw [hl, Order.exprs_append]
    exact List.mem_append_left _ (hc.complete.operand hl hb)
  have hmem : e ∈ Order.exprs l := by
    rw [hl]
    simp
  have hnext : a.next = (Order.operations l₁).length+1 := by
    rw [h.next]
    simp [Order.operations_cons_expr, he]
  have hlt : (Order.operations l₁).length < partials.size := by
    rw [hp, hl]
    simp [Order.operations_cons_expr, he]
  have hpartial : partials[(Order.operations l₁).length]? = some partials[(Order.operations l₁).length] :=
    Array.getElem?_eq_getElem hlt
  generalize partials[(Order.operations l₁).length] = p at hpartial
  have hstep := adjoint_operation partials w a (elementAt places slot 0 (.expr e))
    (by rw [hel]; exact he) (by rw [hnext]; exact hpartial)
    (by rw [hel]; exact hc.getElem?_slot hmem h.size)
  rw [hel] at hstep ⊢
  refine ⟨_, hstep, by simpa using h.size, by simp [hnext], h.sizes,
    fun j n hjn => h.unloaded j n fun s hs => hjn s (by simp [hs]), fun s hs => ?_,
    fun f f' hf hfnext hsens hzero hfold => ?_⟩
  · have hclean := h.clean_set hs
    have hxs : slot x.id ≠ s := hs x (hc.complete.operand hl hx)
    have hys : slot y.id ≠ s := hs y (hc.complete.operand hl hy)
    simpa [Array.getD_eq_getD_getElem?, Array.getElem?_modify, hxs, hys] using hclean
  -- Forward, the tangent of the result is a sum of two products; backward, each operand gets its product.
  · have hxf := hc.getElem?_slot (hel₁ x hx) hf
    have hyf := hc.getElem?_slot (hel₁ y hy) hf
    rw [List.map_cons, List.foldlM_cons, hel, forward_operation he (by rw [hfnext]; exact hpartial) hxf hyf,
      pure_bind] at hfold
    have hdual := h.dual ⟨f.work.setIfInBounds (slot e.id)
        (p.1 * f.work.getD (slot x.id) 0 + p.2 * f.work.getD (slot y.id) 0), f.sens, f.next+1⟩ f'
      (by simpa using hf) (by simp [Order.operations_cons_expr, he, hfnext]) hsens
      (fun j n id hid => hzero j n id (by simpa using hid)) hfold
    dsimp only at hdual ⊢
    rw [hdual, slotDot_set_right hf (hc.bound e hmem),
      slotDot_modify (by simpa using h.size) (hc.bound y (hel₁ y hy)),
      slotDot_modify (by simpa using h.size) (hc.bound x (hel₁ x hx)),
      slotDot_set_left h.size (hc.bound e hmem)]
    ring

omit [ExactRing K] in
theorem Adjoining.start (hl : partials.size = (Order.operations l).length) {work : Array K}
    (hw : work.size = t.worksize) (hz : ∀ s, work.getD s 0 = 0) {sens : Block K}
    (hs : sens.sizes = inputs.map Matrix.nnz) (hsz : ∀ i k, sens.entry i k = 0) :
    Adjoining inputs outputs places slot t partials v w l [] ⟨work, sens, partials.size⟩ := by
  refine ⟨hw, hl, hs, fun i k _ => hsz i k, fun s _ => hz s, fun f f' _ _ _ _ hfold => ?_⟩
  obtain rfl : f = f' := hfold
  rw [slotDot_zero hz, Block.dot_zero hsz, zero_add, zero_add]

theorem foldrM_adjoint (hc : Compiled inputs outputs places l slot t)
    (hu : Expr.Coherent (Matrix.entries outputs)) (hf : freeAmong places (Order.exprs l) = [])
    (hp : partials.size = (Order.operations l).length) (hv : v.sizes = inputs.map Matrix.nnz)
    (hw : w.sizes = outputs.map Matrix.nnz) (hl : l = l₁ ++ l₂)
    (h : Adjoining inputs outputs places slot t partials v w l [] a) :
    ∃ a', (l₂.map (elementAt places slot 0)).foldrM
        (fun el a => Sweep.adjoint Arithmetic.numeric partials w a el) a = (pure a' : Id (Sweep K)) ∧
      Adjoining inputs outputs places slot t partials v w l₁ l₂ a' := by
  -- On the nodes that the sweep has passed, the last one first.
  induction l₂ generalizing l₁ with
  | nil =>
    rw [List.append_nil] at hl
    subst hl
    exact ⟨a, rfl, h⟩
  | cons n l₂ ih =>
    obtain ⟨mid, hmid, hadj⟩ := ih (show l = (l₁ ++ [n]) ++ l₂ by simpa using hl)
    have hstep : ∃ a', Sweep.adjoint Arithmetic.numeric partials w mid (elementAt places slot 0 n) =
        (pure a' : Id (Sweep K)) ∧
        Adjoining inputs outputs places slot t partials v w l₁ (n :: l₂) a' := by
      cases n with
      | store i k id => exact hadj.store hc hu hw hl
      | expr e =>
        have he : e.Proper := hc.complete.proper hu (.expr e) (by rw [hl]; simp)
        cases hop : e.op.isStructural with
        | false => exact hadj.operation hc hp hop hl
        | true =>
          obtain ⟨s, rfl⟩ | ⟨i, c, rfl⟩ := leaf_cases he hop
          · exact hadj.symbol hc hv hf hl
          · exact hadj.const hc hl
    obtain ⟨a', ha', hadj⟩ := hstep
    refine ⟨a', ?_, hadj⟩
    rw [List.map_cons, List.foldrM_cons, hmid, pure_bind, ha']

theorem clear_eq (sens : Block K) :
    (sens.mapM fun v => v.mapM fun _ => (Arithmetic.numeric : Arithmetic K K Id).zero) =
      (pure (sens.map (·.map fun _ => 0)) : Id (Block K)) := by
  simp [Arithmetic.numeric_zero]

omit [Number K] [ExactRing K] in
theorem entry_clear (sens : Block K) (i k : Nat) :
    Block.entry (sens.map (·.map fun _ => (0 : K))) i k = 0 := by
  cases hi : sens[i]? with
  | none => simp [Block.entry, Block.get?, hi]
  | some v => cases hk : v[k]? <;> simp [Block.entry, Block.get?, hi, hk]

omit [Number K] [ExactRing K] in
theorem sizes_clear (sens : Block K) : Block.sizes (sens.map (·.map fun _ => (0 : K))) = sens.sizes := by
  simp [Block.sizes, Function.comp_def]

/-- An adjoint sweep over zeros leaves zeros, uses up the records, and gives what is dual to every
forward sweep over cleared sensitivities. -/
theorem adjointSweep_dual (partials : Array (K × K)) (hc : Compiled inputs outputs places l slot t)
    (hu : Expr.Coherent (Matrix.entries outputs)) (hf : freeAmong places (Order.exprs l) = [])
    (hp : partials.size = (Order.operations l).length) {work : Array K} (hwork : work.size = t.worksize)
    (hz : ∀ s, work.getD s 0 = 0) {sens : Block K} (hs : sens.sizes = inputs.map Matrix.nnz)
    (hw : w.sizes = outputs.map Matrix.nnz) :
    ∃ a : Sweep K, t.adjointSweep Arithmetic.numeric partials work w sens = (pure a : Id (Sweep K)) ∧
      a.work.size = t.worksize ∧ (∀ s, a.work.getD s 0 = 0) ∧ a.next = 0 ∧
      a.sens.sizes = inputs.map Matrix.nnz ∧
      ∀ v : Block K, v.sizes = inputs.map Matrix.nnz → ∀ (work' : Array K) (sens' : Block K) (f : Sweep K),
        work'.size = t.worksize → sens'.sizes = outputs.map Matrix.nnz → (∀ i k, sens'.entry i k = 0) →
        t.forwardSweep Arithmetic.numeric partials work' v sens' = (pure f : Id (Sweep K)) →
        w.dot f.sens = a.sens.dot v := by
  have hadj (v : Block K) (hv : v.sizes = inputs.map Matrix.nnz) := foldrM_adjoint hc hu hf hp hv hw
    (List.nil_append l).symm (.start hp hwork hz (by rw [sizes_clear, hs]) (entry_clear sens))
  have hsweep : t.adjointSweep Arithmetic.numeric partials work w sens =
      (l.map (elementAt places slot 0)).foldrM
        (fun el a => Sweep.adjoint Arithmetic.numeric partials w a el)
        (⟨work, sens.map (·.map fun _ => 0), partials.size⟩ : Sweep K) := by
    rw [adjointSweep, clear_eq, pure_bind, ← Array.foldrM_toList, hc.elements,
      layout_eq_map places slot hf]
  obtain ⟨a, ha, h⟩ := hadj (sens.map (·.map fun _ => 0)) (by rw [sizes_clear, hs])
  refine ⟨a, hsweep.trans ha, h.size, fun s => h.clean s (by simp), h.next, h.sizes, ?_⟩
  intro v hv work' sens' f hwork' hsens' hzero hforward
  obtain ⟨a', ha', h'⟩ := hadj v hv
  obtain rfl : a = a' := ha.symm.trans ha'
  rw [forwardSweep, ← Array.foldlM_toList, hc.elements, layout_eq_map places slot hf] at hforward
  rw [h'.dual ⟨work', sens', 0⟩ f hwork' rfl hsens' (fun i k _ _ => hzero i k) hforward,
    slotDot_zero (fun s => h'.clean s (by simp)), zero_add]
  have hout : w.dot sens' = 0 := by
    rw [Block.dot_comm (hw.trans hsens'.symm), Block.dot_zero hzero]
  rw [hout, add_zero]

end Adjoint

end Fluxion.Tape
