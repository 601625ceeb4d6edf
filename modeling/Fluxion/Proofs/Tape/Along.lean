import Fluxion.Proofs.Tape.Beside
import Fluxion.Proofs.Tape.Chain

/-!
Forward sweeps, one direction at a time. A slot is read after it was written in the same sweep, so the
sensitivities along a seed are a function of the seed and of the derivatives that the pass recorded, over
numbers of which nothing is known.
-/
set_option autoImplicit false

namespace Fluxion.Tape

variable {K : Type} [Number K] {inputs outputs : Array (Matrix (Expr K))}
  {places : Std.HashMap Nat (Nat × Nat)} {l l₁ l₂ : List (Node K)} {slot : Nat → Nat} {t : Tape K}
  {partials : Array (K × K)} {seed : Block K} {outs : Array Nat} {s s' : Sweep K}

/-- The sensitivities along one forward seed, over cleared work slots. -/
def along (t : Tape K) (outs : Array Nat) (partials : Array (K × K)) (seed : Block K) : Block K :=
  (Id.run (t.forwardSweep .numeric partials (.replicate t.worksize Number.zero) seed
    (Block.filled outs Number.zero))).sens

theorem sizes_along (t : Tape K) (outs : Array Nat) (partials : Array (K × K)) (seed : Block K) :
    (t.along outs partials seed).sizes = outs := by
  rw [along, forwardSweep, ← Array.foldlM_toList]
  refine foldlM_id (P := fun s : Sweep K => s.sens.sizes = outs) (fun s el hs => ?_) _ (Block.sizes_filled _ _)
  by_cases hop : el.op = .output
  · obtain ⟨work, sens, next⟩ := s
    unfold Sweep.forward
    simp only [hop]
    split
    · exact (Block.sizes_set _ _ _ _).trans hs
    · exact hs
  · obtain ⟨w, n, -, hrun⟩ := Sweep.forward_pass partials seed hop s.work s.next
    exact (congrArg (fun r : Id (Sweep K) => (Id.run r).sens.sizes) (hrun s.sens)).trans hs

/-! ### Operations -/

/-- What a forward sweep gives an operation, from its derivatives and the tangents of its operands. -/
def tangentAt (el : Element K) (p q x y : K) : K :=
  if el.left = el.right then Number.mul (Number.add p q) x
  else Number.add (Number.mul p x) (Number.mul q y)

theorem forward_operation_eq {el : Element K} (hop : el.op.isStructural = false) {s : Sweep K} {p q x y : K}
    (hp : partials[s.next]? = some (p,q)) (hx : s.work[el.left]? = some x) (hy : s.work[el.right]? = some y) :
    Sweep.forward .numeric partials seed s el =
      (pure ⟨s.work.setIfInBounds el.result (tangentAt el p q x y), s.sens, s.next+1⟩ : Id (Sweep K)) := by
  obtain ⟨op, result, left, right, v⟩ := el
  have hunfold : Sweep.forward .numeric partials seed s ⟨op, result, left, right, v⟩ = (do
      let d ←
        if left = right then do
          Arithmetic.numeric.mul (← (Arithmetic.numeric : Arithmetic K K Id).add p q) x
        else do
          Arithmetic.numeric.add (← (Arithmetic.numeric : Arithmetic K K Id).mul p x)
            (← Arithmetic.numeric.mul q y)
      return ⟨s.work.setIfInBounds result d, s.sens, s.next+1⟩ : Id (Sweep K)) := by
    cases op
    case input | output | const | parameter => cases hop
    all_goals
      unfold Sweep.forward
      simp only [hp, hx, hy]
  rw [hunfold, tangentAt]
  split
  · rfl
  · rfl

/-- A symbol without a place and a constant have the tangent zero. -/
theorem forward_leaf {el : Element K} (hop : el.op = .const ∨ el.op = .parameter) (s : Sweep K) :
    Sweep.forward .numeric partials seed s el =
      (pure ⟨s.work.setIfInBounds el.result Number.zero, s.sens, s.next⟩ : Id (Sweep K)) := by
  obtain ⟨op, result, left, right, v⟩ := el
  obtain rfl | rfl : op = .const ∨ op = .parameter := hop
  · rfl
  · rfl

/-! ### Two sweeps -/

omit [Number K] in
/-- Two arrays that are written in the same place. -/
theorem zip_setIfInBounds {work work' : Array K} (h : work'.size = work.size) (i : Nat) (x y : K) :
    (work.setIfInBounds i x).zip (work'.setIfInBounds i y) = (work.zip work').setIfInBounds i (x,y) := by
  refine Array.ext_getElem? fun j => ?_
  simp only [Array.zip_eq_zipWith, Array.getElem?_zipWith, Array.getElem?_setIfInBounds, Array.size_zipWith, h,
    Nat.min_self]
  by_cases hij : i = j
  · subst hij
    by_cases hi : i < work.size <;> simp [hi]
  · simp only [if_neg hij]

/-- Two forward sweeps between the nodes `l₁` and `l₂`: the slots that are still to be read hold the same, and
so do the entries that were stored. -/
structure Sweep.Abreast (outs : Array Nat) (slot : Nat → Nat) (t : Tape K) (l₁ l₂ : List (Node K))
    (s s' : Sweep K) : Prop where
  size : s.work.size = t.worksize
  size' : s'.work.size = t.worksize
  next : s.next = (Order.operations l₁).length
  next' : s'.next = s.next
  holds : Holds slot (fun _ x => x.2 = x.1) l₁ l₂ (s.work.zip s'.work)
  sizes : s.sens.sizes = outs
  sizes' : s'.sens.sizes = outs
  stored : ∀ i k id, (i,k,id) ∈ Order.stores l₁ → s'.sens.get? i k = s.sens.get? i k

/-- Both write the tangent of a node to its slot. -/
theorem Sweep.Abreast.expr (hc : Compiled inputs outputs places l slot t) {e : Expr K}
    (hl : l = l₁ ++ .expr e :: l₂) (h : Sweep.Abreast outs slot t l₁ (.expr e :: l₂) s s') (x : K) :
    Sweep.Abreast outs slot t (l₁ ++ [.expr e]) l₂
      ⟨s.work.setIfInBounds (slot e.id) x, s.sens, (Order.operations (l₁ ++ [.expr e])).length⟩
      ⟨s'.work.setIfInBounds (slot e.id) x, s'.sens, (Order.operations (l₁ ++ [.expr e])).length⟩ where
  size := by simpa using h.size
  size' := by simpa using h.size'
  next := rfl
  next' := rfl
  holds := by
    rw [zip_setIfInBounds (h.size'.trans h.size.symm)]
    exact h.holds.expr hc hl (by simp [h.size, h.size']) rfl
  sizes := h.sizes
  sizes' := h.sizes'
  stored i k id hid := h.stored i k id (by simpa using hid)

/-- Both read the same tangent of an operand. -/
theorem Sweep.Abreast.operand (hc : Compiled inputs outputs places l slot t) {e a : Expr K}
    (hl : l = l₁ ++ .expr e :: l₂) (h : Sweep.Abreast outs slot t l₁ (.expr e :: l₂) s s')
    (ha : a ∈ e.operands) : ∃ x, s.work[slot a.id]? = some x ∧ s'.work[slot a.id]? = some x := by
  obtain ⟨x, hx, hsame⟩ := h.holds.operand hc hl ha
  have hboth := Array.getElem?_zip_eq_some.mp hx
  exact ⟨x.1, hboth.1, hsame ▸ hboth.2⟩

theorem Sweep.Abreast.store (hc : Compiled inputs outputs places l slot t)
    (hu : Expr.Coherent (Matrix.entries outputs)) {i k id : Nat} (hl : l = l₁ ++ .store i k id :: l₂)
    (h : Sweep.Abreast outs slot t l₁ (.store i k id :: l₂) s s') :
    Sweep.Abreast outs slot t (l₁ ++ [.store i k id]) l₂
      (Id.run (Sweep.forward .numeric partials seed s (elementAt places slot 0 (.store i k id))))
      (Id.run (Sweep.forward .numeric partials seed s' (elementAt places slot 0 (.store i k id)))) := by
  obtain ⟨e, -, -, x, hx, hsame⟩ := h.holds.target hc hu hl
  obtain ⟨hleft, hright⟩ := Array.getElem?_zip_eq_some.mp hx
  rw [forward_store hleft, forward_store hright]
  refine ⟨h.size, h.size', by simpa using h.next, h.next', h.holds.store, (Block.sizes_set _ _ _ _).trans h.sizes,
    (Block.sizes_set _ _ _ _).trans h.sizes', fun j n d hd => ?_⟩
  rw [show x.2 = x.1 from hsame]
  refine Block.get?_set_congr (h.sizes'.trans h.sizes.symm) _ ?_
  rw [Order.stores_append, List.mem_append] at hd
  obtain hd | hd := hd
  · exact .inr (h.stored j n d hd)
  · simp only [Order.stores_cons_store, Order.stores_nil, List.mem_singleton, Prod.mk.injEq] at hd
    exact .inl (by rw [hd.1, hd.2.1])

/-- What a sweep writes for a symbol or a constant is the same whatever its slots hold: the seed has an entry for
every symbol that has a place. -/
theorem forward_structural (hc : Compiled inputs outputs places l slot t) (partials : Array (K × K))
    (hseed : seed.sizes = inputs.map Matrix.nnz) {e : Expr K} (he : e.Proper) (hop : e.op.isStructural = true) :
    ∃ x, ∀ r : Sweep K, Sweep.forward .numeric partials seed r (elementAt places slot 0 (.expr e)) =
      (pure ⟨r.work.setIfInBounds (slot e.id) x, r.sens, r.next⟩ : Id (Sweep K)) := by
  obtain ⟨y, rfl⟩ | ⟨i, v, rfl⟩ := leaf_cases he hop
  · cases hplace : places[y.id]? with
    | none =>
      refine ⟨Number.zero, fun r => ?_⟩
      simp only [elementAt, hplace]
      exact forward_leaf (.inr rfl) r
    | some place =>
      obtain ⟨i, k⟩ := place
      obtain ⟨d, ht, -⟩ := hc.placed.mem _ i k hplace
      obtain ⟨x, hx⟩ := Option.isSome_iff_exists.mp (Block.target_isSome hseed ht)
      exact ⟨x, fun r => forward_symbol hplace hx⟩
  · exact ⟨Number.zero, fun r => forward_leaf (.inl rfl) r⟩

/-- Both write the same tangent for an operation: there is a record for each. -/
theorem Sweep.Abreast.operation (hc : Compiled inputs outputs places l slot t)
    (hp : partials.size = (Order.operations l).length) (seed : Block K) {e : Expr K} (hl : l = l₁ ++ .expr e :: l₂)
    (h : Sweep.Abreast outs slot t l₁ (.expr e :: l₂) s s') (hop : e.op.isStructural = false) :
    ∃ x, ∀ r : Sweep K, r = s ∨ r = s' → Sweep.forward .numeric partials seed r (elementAt places slot 0 (.expr e)) =
      (pure ⟨r.work.setIfInBounds (slot e.id) x, r.sens, r.next+1⟩ : Id (Sweep K)) := by
  obtain ⟨a, b, hab, hel⟩ := elementAt_operation places slot hop
  obtain ⟨x, hx, hx'⟩ := h.operand hc hl ((hab a).mpr (.inl rfl))
  obtain ⟨y, hy, hy'⟩ := h.operand hc hl ((hab b).mpr (.inr rfl))
  have hlt : s.next < partials.size := by
    rw [h.next, hp, hl]
    simp [Order.operations_cons_expr, hop]
  refine ⟨tangentAt (elementAt places slot 0 (.expr e)) partials[s.next].1 partials[s.next].2 x y, ?_⟩
  have hrecord : partials[s.next]? = some partials[s.next] := Array.getElem?_eq_getElem hlt
  rw [hel]
  rintro r (rfl | rfl)
  · exact forward_operation_eq hop hrecord hx hy
  · exact forward_operation_eq hop (by rw [h.next', hrecord]) hx' hy'

theorem Sweep.Abreast.step (hc : Compiled inputs outputs places l slot t)
    (hu : Expr.Coherent (Matrix.entries outputs)) (hseed : seed.sizes = inputs.map Matrix.nnz)
    (hp : partials.size = (Order.operations l).length) {n : Node K} (hl : l = l₁ ++ n :: l₂)
    (h : Sweep.Abreast outs slot t l₁ (n :: l₂) s s') :
    Sweep.Abreast outs slot t (l₁ ++ [n]) l₂
      (Id.run (Sweep.forward .numeric partials seed s (elementAt places slot 0 n)))
      (Id.run (Sweep.forward .numeric partials seed s' (elementAt places slot 0 n))) := by
  cases n with
  | store i k id => exact h.store hc hu hl
  | expr e =>
    -- Whatever the node is, both sweeps write the same number and count alike.
    suffices hboth : ∃ x, ∀ r : Sweep K, r = s ∨ r = s' →
        Sweep.forward .numeric partials seed r (elementAt places slot 0 (.expr e)) =
          (pure ⟨r.work.setIfInBounds (slot e.id) x, r.sens, (Order.operations (l₁ ++ [.expr e])).length⟩ :
            Id (Sweep K)) by
      obtain ⟨x, hx⟩ := hboth
      rw [hx s (.inl rfl), hx s' (.inr rfl)]
      exact h.expr hc hl x
    have hnext : ∀ r : Sweep K, r = s ∨ r = s' → r.next = (Order.operations l₁).length := by
      rintro r (rfl | rfl)
      · exact h.next
      · exact h.next'.trans h.next
    rw [Order.operations_append, Order.operations_cons_expr]
    cases hop : e.op.isStructural with
    | true =>
      obtain ⟨x, hx⟩ := forward_structural hc partials hseed
        (hc.complete.proper hu (.expr e) (by rw [hl]; simp)) hop
      refine ⟨x, fun r hr => ?_⟩
      rw [hx, hnext r hr]
      simp
    | false =>
      obtain ⟨x, hx⟩ := h.operation hc hp seed hl hop
      refine ⟨x, fun r hr => ?_⟩
      rw [hx r hr, hnext r hr]
      simp

theorem Sweep.Abreast.foldlM (hc : Compiled inputs outputs places l slot t)
    (hu : Expr.Coherent (Matrix.entries outputs)) (hseed : seed.sizes = inputs.map Matrix.nnz)
    (hp : partials.size = (Order.operations l).length) (hl : l = l₁ ++ l₂)
    (h : Sweep.Abreast outs slot t l₁ l₂ s s') :
    Sweep.Abreast outs slot t l []
      (Id.run ((l₂.map (elementAt places slot 0)).foldlM (Sweep.forward .numeric partials seed) s))
      (Id.run ((l₂.map (elementAt places slot 0)).foldlM (Sweep.forward .numeric partials seed) s')) := by
  induction l₂ generalizing l₁ s s' with
  | nil =>
    rw [List.append_nil] at hl
    subst hl
    exact h
  | cons n l₂ ih => exact ih (show l = (l₁ ++ [n]) ++ l₂ by simpa using hl) (h.step hc hu hseed hp hl)

/-- A sweep does not look at the number of a free symbol. -/
theorem forward_elementAt (s : Sweep K) (free : Nat) (n : Node K) :
    Sweep.forward (.numeric : Arithmetic K K Id) partials seed s (elementAt places slot free n) =
      Sweep.forward (.numeric : Arithmetic K K Id) partials seed s (elementAt places slot 0 n) := by
  cases n with
  | store i k id => rfl
  | expr e =>
    cases e with
    | symbol y => cases hy : places[y.id]? <;> simp [elementAt, hy, Sweep.forward]
    | const | unary | binary => rfl

theorem forwardSweep_layout (partials : Array (K × K)) (seed : Block K)
    (hc : Compiled inputs outputs places l slot t) (work : Array K) (sens : Block K) :
    t.forwardSweep .numeric partials work seed sens =
      ((l.map (elementAt places slot 0)).foldlM (Sweep.forward .numeric partials seed) ⟨work, sens, 0⟩ :
        Id (Sweep K)) := by
  have hlayout := map_layout (f := fun el s => Sweep.forward (.numeric : Arithmetic K K Id) partials seed s el) places
    slot l fun free n => funext fun s => forward_elementAt s free n
  have hfold := congrArg (List.foldlM (fun s step => step s) (⟨work, sens, 0⟩ : Sweep K)) hlayout
  rw [List.foldlM_map, List.foldlM_map, ← hc.elements, Array.foldlM_toList] at hfold
  exact hfold

/-- Whatever stood in the work slots and in the sensitivities. -/
theorem forwardSweep_along (hc : Compiled inputs outputs places l slot t)
    (hu : Expr.Coherent (Matrix.entries outputs)) (hcovers : t.Covers outs)
    (hp : partials.size = (Order.operations l).length) (hseed : seed.sizes = inputs.map Matrix.nnz)
    {work : Array K} (hwork : work.size = t.worksize) {sens : Block K} (hsens : sens.sizes = outs) :
    ∃ s : Sweep K, t.forwardSweep .numeric partials work seed sens = (pure s : Id (Sweep K)) ∧
      s.work.size = t.worksize ∧ s.sens = t.along outs partials seed ∧ s.sens.sizes = outs := by
  have hstart : Sweep.Abreast outs slot t [] l ⟨.replicate t.worksize Number.zero, Block.filled outs Number.zero, 0⟩
      ⟨work, sens, 0⟩ :=
    ⟨by simp, hwork, rfl, rfl, holds_nil _ _ _ _, Block.sizes_filled _ _, hsens, by simp [Order.stores]⟩
  have h := hstart.foldlM hc hu hseed hp (List.nil_append l).symm
  refine ⟨_, forwardSweep_layout partials seed hc work sens, h.size', ?_, h.sizes'⟩
  rw [along, forwardSweep_layout partials seed hc]
  refine hcovers.eq h.sizes h.sizes' fun el hel hop => ?_
  rw [← Array.mem_toList_iff, hc.elements] at hel
  obtain ⟨p, hget⟩ := List.mem_iff_getElem?.mp hel
  rw [layout_getElem?] at hget
  obtain ⟨n, hn, rfl⟩ := Option.map_eq_some_iff.mp hget
  cases n with
  | expr e => exact absurd hop (op_elementAt_expr _ _ _ (hc.complete.proper hu (.expr e) (List.mem_of_getElem? hn)))
  | store i k id => exact h.stored i k id (Order.mem_stores.mpr (List.mem_of_getElem? hn))

end Fluxion.Tape
