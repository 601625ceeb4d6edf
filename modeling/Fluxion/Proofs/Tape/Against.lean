import Fluxion.Proofs.Tape.Cleared

/-!
Reverse sweeps, one direction at a time. A sweep takes out of the work array whatever it put in, so the next
one starts from zeros again, and the sensitivities for a seed are a function of the seed and of the derivatives
that the pass recorded.
-/
set_option autoImplicit false

namespace Fluxion.Tape

variable {K : Type} [Number K] {inputs outputs : Array (Matrix (Expr K))}
  {places : Std.HashMap Nat (Nat × Nat)} {l : List (Node K)} {slot : Nat → Nat} {t : Tape K}
  {partials : Array (K × K)} {ins : Array Nat}

/-- The sensitivities for one adjoint seed. -/
def against (t : Tape K) (ins : Array Nat) (partials : Array (K × K)) (seed : Block K) : Block K :=
  (Id.run (t.adjointSweep .numeric partials (.replicate t.worksize Number.zero) seed
    (Block.filled ins Number.zero))).sens

theorem sizes_against (t : Tape K) (ins : Array Nat) (partials : Array (K × K)) (seed : Block K) :
    (t.against ins partials seed).sizes = ins :=
  (adjointSweep_beside partials seed t _ (Block.sizes_filled ins Number.zero) (Block.sizes_filled _ Number.zero)).2

theorem isStructural_elementAt (free : Nat) (n : Node K) :
    (elementAt places slot free n).op.isStructural = (Order.operations [n]).isEmpty := by
  cases n with
  | store i k id => rfl
  | expr e =>
    rw [Order.operations_cons_expr]
    cases e with
    | symbol y => cases hy : places[y.id]? <;> simp [elementAt, hy, Op.isStructural, Expr.op]
    | const i v => rfl
    | unary i op a => cases hop : op.isStructural <;> simp [elementAt, Expr.op, hop]
    | binary i op a b => cases hop : op.isStructural <;> simp [elementAt, Expr.op, hop]

/-- There is one element for each operation. -/
theorem Compiled.operationCount_eq (hc : Compiled inputs outputs places l slot t) :
    t.operationCount = (Order.operations l).length := by
  have hlayout := map_layout (f := fun el : Element K => !el.op.isStructural) places slot l fun free n => by
    rw [isStructural_elementAt, isStructural_elementAt]
  have hcount (l : List (Node K)) :
      ((l.map (elementAt places slot 0)).map fun el : Element K => !el.op.isStructural).countP id =
        (Order.operations l).length := by
    induction l with
    | nil => rfl
    | cons n l ih =>
      rw [List.map_cons, List.map_cons, List.countP_cons, ih, isStructural_elementAt,
        ← List.singleton_append (l := l), Order.operations_append, List.length_append]
      cases n with
      | store i k id => simp
      | expr e =>
        rw [Order.operations_cons_expr]
        cases e.op.isStructural <;> simp [Nat.add_comm]
  rw [operationCount, ← Array.countP_toList, hc.elements, ← hcount l, ← hlayout, List.countP_map]
  rfl

/-- A reverse sweep over zeros uses up the records and leaves zeros, whatever the seed. -/
theorem adjointSweep_against (hc : Compiled inputs outputs places l slot t)
    (hu : Expr.Coherent (Matrix.entries outputs)) (hp : partials.size = (Order.operations l).length)
    (seed : Block K) {sens : Block K} (hsens : sens.sizes = ins) :
    t.adjointSweep .numeric partials (.replicate t.worksize Number.zero) seed sens =
      (pure ⟨.replicate t.worksize Number.zero, t.against ins partials seed, 0⟩ : Id (Sweep K)) ∧
    (t.against ins partials seed).sizes = ins := by
  have hswept := (hc.grounded hu).adjointSweep (m := Id) (A := .numeric) (Z := (· = Number.zero))
    (hp.trans hc.operationCount_eq.symm) (SatisfiesM_Id_eq.mpr rfl) Array.size_replicate
    (fun x hx => (Array.mem_replicate.mp hx).2) seed sens
  rw [SatisfiesM_Id_eq] at hswept
  obtain ⟨hnext, hzeros⟩ := hswept
  have hsame := (adjointSweep_beside partials seed t (.replicate t.worksize Number.zero)
    (Block.sizes_filled ins Number.zero) hsens).1
  refine ⟨Sweep.ext (Array.eq_replicate_iff.mpr hzeros) ?_ hnext, sizes_against t ins partials seed⟩
  rw [against, hsame]
  rfl

end Fluxion.Tape
