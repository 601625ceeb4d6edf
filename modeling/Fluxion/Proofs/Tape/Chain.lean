import Fluxion.Proofs.Tape.Values

/-!
The chain rule. A pass that records derivatives leaves those of every operation at its operands, and a
forward sweep gives each expression the derivative that they make up.
-/
set_option autoImplicit false

namespace Fluxion

variable {K : Type}

namespace Order

/-- The operations among the expressions of an order: each has a record of derivatives. -/
def operations (l : List (Node K)) : List (Expr K) := (exprs l).filter fun e => !e.op.isStructural

@[simp] theorem operations_nil : operations ([] : List (Node K)) = [] := rfl

@[simp] theorem operations_append (l m : List (Node K)) :
    operations (l ++ m) = operations l ++ operations m := by
  simp [operations]

@[simp] theorem operations_cons_store (i k id : Nat) (l : List (Node K)) :
    operations (Node.store i k id :: l) = operations l := rfl

theorem operations_cons_expr (e : Expr K) (l : List (Node K)) :
    operations (Node.expr e :: l) =
      if e.op.isStructural then operations l else e :: operations l := by
  cases h : e.op.isStructural <;> simp [operations, h]

end Order

variable [Number K]

/-- Every operation but the remainder has derivatives. -/
theorem Arithmetic.partials_isSome {op : Op} (hs : op.isStructural = false) (hr : op ≠ .rem)
    (a b r : K) : ((Arithmetic.numeric : Arithmetic K K Id).partials op a b r).run.isSome := by
  cases op <;> first
    | rfl
    | exact absurd rfl hr
    | cases hs

/-- The derivatives of an operation in its operands, at the values of its operands. -/
def Expr.slopes (ρ : Symbol → K) : Expr K → K × K
  | .symbol _ | .const _ _ => (Number.zero,Number.zero)
  | e@(.unary _ op a) =>
    ((Arithmetic.numeric : Arithmetic K K Id).partials op (a.value ρ) (a.value ρ) (e.value ρ)).run.getD
      (Number.zero,Number.zero)
  | e@(.binary _ op a b) =>
    ((Arithmetic.numeric : Arithmetic K K Id).partials op (a.value ρ) (b.value ρ) (e.value ρ)).run.getD
      (Number.zero,Number.zero)

/-- The derivative of an expression, from those of its symbols. -/
def Expr.derivative [CommRing K] (ρ δ : Symbol → K) : Expr K → K
  | .symbol s => δ s
  | .const _ _ => 0
  | e@(.unary _ _ a) => (e.slopes ρ).1 * a.derivative ρ δ
  | e@(.binary _ _ a b) => (e.slopes ρ).1 * a.derivative ρ δ + (e.slopes ρ).2 * b.derivative ρ δ

theorem Expr.slopes_unary (ρ : Symbol → K) (i : Nat) {op : Op} (hop : op.arity = 1) (a : Expr K) :
    ((Expr.unary i op a).slopes ρ).2 = Number.zero := by
  cases op <;> first
    | rfl
    | cases hop

namespace Expr

variable {ρ ρ' : Symbol → K}

/-- Values and derivatives depend on the symbols below alone. -/
theorem value_congr {e : Expr K} (h : ∀ s, Reaches (.symbol s) e → ρ s = ρ' s) :
    e.value ρ = e.value ρ' := by
  induction e with
  | symbol s => exact h s (.refl _)
  | const i v => rfl
  | unary i op a ih =>
    have ha := ih fun s hs => h s (hs.trans (.operand (by simp [operands])))
    rw [value, ha, value]
  | binary i op a b iha ihb =>
    have ha := iha fun s hs => h s (hs.trans (.operand (by simp [operands])))
    have hb := ihb fun s hs => h s (hs.trans (.operand (by simp [operands])))
    rw [value, ha, hb, value]

theorem slopes_congr {e : Expr K} (h : ∀ s, Reaches (.symbol s) e → ρ s = ρ' s) :
    e.slopes ρ = e.slopes ρ' := by
  have hvalue {a : Expr K} (ha : Reaches a e) : a.value ρ = a.value ρ' :=
    value_congr fun s hs => h s (hs.trans ha)
  cases e with
  | symbol _ | const _ _ => rfl
  | unary i op a =>
    rw [slopes, hvalue (.refl _), hvalue (a := a) (.operand (by simp [operands])), slopes]
  | binary i op a b =>
    rw [slopes, hvalue (.refl _), hvalue (a := a) (.operand (by simp [operands])),
      hvalue (a := b) (.operand (by simp [operands])), slopes]

theorem derivative_congr [CommRing K] {δ δ' : Symbol → K} {e : Expr K}
    (hρ : ∀ s, Reaches (.symbol s) e → ρ s = ρ' s) (hδ : ∀ s, Reaches (.symbol s) e → δ s = δ' s) :
    e.derivative ρ δ = e.derivative ρ' δ' := by
  induction e with
  | symbol s => exact hδ s (.refl _)
  | const i v => rfl
  | unary i op a ih =>
    have ha := ih (fun s hs => hρ s (hs.trans (.operand (by simp [operands]))))
      fun s hs => hδ s (hs.trans (.operand (by simp [operands])))
    rw [derivative, ha, slopes_congr hρ, derivative]
  | binary i op a b iha ihb =>
    have ha := iha (fun s hs => hρ s (hs.trans (.operand (by simp [operands]))))
      fun s hs => hδ s (hs.trans (.operand (by simp [operands])))
    have hb := ihb (fun s hs => hρ s (hs.trans (.operand (by simp [operands]))))
      fun s hs => hδ s (hs.trans (.operand (by simp [operands])))
    rw [derivative, ha, hb, slopes_congr hρ, derivative]

end Expr

namespace Tape

variable {inputs outputs : Array (Matrix (Expr K))} {places : Std.HashMap Nat (Nat × Nat)}
  {l l₁ l₂ : List (Node K)} {slot : Nat → Nat} {t : Tape K} {b : Buffers K} {s : Replay K}

/-- What a pass that records adds for one expression. -/
def pushSlopes (ρ : Symbol → K) (partials : Array (K × K)) (e : Expr K) : Array (K × K) :=
  if e.op.isStructural then partials else partials.push (e.slopes ρ)

theorem step_taped_operation {el : Element K} (t : Tape K) (s : Replay K)
    (hop : el.op.isStructural = false) (hr : el.op ≠ .rem) {x y : K} (hx : s.work[el.left]? = some x)
    (hy : s.work[el.right]? = some y) :
    s.step Arithmetic.numeric t true el =
      (pure ⟨s.work.setIfInBounds el.result (Number.eval el.op x y),
        s.partials.push (((Arithmetic.numeric : Arithmetic K K Id).partials el.op x y
          (Number.eval el.op x y)).run.getD (Number.zero,Number.zero)), s.buffers⟩ :
        ExceptT (Stopped K) Id (Replay K)) := by
  have happly : (Arithmetic.numeric : Arithmetic K K Id).apply el.op x y =
      pure (Number.eval el.op x y) := rfl
  obtain ⟨p, hp⟩ := Option.isSome_iff_exists.mp
    (Arithmetic.partials_isSome hop hr x y (Number.eval el.op x y))
  have hpartials : (Arithmetic.numeric : Arithmetic K K Id).partials el.op x y (Number.eval el.op x y) =
      pure (some p) := hp
  rw [step_operation _ t true s hop hx hy, happly]
  simp [hpartials]

theorem step_taped_expr (hc : Compiled inputs outputs places l slot t) {ρ : Symbol → K}
    (hs : Supplies places ρ s.buffers.input l) {e : Expr K} (he : e.Proper) (hr : e.op ≠ .rem)
    (hl : l = l₁ ++ .expr e :: l₂) (h : Holds slot (fun e x => x = e.value ρ) l₁ (.expr e :: l₂) s.work) :
    s.step Arithmetic.numeric t true (elementAt places slot 0 (.expr e)) =
      (pure ⟨s.work.setIfInBounds (slot e.id) (e.value ρ), pushSlopes ρ s.partials e, s.buffers⟩ :
        ExceptT (Stopped K) Id (Replay K)) := by
  cases e with
  | symbol y =>
    obtain ⟨i, k, hp, hx⟩ := hs y (by rw [hl]; simp)
    simp [elementAt, hp, Replay.step, hx, Expr.value, Expr.id, Replay.write, pushSlopes, Expr.op,
      Op.isStructural]
  | const i v =>
    have hlift : (Arithmetic.numeric : Arithmetic K K Id).lift v = pure v := rfl
    simp [elementAt, Replay.step, hlift, Expr.value, Expr.id, Replay.write, pushSlopes, Expr.op,
      Op.isStructural]
  | unary i op a =>
    obtain ⟨x, hx, rfl⟩ := h.operand hc hl (a := a) (by simp [Expr.operands])
    rw [step_taped_operation t s he.1 hr hx hx]
    simp only [pushSlopes, Expr.op, he.1]
    rfl
  | binary i op a c =>
    obtain ⟨x, hx, rfl⟩ := h.operand hc hl (a := a) (by simp [Expr.operands])
    obtain ⟨y, hy, rfl⟩ := h.operand hc hl (a := c) (by simp [Expr.operands])
    have hop := Op.isStructural_of_arity he.1
    rw [step_taped_operation t s hop hr hx hy]
    simp only [pushSlopes, Expr.op, hop]
    rfl

theorem pushSlopes_operations (ρ : Symbol → K) (l : List (Node K)) (e : Expr K) :
    pushSlopes ρ ((Order.operations l).map (Expr.slopes ρ)).toArray e =
      ((Order.operations (l ++ [.expr e])).map (Expr.slopes ρ)).toArray := by
  cases h : e.op.isStructural <;> simp [pushSlopes, Order.operations_cons_expr, h]

/-- Between the nodes `l₁` and `l₂` of a pass that records. -/
theorem foldlM_taped (hc : Compiled inputs outputs places l slot t)
    (hu : Expr.Coherent (Matrix.entries outputs)) (hb : b.output.sizes = outputs.map Matrix.nnz)
    {ρ : Symbol → K} (hs : Supplies places ρ b.input l) (hr : ∀ e ∈ Order.exprs l, e.op ≠ .rem)
    (hl : l = l₁ ++ l₂) (h : Midway outputs slot t (fun e x => x = e.value ρ) b l₁ l₂ s)
    (hp : s.partials = ((Order.operations l₁).map (Expr.slopes ρ)).toArray) :
    ∃ s', Midway outputs slot t (fun e x => x = e.value ρ) b l [] s' ∧
      s'.partials = ((Order.operations l).map (Expr.slopes ρ)).toArray ∧
      (l₂.map (elementAt places slot 0)).foldlM (Replay.step Arithmetic.numeric t true) s =
        (pure s' : ExceptT (Stopped K) Id (Replay K)) := by
  -- The record so far has the slopes of the nodes that are done.
  induction l₂ generalizing l₁ s with
  | nil =>
    rw [List.append_nil] at hl
    subst hl
    exact ⟨s, h, hp, rfl⟩
  | cons n l₂ ih =>
    cases n with
    | expr e =>
      have he : e.Proper := hc.complete.proper hu (.expr e) (by rw [hl]; simp)
      have hin : Supplies places ρ s.buffers.input l := by rw [h.buffers]; exact hs
      obtain ⟨s', hs', hp', hfold⟩ := ih (show l = (l₁ ++ [.expr e]) ++ l₂ by simpa using hl)
        (h.expr hc hl rfl (pushSlopes ρ s.partials e)) (by rw [hp, pushSlopes_operations])
      refine ⟨s', hs', hp', ?_⟩
      rw [List.map_cons, List.foldlM_cons,
        step_taped_expr hc hin he (hr e (by rw [hl]; simp)) hl h.holds, pure_bind]
      exact hfold
    | store i k id =>
      obtain ⟨x, hx, hk, hm⟩ := h.store hc hu hb hl
      obtain ⟨s', hs', hp', hfold⟩ := ih (show l = (l₁ ++ [.store i k id]) ++ l₂ by simpa using hl) hm
        (by simpa using hp)
      refine ⟨s', hs', hp', ?_⟩
      rw [List.map_cons, List.foldlM_cons, step_store _ _ _ _ _ hx hk, pure_bind]
      exact hfold

/-- A pass that records ends with the outputs and the derivatives of every operation. -/
theorem forwardPass_taped (hc : Compiled inputs outputs places l slot t)
    (hu : Expr.Coherent (Matrix.entries outputs)) (hf : freeAmong places (Order.exprs l) = [])
    (hb : b.output.sizes = outputs.map Matrix.nnz) {ρ : Symbol → K} (hs : Supplies places ρ b.input l)
    (hr : ∀ e ∈ Order.exprs l, e.op ≠ .rem) :
    ∃ work, work.size = t.worksize ∧
      t.forwardPass Arithmetic.numeric true b =
        (pure ⟨work, ((Order.operations l).map (Expr.slopes ρ)).toArray,
          {b with output := Block.ofEntries (Expr.value ρ) outputs}⟩ :
          ExceptT (Stopped K) Id (Replay K)) := by
  have hzero : (Arithmetic.numeric : Arithmetic K K Id).zero = pure Number.zero := rfl
  obtain ⟨r, hr, hp, hfold⟩ := foldlM_taped hc hu hb hs hr (List.nil_append l).symm
    (.start outputs slot t _ b l Number.zero) rfl
  rw [← layout_eq_map places slot hf, ← hc.elements, Array.foldlM_toList] at hfold
  refine ⟨r.work, hr.size, ?_⟩
  rw [forwardPass, hzero, ← hr.finish hc hb, ← hp]
  simp [hfold]

section Forward

variable [CommRing K] [ExactRing K] {partials : Array (K × K)} {seed : Block K} {f : Sweep K}

theorem forward_operation {el : Element K} (hop : el.op.isStructural = false) {d : K × K} {x y : K}
    (hp : partials[f.next]? = some d) (hx : f.work[el.left]? = some x)
    (hy : f.work[el.right]? = some y) :
    Sweep.forward Arithmetic.numeric partials seed f el =
      (pure ⟨f.work.setIfInBounds el.result (d.1*x+d.2*y), f.sens, f.next+1⟩ : Id (Sweep K)) := by
  obtain ⟨p, q⟩ := d
  have hunfold : Sweep.forward Arithmetic.numeric partials seed f el = (do
      let d ←
        if el.left = el.right then do
          Arithmetic.numeric.mul (← (Arithmetic.numeric : Arithmetic K K Id).add p q) x
        else do
          Arithmetic.numeric.add (← (Arithmetic.numeric : Arithmetic K K Id).mul p x)
            (← Arithmetic.numeric.mul q y)
      return ⟨f.work.setIfInBounds el.result d, f.sens, f.next+1⟩ : Id (Sweep K)) := by
    obtain ⟨op, result, left, right, v⟩ := el
    cases op
    case input | output | const | parameter => cases hop
    all_goals
      unfold Sweep.forward
      simp only [hp, hx, hy]
  rw [hunfold]
  split
  · next h =>
    rw [← h, hx] at hy
    cases hy
    simp [Arithmetic.numeric_add, Arithmetic.numeric_mul, add_mul]
  · simp [Arithmetic.numeric_add, Arithmetic.numeric_mul]

omit [CommRing K] [ExactRing K] in
theorem forward_symbol {y : Symbol} {i k : Nat} {x : K} (hp : places[y.id]? = some (i,k))
    (hx : seed.get? i k = some x) :
    Sweep.forward Arithmetic.numeric partials seed f (elementAt places slot 0 (.expr (.symbol y))) =
      (pure ⟨f.work.setIfInBounds (slot y.id) x, f.sens, f.next⟩ : Id (Sweep K)) := by
  simp [elementAt, hp, Sweep.forward, hx]

theorem forward_const (i : Nat) (v : K) :
    Sweep.forward Arithmetic.numeric partials seed f (elementAt places slot 0 (.expr (.const i v))) =
      (pure ⟨f.work.setIfInBounds (slot i) 0, f.sens, f.next⟩ : Id (Sweep K)) := by
  simp [elementAt, Sweep.forward, Arithmetic.numeric_zero]

omit [CommRing K] [ExactRing K] in
theorem forward_store {i k id : Nat} {x : K} (hx : f.work[slot id]? = some x) :
    Sweep.forward Arithmetic.numeric partials seed f (elementAt places slot 0 (.store i k id)) =
      (pure ⟨f.work, f.sens.set i k x, f.next⟩ : Id (Sweep K)) := by
  simp [elementAt, Sweep.forward, hx]

/-- A forward sweep between the nodes `l₁` and `l₂`; the block `before` is what it found in the
sensitivities. -/
structure Sweeping (outputs : Array (Matrix (Expr K))) (slot : Nat → Nat) (t : Tape K) (val : Expr K → K)
    (before : Block K) (l₁ l₂ : List (Node K)) (f : Sweep K) : Prop where
  size : f.work.size = t.worksize
  holds : Holds slot (fun e x => x = val e) l₁ l₂ f.work
  stored : Stored outputs (fun e x => x = val e) l₁ before f.sens
  next : f.next = (Order.operations l₁).length

variable {ρ δ : Symbol → K} {before : Block K}

omit [CommRing K] [ExactRing K] [Number K] in
theorem Sweeping.start (outputs : Array (Matrix (Expr K))) (slot : Nat → Nat) (t : Tape K)
    (val : Expr K → K) (before : Block K) (l : List (Node K)) {work : Array K}
    (hw : work.size = t.worksize) :
    Sweeping outputs slot t val before [] l ⟨work, before, 0⟩ :=
  ⟨hw, holds_nil _ _ _ _, .refl _ _ _, rfl⟩

omit [CommRing K] [ExactRing K] in
theorem Sweeping.expr (hc : Compiled inputs outputs places l slot t) {val : Expr K → K} {e : Expr K}
    (hl : l = l₁ ++ .expr e :: l₂) (h : Sweeping outputs slot t val before l₁ (.expr e :: l₂) f) :
    Sweeping outputs slot t val before (l₁ ++ [.expr e]) l₂
      ⟨f.work.setIfInBounds (slot e.id) (val e), f.sens,
        (Order.operations (l₁ ++ [.expr e])).length⟩ :=
  ⟨by simpa using h.size, h.holds.expr hc hl h.size rfl, h.stored.expr e, rfl⟩

omit [ExactRing K] [CommRing K] [Number K] in
theorem Sweeping.store {val : Expr K → K} {i k : Nat} {e : Expr K}
    (hb : before.sizes = outputs.map Matrix.nnz) (ht : (i,k,e) ∈ Order.targets outputs)
    (h : Sweeping outputs slot t val before l₁ (.store i k e.id :: l₂) f) :
    Sweeping outputs slot t val before (l₁ ++ [.store i k e.id]) l₂
      ⟨f.work, f.sens.set i k (val e), f.next⟩ :=
  ⟨h.size, h.holds.store, h.stored.store hb ht rfl, by simpa using h.next⟩

omit [CommRing K] [ExactRing K] in
theorem Sweeping.slopes (ρ : Symbol → K) {val : Expr K → K} {e : Expr K} (hl : l = l₁ ++ .expr e :: l₂)
    (he : e.op.isStructural = false) (h : Sweeping outputs slot t val before l₁ (.expr e :: l₂) f) :
    ((Order.operations l).map (Expr.slopes ρ)).toArray[f.next]? = some (e.slopes ρ) := by
  rw [hl, h.next]
  simp [Order.operations_cons_expr, he]

theorem forward_expr (hc : Compiled inputs outputs places l slot t) (hs : Supplies places δ seed l)
    {e : Expr K} (he : e.Proper) (hl : l = l₁ ++ .expr e :: l₂)
    (h : Sweeping outputs slot t (Expr.derivative ρ δ) before l₁ (.expr e :: l₂) f) :
    Sweep.forward Arithmetic.numeric ((Order.operations l).map (Expr.slopes ρ)).toArray seed f
        (elementAt places slot 0 (.expr e)) =
      (pure ⟨f.work.setIfInBounds (slot e.id) (e.derivative ρ δ), f.sens,
        (Order.operations (l₁ ++ [.expr e])).length⟩ : Id (Sweep K)) := by
  cases e with
  | symbol y =>
    obtain ⟨i, k, hp, hx⟩ := hs y (by rw [hl]; simp)
    rw [forward_symbol hp hx]
    simp [Expr.derivative, Expr.id, h.next, Order.operations_cons_expr, Expr.op, Op.isStructural]
  | const i v =>
    rw [forward_const]
    simp [Expr.derivative, Expr.id, h.next, Order.operations_cons_expr, Expr.op, Op.isStructural]
  | unary i op a =>
    obtain ⟨x, hx, rfl⟩ := h.holds.operand hc hl (a := a) (by simp [Expr.operands])
    have hp := h.slopes ρ hl he.1
    rw [forward_operation he.1 hp hx hx]
    simp [elementAt, Expr.derivative, Expr.slopes_unary ρ i he.2.1, Expr.id, h.next,
      Order.operations_cons_expr, Expr.op, he.1]
  | binary i op a c =>
    obtain ⟨x, hx, rfl⟩ := h.holds.operand hc hl (a := a) (by simp [Expr.operands])
    obtain ⟨y, hy, rfl⟩ := h.holds.operand hc hl (a := c) (by simp [Expr.operands])
    have hop := Op.isStructural_of_arity he.1
    have hp := h.slopes ρ hl hop
    rw [forward_operation hop hp hx hy]
    simp [elementAt, Expr.derivative, Expr.id, h.next, Order.operations_cons_expr, Expr.op, hop]

theorem foldlM_forward (hc : Compiled inputs outputs places l slot t)
    (hu : Expr.Coherent (Matrix.entries outputs)) (hb : before.sizes = outputs.map Matrix.nnz)
    (hs : Supplies places δ seed l) (hl : l = l₁ ++ l₂)
    (h : Sweeping outputs slot t (Expr.derivative ρ δ) before l₁ l₂ f) :
    ∃ f', Sweeping outputs slot t (Expr.derivative ρ δ) before l [] f' ∧
      (l₂.map (elementAt places slot 0)).foldlM
          (Sweep.forward Arithmetic.numeric ((Order.operations l).map (Expr.slopes ρ)).toArray seed) f =
        (pure f' : Id (Sweep K)) := by
  induction l₂ generalizing l₁ f with
  | nil =>
    rw [List.append_nil] at hl
    subst hl
    exact ⟨f, h, rfl⟩
  | cons n l₂ ih =>
    cases n with
    | expr e =>
      have he : e.Proper := hc.complete.proper hu (.expr e) (by rw [hl]; simp)
      obtain ⟨f', hf', hfold⟩ := ih (show l = (l₁ ++ [.expr e]) ++ l₂ by simpa using hl) (h.expr hc hl)
      refine ⟨f', hf', ?_⟩
      rw [List.map_cons, List.foldlM_cons, forward_expr hc hs he hl h, pure_bind]
      exact hfold
    | store i k id =>
      obtain ⟨e, ht, rfl, x, hx, rfl⟩ := h.holds.target hc hu hl
      obtain ⟨f', hf', hfold⟩ := ih (show l = (l₁ ++ [.store i k e.id]) ++ l₂ by simpa using hl)
        (h.store hb ht)
      refine ⟨f', hf', ?_⟩
      rw [List.map_cons, List.foldlM_cons, forward_store hx, pure_bind]
      exact hfold

/-- A forward sweep gives every output entry the derivative of its expression, whatever stood in the
work slots and in the sensitivities. -/
theorem forwardSweep_eq (ρ : Symbol → K) (hc : Compiled inputs outputs places l slot t)
    (hu : Expr.Coherent (Matrix.entries outputs)) (hf : freeAmong places (Order.exprs l) = [])
    {work : Array K} (hw : work.size = t.worksize) (hb : before.sizes = outputs.map Matrix.nnz)
    (hs : Supplies places δ seed l) :
    ∃ work' n, work'.size = t.worksize ∧
      t.forwardSweep Arithmetic.numeric ((Order.operations l).map (Expr.slopes ρ)).toArray work seed
          before =
        (pure ⟨work', Block.ofEntries (Expr.derivative ρ δ) outputs, n⟩ : Id (Sweep K)) := by
  obtain ⟨f, hf', hfold⟩ := foldlM_forward hc hu hb hs (List.nil_append l).symm
    (.start outputs slot t (Expr.derivative ρ δ) before l hw)
  rw [← layout_eq_map places slot hf, ← hc.elements, Array.foldlM_toList] at hfold
  refine ⟨f.work, f.next, hf'.size, ?_⟩
  rw [forwardSweep, ← hf'.stored.finish hc hb, hfold]

end Forward

end Tape

end Fluxion
