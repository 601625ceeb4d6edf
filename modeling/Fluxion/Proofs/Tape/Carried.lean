import Fluxion.Proofs.Expr.Returns
import Fluxion.Proofs.Tape.Values

/-!
A replay over expressions that leaves free symbols as they are. Where a relation between the expressions of a tape and
those that the replay makes in their places holds of the symbols, and is kept by constants and operations, it holds of
the outputs.
-/
set_option autoImplicit false

namespace Fluxion

open Fluxion.Expr

variable {K : Type} [Number K]

namespace Tape

variable {ok : Op → Prop} {symbols roots roots' : List (Expr K)} {P : Expr K → Prop}
  {rel : List (Expr K) → Expr K → Expr K → Prop} {inputs outputs : Array (Matrix (Expr K))}
  {places : Std.HashMap Nat (Nat × Nat)} {l l₁ l₂ : List (Node K)} {slot : Nat → Nat} {t : Tape K} {n : Node K}
  {b : Buffers (Expr K)} {s : Replay (Expr K)}

/-- A relation to expressions that are there by then, kept by constants and by the operations of all nodes with the
property `P`. -/
structure Carries (ok : Op → Prop) (symbols : List (Expr K)) (P : Expr K → Prop)
    (rel : List (Expr K) → Expr K → Expr K → Prop) : Prop where
  subset {roots roots' : List (Expr K)} {e x : Expr K} : rel roots e x → roots ⊆ roots' → rel roots' e x
  const (roots : List (Expr K)) (i : Nat) (v : K) :
    Yields ok symbols roots (newConst v) fun roots' => rel roots' (.const i v)
  unary {roots : List (Expr K)} {i : Nat} {op : Op} {a x : Expr K} : P (.unary i op a) → rel roots a x →
    Yields ok symbols roots (Expr.apply op x x) fun roots' => rel roots' (.unary i op a)
  binary {roots : List (Expr K)} {i : Nat} {op : Op} {a c x y : Expr K} : P (.binary i op a c) → rel roots a x →
    rel roots c y → Yields ok symbols roots (Expr.apply op x y) fun roots' => rel roots' (.binary i op a c)

/-- The expression that a replay reads for a symbol is related to it. -/
def Reads (places : Std.HashMap Nat (Nat × Nat)) (rel : Expr K → Expr K → Prop) (x : Block (Expr K)) (s : Symbol) :
    Prop :=
  match places[s.id]? with
  | some (i,k) => ∃ e, x.get? i k = some e ∧ rel (.symbol s) e
  | none => rel (.symbol s) (.symbol s)

omit [Number K] in
theorem Reads.mono {rel rel' : Expr K → Expr K → Prop} {x : Block (Expr K)} {s : Symbol} (h : Reads places rel x s)
    (hr : ∀ e x, rel e x → rel' e x) : Reads places rel' x s := by
  unfold Reads at h ⊢
  split at h
  · exact h.imp fun e he => ⟨he.1, hr _ _ he.2⟩
  · exact hr _ _ h

namespace Carries

variable (hcarries : Carries ok symbols P rel)
include hcarries

/-- A node of the order, whose operands are related to what is in their slots. -/
theorem returns_node (hP : ∀ e, ReachedFrom (Matrix.entries outputs) e → P e)
    (hc : Compiled inputs outputs places l slot t) (hu : Coherent (Matrix.entries outputs))
    (hb : b.output.sizes = outputs.map Matrix.nnz) (hl : l = l₁ ++ n :: l₂)
    (hreads : ∀ y, .symbol y ∈ Order.exprs l → Reads places (rel roots) b.input y)
    (h : Midway outputs slot t (rel roots) b l₁ (n :: l₂) s) :
    Returns ok symbols roots (s.step Arithmetic.symbolic t false
      (elementAt places slot (freeAmong places (Order.exprs l₁)).length n)) fun roots' s' =>
        Midway outputs slot t (rel roots') b (l₁ ++ [n]) l₂ s' := by
  have hlater {roots' : List (Expr K)} (hr : roots ⊆ roots') : Midway outputs slot t (rel roots') b l₁ (n :: l₂) s :=
    h.mono fun _ _ hx => hcarries.subset hx hr
  cases n with
  | store i k id =>
    obtain ⟨x, hx, hk, hm⟩ := h.store hc hu hb hl
    have hstep := step_store Arithmetic.symbolic t false places slot hx hk
    exact hstep ▸ .pure hm
  | expr e =>
    have hmem : e ∈ Order.exprs l := by simp [hl]
    have hreached := (hc.complete.mem_exprs e).mp hmem
    have hproper := hu.proper e hreached
    have hPe := hP e hreached
    cases e with
    | symbol y =>
      have hy := hreads y hmem
      rw [Reads] at hy
      cases hp : places[y.id]? with
      | none =>
        rw [hp] at hy
        have hfree := hc.free_symbol hl hp
        simp only [elementAt, hp, Replay.step, hfree, Option.bind_some, Arithmetic.symbolic]
        exact .pure (h.expr hc hl hy s.partials)
      | some p =>
        rw [hp] at hy
        obtain ⟨x, hx, hrel⟩ := hy
        have hinput : s.buffers.input = b.input := by rw [h.buffers]
        rw [← hinput] at hx
        simp only [elementAt, hp, Replay.step, hx]
        exact .pure (h.expr hc hl hrel s.partials)
    | const i v =>
      exact .bind (.lift (hcarries.const roots i v)) fun _ _ hr hx => .pure ((hlater hr).expr hc hl hx s.partials)
    | unary i op a =>
      obtain ⟨x, hx, hrel⟩ := h.holds.operand hc hl (a := a) (by simp [operands])
      rw [elementAt, step_operation _ t false s hproper.1 hx hx]
      exact .bind (.lift (hcarries.unary hPe hrel)) fun _ _ hr hx => .pure ((hlater hr).expr hc hl hx s.partials)
    | binary i op a c =>
      obtain ⟨x, hx, hrel⟩ := h.holds.operand hc hl (a := a) (by simp [operands])
      obtain ⟨y, hy, hrel'⟩ := h.holds.operand hc hl (a := c) (by simp [operands])
      rw [elementAt, step_operation _ t false s (Op.isStructural_of_arity hproper.1) hx hy]
      exact .bind (.lift (hcarries.binary hPe hrel hrel')) fun _ _ hr hx =>
        .pure ((hlater hr).expr hc hl hx s.partials)

/-- The nodes of the order one after the other. -/
theorem returns_layout (hP : ∀ e, ReachedFrom (Matrix.entries outputs) e → P e)
    (hc : Compiled inputs outputs places l slot t) (hu : Coherent (Matrix.entries outputs))
    (hb : b.output.sizes = outputs.map Matrix.nnz) (hl : l = l₁ ++ l₂)
    (hreads : ∀ y, .symbol y ∈ Order.exprs l → Reads places (rel roots) b.input y)
    (h : Midway outputs slot t (rel roots) b [] l s) :
    Returns ok symbols roots ((layout places slot l₁).foldlM (Replay.step Arithmetic.symbolic t false) s)
      fun roots' s' => Midway outputs slot t (rel roots') b l₁ l₂ s' := by
  induction l₁ using List.reverseRecOn generalizing l₂ with
  | nil =>
    obtain rfl : l = l₂ := hl
    exact .pure h
  | append_singleton l₁ n ih =>
    have hl' : l = l₁ ++ n :: l₂ := by simpa using hl
    rw [layout_snoc, List.foldlM_append]
    refine .bind (ih hl') fun roots' s' hr hs' => ?_
    rw [List.foldlM_cons]
    have hreads' (y : Symbol) (hy : .symbol y ∈ Order.exprs l) : Reads places (rel roots') b.input y :=
      (hreads y hy).mono fun _ _ hrel => hcarries.subset hrel hr
    exact .bind (hcarries.returns_node hP hc hu hb hl' hreads' hs') fun _ _ _ h' => .pure h'

/-- What a replay leaves in the outputs is related to them. -/
theorem returns_evaluate (hP : ∀ e, ReachedFrom (Matrix.entries outputs) e → P e)
    (hc : Compiled inputs outputs places l slot t) (hu : Coherent (Matrix.entries outputs))
    (hb : b.output.sizes = outputs.map Matrix.nnz)
    (hreads : ∀ y, .symbol y ∈ Order.exprs l → Reads places (rel roots) b.input y) :
    Returns ok symbols roots (t.evaluate Arithmetic.symbolic b 0 0) fun roots' c =>
      c.output.sizes = outputs.map Matrix.nnz ∧
      ∀ i k e, (i,k,e) ∈ Order.targets outputs → ∃ x, c.output.get? i k = some x ∧ rel roots' e x := by
  rw [evaluate_zero, forwardPass, bind_assoc]
  refine .bind (.lift (yields_const Number.zero)) fun roots₁ z h₁ _ => ?_
  rw [← Array.foldlM_toList, hc.elements]
  have hreads₁ (y : Symbol) (hy : .symbol y ∈ Order.exprs l) : Reads places (rel roots₁) b.input y :=
    (hreads y hy).mono fun _ _ hrel => hcarries.subset hrel h₁
  refine .bind (hcarries.returns_layout hP hc hu hb (List.append_nil l).symm hreads₁
    (Midway.start outputs slot t (rel roots₁) b l z)) fun roots₂ r _ hr => .pure ⟨hr.stored.sizes.trans hb, ?_⟩
  intro i k e he
  exact hr.stored.exists_entry hc he

end Carries

end Tape

end Fluxion
