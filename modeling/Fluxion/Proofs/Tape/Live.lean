import Fluxion.Proofs.Tape.Compile
import Fluxion.Tape.Replay

/-!
What the work slots and the outputs hold in the middle of a tape: the slot of every expression that is
still to be read holds its value, and every output entry that has been stored holds the value of its
expression. Both are kept by each node, for values of any kind.
-/
set_option autoImplicit false

namespace Fluxion

variable {K T : Type}

namespace Block

/-- The entries of matrices, each put through `f`. -/
def ofEntries {U : Type} (f : U → T) (ms : Array (Matrix U)) : Block T := ms.map (·.values.map f)

theorem sizes_ofEntries {U : Type} (f : U → T) (ms : Array (Matrix U)) :
    (ofEntries f ms).sizes = ms.map Matrix.nnz := by
  simp [sizes, ofEntries, Matrix.nnz, Function.comp_def]

theorem get?_isSome {b : Block T} {ns : Array Nat} (h : b.sizes = ns) {i k : Nat} :
    (b.get? i k).isSome ↔ ∃ n, ns[i]? = some n ∧ k < n := by
  subst h
  cases hi : b[i]? with
  | none => simp [get?, sizes, hi]
  | some v => simp [get?, sizes, hi]

theorem target_isSome {b : Block T} {ms : Array (Matrix (Expr K))} (h : b.sizes = ms.map Matrix.nnz)
    {i k : Nat} {e : Expr K} (he : (i,k,e) ∈ Order.targets ms) : (b.get? i k).isSome := by
  obtain ⟨m, hm, hk⟩ := Order.mem_targets.mp he
  rw [get?_isSome h]
  exact ⟨m.nnz, by simp [hm], (Array.getElem?_eq_some_iff.mp hk).1⟩

theorem ext_get? {a b : Block T} (hs : a.sizes = b.sizes)
    (h : ∀ i k x, a.get? i k = some x → b.get? i k = some x) : a = b := by
  have hsize : a.size = b.size := by simpa [sizes] using congrArg Array.size hs
  refine Array.ext hsize fun i ha hb => ?_
  have hi : a[i].size = b[i].size := by
    have := congrArg (fun a : Array Nat => a[i]?) hs
    simpa [sizes, ha, hb] using this
  refine Array.ext hi fun k hk hk' => ?_
  have := h i k a[i][k] (by simp [get?, ha, hk])
  simpa [get?, hb, hk'] using this.symm

theorem get?_ofEntries (f : Expr K → T) (ms : Array (Matrix (Expr K))) {i k : Nat} {x : T} :
    (ofEntries f ms).get? i k = some x ↔ ∃ e, (i,k,e) ∈ Order.targets ms ∧ f e = x := by
  simp only [Order.mem_targets]
  cases hi : ms[i]? with
  | none => simp [get?, ofEntries, hi]
  | some m => simp [get?, ofEntries, hi]

theorem eq_ofEntries {b : Block T} {f : Expr K → T} {ms : Array (Matrix (Expr K))}
    (hs : b.sizes = ms.map Matrix.nnz)
    (h : ∀ i k e, (i,k,e) ∈ Order.targets ms → b.get? i k = some (f e)) : b = ofEntries f ms := by
  refine (ext_get? (by rw [hs, sizes_ofEntries]) fun i k x hx => ?_).symm
  obtain ⟨e, he, rfl⟩ := (get?_ofEntries f ms).mp hx
  exact h i k e he

end Block

namespace Tape

/-- The value of `e` is read by some node of the list. -/
def Awaited (l : List (Node K)) (e : Expr K) : Prop := ∃ n ∈ l, e.id ∈ n.reads

theorem Awaited.cons {l : List (Node K)} {e : Expr K} (h : Awaited l e) (n : Node K) :
    Awaited (n :: l) e := by
  obtain ⟨m, hm, he⟩ := h
  exact ⟨m, List.mem_cons_of_mem _ hm, he⟩

theorem Awaited.operand {l : List (Node K)} {a e : Expr K} (h : a ∈ e.operands) :
    Awaited (.expr e :: l) a :=
  ⟨.expr e, List.mem_cons_self, List.mem_map_of_mem h⟩

/-- Between the nodes `l₁` and `l₂`: every expression that is still to be read has in its slot a value
that stands for it. -/
def Holds (slot : Nat → Nat) (P : Expr K → T → Prop) (l₁ l₂ : List (Node K)) (work : Array T) : Prop :=
  ∀ e ∈ Order.exprs l₁, Awaited l₂ e → ∃ x, work[slot e.id]? = some x ∧ P e x

theorem holds_nil (slot : Nat → Nat) (P : Expr K → T → Prop) (l : List (Node K)) (work : Array T) :
    Holds slot P [] l work := by
  intro e he
  simp [Order.exprs] at he

theorem Holds.mono {slot : Nat → Nat} {P Q : Expr K → T → Prop} {l₁ l₂ : List (Node K)} {work : Array T}
    (h : Holds slot P l₁ l₂ work) (hpq : ∀ e x, P e x → Q e x) : Holds slot Q l₁ l₂ work := by
  intro e he ha
  obtain ⟨x, hx, hp⟩ := h e he ha
  exact ⟨x, hx, hpq e x hp⟩

theorem Holds.store {slot : Nat → Nat} {P : Expr K → T → Prop} {l₁ l₂ : List (Node K)}
    {work : Array T} {i k id : Nat} (h : Holds slot P l₁ (.store i k id :: l₂) work) :
    Holds slot P (l₁ ++ [.store i k id]) l₂ work := by
  intro e he ha
  exact h e (by simpa using he) (ha.cons _)

variable [Number K] {inputs outputs : Array (Matrix (Expr K))} {places : Std.HashMap Nat (Nat × Nat)}
  {l l₁ l₂ : List (Node K)} {slot : Nat → Nat} {t : Tape K} {P : Expr K → T → Prop} {work : Array T}
  {b : Buffers T} {s : Replay T}

/-- The value of a node goes to its slot, where nothing stands that is still to be read. -/
theorem Holds.expr (hc : Compiled inputs outputs places l slot t) {e : Expr K}
    (hl : l = l₁ ++ .expr e :: l₂) (hw : work.size = t.worksize)
    (h : Holds slot P l₁ (.expr e :: l₂) work) {x : T} (hx : P e x) :
    Holds slot P (l₁ ++ [.expr e]) l₂ (work.setIfInBounds (slot e.id) x) := by
  have hb : slot e.id < work.size := by
    rw [hw]
    exact hc.bound e (by rw [hl]; simp)
  intro a ha hawaited
  rw [Order.exprs_append, List.mem_append] at ha
  obtain ha | ha := ha
  · obtain ⟨n, hn, hread⟩ := hawaited
    have hne := hc.apart l₁ e l₂ hl a ha n hn hread
    rw [Array.getElem?_setIfInBounds_ne (Ne.symm hne)]
    exact h a ha (Awaited.cons ⟨n, hn, hread⟩ _)
  · obtain rfl : a = e := by simpa using ha
    exact ⟨x, by simp [hb], hx⟩

/-- A node finds its operands. -/
theorem Holds.operand (hc : Compiled inputs outputs places l slot t) {e a : Expr K}
    (hl : l = l₁ ++ .expr e :: l₂) (h : Holds slot P l₁ (.expr e :: l₂) work) (ha : a ∈ e.operands) :
    ∃ x, work[slot a.id]? = some x ∧ P a x := by
  exact h a (hc.complete.operand hl ha) (.operand ha)

/-- A store is into the entry of an expression, whose value it finds. -/
theorem Holds.target (hc : Compiled inputs outputs places l slot t)
    (hu : Expr.Coherent (Matrix.entries outputs)) {i k id : Nat}
    (hl : l = l₁ ++ .store i k id :: l₂) (h : Holds slot P l₁ (.store i k id :: l₂) work) :
    ∃ e, (i,k,e) ∈ Order.targets outputs ∧ e.id = id ∧ ∃ x, work[slot id]? = some x ∧ P e x := by
  obtain ⟨e, he, ht, rfl⟩ := hc.complete.store hu hl
  exact ⟨e, ht, rfl, h e he ⟨_, List.mem_cons_self, by simp [Node.reads]⟩⟩

/-- After the nodes `l₁`: entries that were stored have a value that stands for their expression, and
the others are as they were. -/
structure Stored (outputs : Array (Matrix (Expr K))) (P : Expr K → T → Prop) (l₁ : List (Node K))
    (before after : Block T) : Prop where
  sizes : after.sizes = before.sizes
  stored : ∀ i k e, (i,k,e) ∈ Order.targets outputs → (i,k,e.id) ∈ Order.stores l₁ →
    ∃ x, after.get? i k = some x ∧ P e x
  kept : ∀ i k, (∀ id, (i,k,id) ∉ Order.stores l₁) → after.get? i k = before.get? i k

omit [Number K] in
theorem Stored.refl (outputs : Array (Matrix (Expr K))) (P : Expr K → T → Prop) (b : Block T) :
    Stored outputs P [] b b :=
  ⟨rfl, by simp [Order.stores], fun _ _ _ => rfl⟩

omit [Number K] in
theorem Stored.mono {Q : Expr K → T → Prop} {before after : Block T} (h : Stored outputs P l₁ before after)
    (hpq : ∀ e x, P e x → Q e x) : Stored outputs Q l₁ before after := by
  refine ⟨h.sizes, fun i k e he hs => ?_, h.kept⟩
  obtain ⟨x, hx, hp⟩ := h.stored i k e he hs
  exact ⟨x, hx, hpq e x hp⟩

omit [Number K] in
theorem Stored.expr {before after : Block T} (h : Stored outputs P l₁ before after) (e : Expr K) :
    Stored outputs P (l₁ ++ [.expr e]) before after :=
  ⟨h.sizes, by simpa using h.stored, by simpa using h.kept⟩

omit [Number K] in
theorem Stored.store {before after : Block T} (h : Stored outputs P l₁ before after)
    (hb : before.sizes = outputs.map Matrix.nnz) {i k : Nat} {e : Expr K}
    (ht : (i,k,e) ∈ Order.targets outputs) {x : T} (hx : P e x) :
    Stored outputs P (l₁ ++ [.store i k e.id]) before (after.set i k x) := by
  refine ⟨by rw [Block.sizes_set, h.sizes], fun j n d hd hs => ?_, fun j n hs => ?_⟩
  · by_cases hjn : (i,k) = (j,n)
    · cases hjn
      obtain rfl := Order.targets_unique ht hd
      have hsome := Block.target_isSome (h.sizes.trans hb) ht
      exact ⟨x, Block.get?_set_self hsome x, hx⟩
    · rw [Block.get?_set_of_ne hjn]
      refine h.stored j n d hd ?_
      rw [Order.stores_append, List.mem_append] at hs
      obtain hs | hs := hs
      · exact hs
      · simp only [Order.stores_cons_store, Order.stores_nil, List.mem_singleton, Prod.mk.injEq] at hs
        exact absurd (by rw [hs.1, hs.2.1]) hjn
  · have hjn : (i,k) ≠ (j,n) := by
      intro he
      cases he
      exact hs e.id (by simp)
    rw [Block.get?_set_of_ne hjn]
    exact h.kept j n fun id hid => hs id (by simp [hid])

/-- At the end of the order every entry has a value that stands for its expression. -/
theorem Stored.exists_entry (hc : Compiled inputs outputs places l slot t) {before after : Block T}
    (h : Stored outputs P l before after) {i k : Nat} {e : Expr K} (he : (i,k,e) ∈ Order.targets outputs) :
    ∃ x, after.get? i k = some x ∧ P e x := by
  refine h.stored i k e he ?_
  rw [hc.complete.stores_eq]
  exact List.mem_map.mpr ⟨_, he, rfl⟩

theorem Stored.finish (hc : Compiled inputs outputs places l slot t) {val : Expr K → T}
    {before after : Block T} (hb : before.sizes = outputs.map Matrix.nnz)
    (h : Stored outputs (fun e x => x = val e) l before after) :
    after = Block.ofEntries val outputs := by
  refine Block.eq_ofEntries (h.sizes.trans hb) fun i k e he => ?_
  obtain ⟨x, hx, rfl⟩ := h.exists_entry hc he
  exact hx

/-- A replay between the nodes `l₁` and `l₂` that began with the buffers `b`. -/
structure Midway (outputs : Array (Matrix (Expr K))) (slot : Nat → Nat) (t : Tape K)
    (P : Expr K → T → Prop) (b : Buffers T) (l₁ l₂ : List (Node K)) (s : Replay T) : Prop where
  size : s.work.size = t.worksize
  holds : Holds slot P l₁ l₂ s.work
  stored : Stored outputs P l₁ b.output s.buffers.output
  buffers : s.buffers = {b with output := s.buffers.output}

omit [Number K] in
theorem Midway.start (outputs : Array (Matrix (Expr K))) (slot : Nat → Nat) (t : Tape K)
    (P : Expr K → T → Prop) (b : Buffers T) (l : List (Node K)) (z : T) :
    Midway outputs slot t P b [] l ⟨.replicate t.worksize z, #[], b⟩ :=
  ⟨by simp, holds_nil _ _ _ _, .refl _ _ _, rfl⟩

omit [Number K] in
theorem Midway.mono {Q : Expr K → T → Prop} (h : Midway outputs slot t P b l₁ l₂ s) (hpq : ∀ e x, P e x → Q e x) :
    Midway outputs slot t Q b l₁ l₂ s :=
  ⟨h.size, h.holds.mono hpq, h.stored.mono hpq, h.buffers⟩

theorem Midway.expr (hc : Compiled inputs outputs places l slot t) {e : Expr K}
    (hl : l = l₁ ++ .expr e :: l₂) (h : Midway outputs slot t P b l₁ (.expr e :: l₂) s) {x : T}
    (hx : P e x) (partials : Array (T × T)) :
    Midway outputs slot t P b (l₁ ++ [.expr e]) l₂
      ⟨s.work.setIfInBounds (slot e.id) x, partials, s.buffers⟩ :=
  ⟨by simp [h.size], h.holds.expr hc hl h.size hx, h.stored.expr e, h.buffers⟩

theorem Midway.store (hc : Compiled inputs outputs places l slot t)
    (hu : Expr.Coherent (Matrix.entries outputs)) (hb : b.output.sizes = outputs.map Matrix.nnz)
    {i k id : Nat} (hl : l = l₁ ++ .store i k id :: l₂)
    (h : Midway outputs slot t P b l₁ (.store i k id :: l₂) s) :
    ∃ x, s.work[slot id]? = some x ∧ (s.buffers.output.get? i k).isSome ∧
      Midway outputs slot t P b (l₁ ++ [.store i k id]) l₂
        ⟨s.work, s.partials, {s.buffers with output := s.buffers.output.set i k x}⟩ := by
  obtain ⟨e, ht, rfl, x, hx, hp⟩ := h.holds.target hc hu hl
  have hsome := Block.target_isSome (h.stored.sizes.trans hb) ht
  refine ⟨x, hx, hsome, h.size, h.holds.store, h.stored.store hb ht hp, ?_⟩
  rw [h.buffers]

theorem Midway.finish (hc : Compiled inputs outputs places l slot t) {val : Expr K → T}
    (hb : b.output.sizes = outputs.map Matrix.nnz)
    (h : Midway outputs slot t (fun e x => x = val e) b l [] s) :
    s.buffers = {b with output := Block.ofEntries val outputs} := by
  have hs := h.stored.finish hc hb
  rw [h.buffers, hs]

end Tape

end Fluxion
