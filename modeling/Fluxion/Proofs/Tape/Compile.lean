import Fluxion.Proofs.Tape.Elements

/-!
A tape beside the order it is made from. Whatever the options, the elements are those of the order, and
the value of a node stays in its slot until the last node that reads it.
-/
set_option autoImplicit false

namespace Fluxion

variable {K : Type}

/-- The nodes in the order that a sorting asks for. -/
def Order.sorted (outputs : Array (Matrix (Expr K))) : Sorting → Array (Node K)
  | .depthFirst => Order.depthFirst outputs
  | .breadthFirst => Order.byLevel (Order.depthFirst outputs)

theorem Order.complete_sorted {outputs : Array (Matrix (Expr K))}
    (h : Expr.Coherent (Matrix.entries outputs)) (sorting : Sorting) :
    Order.Complete outputs (Order.sorted outputs sorting).toList := by
  have hd := Order.complete_depthFirst h
  cases sorting with
  | depthFirst => exact hd
  | breadthFirst => exact Order.complete_byLevel hd

theorem Order.Complete.perm {outputs : Array (Matrix (Expr K))} {l m : List (Node K)}
    (hl : Order.Complete outputs l) (hm : Order.Complete outputs m) :
    (Order.exprs l).Perm (Order.exprs m) := by
  refine (List.perm_ext_iff_of_nodup hl.placed.nodup.of_map hm.placed.nodup.of_map).mpr fun e => ?_
  rw [hl.mem_exprs, hm.mem_exprs]

namespace Tape

variable [Number K]

/-- A tape of an order of nodes; `slot` gives the slot of the expression with a number. No two
expressions of which one is still to be read share a slot. -/
structure Compiled (inputs outputs : Array (Matrix (Expr K))) (places : Std.HashMap Nat (Nat × Nat))
    (l : List (Node K)) (slot : Nat → Nat) (t : Tape K) : Prop where
  placed : Places inputs places
  complete : Order.Complete outputs l
  elements : t.elements.toList = layout places slot l
  free : t.free.toList = freeAmong places (Order.exprs l)
  bound : ∀ e ∈ Order.exprs l, slot e.id < t.worksize
  apart : ∀ l₁ e l₂, l = l₁ ++ .expr e :: l₂ → ∀ a ∈ Order.exprs l₁, ∀ n ∈ l₂, a.id ∈ n.reads →
    slot a.id ≠ slot e.id
  inputSizes : t.inputSizes = inputs.map Matrix.nnz
  outputSizes : t.outputSizes = outputs.map Matrix.nnz

/-- A free symbol has the number under which the tape keeps it. -/
theorem Compiled.free_symbol {inputs outputs : Array (Matrix (Expr K))} {places : Std.HashMap Nat (Nat × Nat)}
    {l l₁ l₂ : List (Node K)} {slot : Nat → Nat} {t : Tape K} (hc : Compiled inputs outputs places l slot t)
    {y : Symbol} (hl : l = l₁ ++ .expr (.symbol y) :: l₂) (hy : places[y.id]? = none) :
    t.free[(freeAmong places (Order.exprs l₁)).length]? = some y := by
  have hone : freeAmong places (Order.exprs [.expr (.symbol y : Expr K)]) = [y] := by
    rw [freeAmong, Order.exprs]
    simp [Node.expr?, Expr.symbol?, hy]
  have hsplit : l = l₁ ++ ([.expr (.symbol y)] ++ l₂) := hl
  rw [← Array.getElem?_toList, hc.free, hsplit, Order.exprs_append, Order.exprs_append, freeAmong_append,
    freeAmong_append, hone, List.getElem?_append_right (Nat.le_refl _), Nat.sub_self]
  rfl

theorem ofGraph_eq (inputs outputs : Array (Matrix (Expr K))) (live : Bool) (sorting : Sorting) :
    ofGraph inputs outputs live sorting = do
      let places ← inputPlaces inputs
      let els := elementsOf places (Order.sorted outputs sorting)
      let done := allocate live els.1
      return ⟨done.1, done.2, inputs.map Matrix.nnz, outputs.map Matrix.nnz, els.2⟩ := by
  cases sorting <;> simp only [ofGraph, Order.sorted]

theorem exists_ofGraph {inputs : Array (Matrix (Expr K))} (h : DistinctSymbols inputs)
    (outputs : Array (Matrix (Expr K))) (live : Bool) (sorting : Sorting) :
    ∃ t, ofGraph inputs outputs live sorting = .ok t := by
  obtain ⟨places, hp⟩ := exists_inputPlaces h
  rw [ofGraph_eq, hp]
  exact ⟨_, rfl⟩

/-- Elements that refer to the nodes of an order by position, and the tape that has them on slots. -/
structure Laid (inputs outputs : Array (Matrix (Expr K))) (live : Bool) (places : Std.HashMap Nat (Nat × Nat))
    (l : List (Node K)) (pos : Nat → Nat) (els : Array (Element K)) (t : Tape K) : Prop where
  placed : Places inputs places
  complete : Order.Complete outputs l
  position : ∀ p e, l[p]? = some (.expr e) → pos e.id = p
  layout : els.toList = layout places pos l
  positional : Slots.Positional els.toList
  elements : t.elements = (allocate live els).1
  worksize : t.worksize = (allocate live els).2
  free : t.free.toList = freeAmong places (Order.exprs l)
  inputSizes : t.inputSizes = inputs.map Matrix.nnz
  outputSizes : t.outputSizes = outputs.map Matrix.nnz

section Laid

variable {inputs outputs : Array (Matrix (Expr K))} {live : Bool} {sorting : Sorting} {t : Tape K}
  {places : Std.HashMap Nat (Nat × Nat)} {l : List (Node K)} {pos : Nat → Nat} {els : Array (Element K)}

theorem ofGraph_laid (h : Expr.Coherent (Matrix.entries outputs))
    (ht : ofGraph inputs outputs live sorting = .ok t) :
    ∃ places pos els, Laid inputs outputs live places (Order.sorted outputs sorting).toList pos els t := by
  have hc := Order.complete_sorted h sorting
  rw [ofGraph_eq] at ht
  cases hp : inputPlaces inputs with
  | error f => rw [hp] at ht; cases ht
  | ok places =>
    rw [hp] at ht
    cases ht
    generalize Order.sorted outputs sorting = nodes at hc
    obtain ⟨hels, hfree⟩ := elementsOf_eq places hc.placed
    have hpos : ∀ p e, nodes.toList[p]? = some (Node.expr e) → (Order.positions nodes).getD e.id 0 = p :=
      fun p e he => positions_getD hc.placed he
    exact ⟨places, _, _, inputPlaces_places hp, hc, hpos, hels, hels ▸ positional_layout places h hc hpos, rfl, rfl,
      hfree, rfl, rfl⟩

/-- Slots are given by position, and positions by the order of the nodes. -/
theorem Laid.compiled (hd : Laid inputs outputs live places l pos els t)
    (h : Expr.Coherent (Matrix.entries outputs)) : ∃ slot, Compiled inputs outputs places l slot t := by
  have hproper := hd.complete.proper h
  obtain ⟨slot, ha⟩ := Slots.allocate_allocation live hd.positional
  refine ⟨fun id => slot (pos id), hd.placed, hd.complete, ?_, hd.free, ?_, ?_, hd.inputSizes, hd.outputSizes⟩
  · rw [hd.elements, ha.elements, hd.layout, layout_relabel places pos slot hproper]
  · intro e he
    obtain ⟨p, hp⟩ := List.mem_iff_getElem?.mp (Order.mem_exprs.mp he)
    rw [hd.worksize]
    refine ha.bound _ ?_
    rw [hd.layout, isValue_layout places pos hproper, hd.position p e hp]
    exact ⟨e, hp⟩
  · intro l₁ e l₂ hl a hal n hn hread
    obtain ⟨q, hq⟩ := List.mem_iff_getElem?.mp (Order.mem_exprs.mp hal)
    obtain ⟨r, hr⟩ := List.mem_iff_getElem?.mp hn
    have hqlt := (List.getElem?_eq_some_iff.mp hq).1
    have hq' : l[q]? = some (Node.expr a) := by
      rw [hl, List.getElem?_append_left hqlt, hq]
    have hi' : l[l₁.length]? = some (Node.expr e) := by simp [hl]
    have hr' : l[l₁.length+1+r]? = some n := by
      rw [hl, List.getElem?_append_right (by omega),
        show l₁.length+1+r-l₁.length = r+1 by omega, List.getElem?_cons_succ, hr]
    refine ha.apart _ _ (l₁.length+1+r) (elementAt places pos
        (freeAmong places (Order.exprs (l.take (l₁.length+1+r)))).length n)
      (by rw [hd.position q a hq', hd.position _ e hi']; exact hqlt) (by rw [hd.position _ e hi']; omega) ?_ ?_ ?_
    · rw [hd.layout, isValue_layout places pos hproper, hd.position _ e hi']
      exact ⟨e, hi'⟩
    · rw [hd.layout, layout_getElem?, hr']
      rfl
    · rw [reads_elementAt places pos _ (hproper n (List.mem_of_getElem? hr'))]
      exact List.mem_map_of_mem hread

theorem ofGraph_compiled (h : Expr.Coherent (Matrix.entries outputs))
    (ht : ofGraph inputs outputs live sorting = .ok t) :
    ∃ places slot, Compiled inputs outputs places (Order.sorted outputs sorting).toList slot t := by
  obtain ⟨places, _, _, hd⟩ := ofGraph_laid h ht
  exact ⟨places, hd.compiled h⟩

end Laid

end Tape

end Fluxion
