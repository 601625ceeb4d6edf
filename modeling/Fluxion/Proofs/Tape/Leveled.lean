import Mathlib.Data.List.Permutation
import Fluxion.Proofs.Tape.Values

/-!
The order by levels beside the depth-first order that it is made from, and the elements that are made from it. Stores
go to the end, and whatever an element refers to is referred to by its new position.
-/
set_option autoImplicit false

namespace Fluxion

variable {K : Type}

namespace Order

/-- How the order by levels `m` lies to the order `l` that it is made from. -/
structure Leveled (outputs : Array (Matrix (Expr K))) (l m : List (Node K)) : Prop where
  perm : m.Perm l
  split : m = (exprs m).map .expr ++ (targets outputs).map fun (i,k,e) => .store i k e.id
  ascending : (exprs m).Pairwise (·.level ≤ ·.level)
  stable : ∀ n, (exprs m).filter (·.level = n) = (exprs l).filter (·.level = n)
  operands : ∀ (p : Nat) (e : Expr K), m[p]? = some (.expr e) → ∀ a ∈ e.operands, ∃ q < p, m[q]? = some (.expr a)

/-- Where the stores rank above all levels, they are at the end. -/
theorem eq_exprs_append_stores {count : Nat} {m : List (Node K)} (hm : m.Pairwise (rank count · ≤ rank count ·))
    (hlevel : ∀ e ∈ exprs m, e.level < count) :
    m = (exprs m).map .expr ++ (stores m).map fun (i,k,id) => .store i k id := by
  induction m with
  | nil => rfl
  | cons n m ih =>
    obtain ⟨hfirst, hlater⟩ := List.pairwise_cons.mp hm
    cases n with
    | expr e =>
      rw [exprs_cons_expr, stores_cons_expr, List.map_cons, List.cons_append]
      exact congrArg _ (ih hlater fun a ha => hlevel a (List.mem_cons_of_mem e ha))
    | store i k id =>
      have hnone : exprs m = [] := List.eq_nil_iff_forall_not_mem.mpr fun a ha =>
        Nat.not_lt.mpr (hfirst _ (mem_exprs.mp ha)) (hlevel a ha)
      have hrest := ih hlater hlevel
      rw [hnone] at hrest
      rw [exprs_cons_store, hnone, stores_cons_store]
      exact congrArg _ hrest

theorem filter_exprs (count : Nat) (l : List (Node K)) (n : Nat) :
    (exprs l).filter (·.level = n) = exprs (l.filter (rank count · = n)) := by
  induction l with
  | nil => rfl
  | cons node l ih =>
    cases node with
    | expr e => by_cases h : e.level = n <;> simp [rank, h, ih]
    | store i k id => by_cases h : count = n <;> simp [rank, h, ih]

theorem pairwise_exprs {count : Nat} {m : List (Node K)} (h : m.Pairwise (rank count · ≤ rank count ·)) :
    (exprs m).Pairwise (·.level ≤ ·.level) := by
  refine List.pairwise_filterMap.mpr (h.imp fun {x y} hle a ha b hb => ?_)
  cases x <;> cases ha
  cases y <;> cases hb
  exact hle

theorem Complete.leveled {outputs : Array (Matrix (Expr K))} {nodes : Array (Node K)}
    (h : Complete outputs nodes.toList) : Leveled outputs nodes.toList (byLevel nodes).toList := by
  have hm := complete_byLevel h
  have hpairwise := pairwise_byLevel h.placed
  have hlevel : ∀ e ∈ exprs (byLevel nodes).toList, e.level < height nodes := fun e he =>
    level_lt_height h.placed ((h.mem_exprs e).mpr ((hm.mem_exprs e).mp he))
  refine ⟨byLevel_perm h.placed, ?_, pairwise_exprs hpairwise, fun n => ?_,
    fun p e hp a ha => exists_getElem?_of_mem_take (Order.mem_exprs.mp ((hm.placed p _ hp).1 a ha))⟩
  · have hsplit := eq_exprs_append_stores hpairwise hlevel
    rwa [hm.stores_eq, List.map_map] at hsplit
  · by_cases hn : n ≤ height nodes
    · rw [filter_exprs (height nodes), filter_exprs (height nodes), filter_byLevel h.placed hn]
    · -- There is nothing above the highest level, in either order.
      have hnone (es : List (Expr K)) (hes : ∀ e ∈ es, e.level < height nodes) : es.filter (·.level = n) = [] := by
        refine List.filter_eq_nil_iff.mpr fun e he => ?_
        have hlt := hes e he
        simp only [decide_eq_true_eq]
        omega
      rw [hnone _ hlevel, hnone _ fun e he => level_lt_height h.placed he]

section Leveled

variable {outputs : Array (Matrix (Expr K))} {l m : List (Node K)}

/-- The expressions stand before the stores. -/
theorem Leveled.lt_length_exprs (h : Leveled outputs l m) {p : Nat} {e : Expr K} (hp : m[p]? = some (.expr e)) :
    p < (exprs m).length := by
  by_contra hlt
  rw [h.split, List.getElem?_append_right (by simpa using hlt), List.getElem?_map] at hp
  obtain ⟨t, -, ht⟩ := Option.map_eq_some_iff.mp hp
  cases ht

theorem Leveled.getElem?_store (h : Leveled outputs l m) {j i k : Nat} {e : Expr K}
    (hj : (targets outputs)[j]? = some (i,k,e)) : m[(exprs m).length + j]? = some (.store i k e.id) := by
  have hget : ((exprs m).map Node.expr ++ (targets outputs).map fun (i,k,e) => Node.store i k e.id)[
      (exprs m).length + j]? = some (.store i k e.id) := by
    rw [List.getElem?_append_right (by simp)]
    simp [hj]
  rwa [← h.split] at hget

end Leveled

end Order

namespace Tape

/-- Elements that refer to the nodes of an order by their positions. The stores stand behind all expressions. -/
structure Refers (outputs : Array (Matrix (Expr K))) (m : List (Node K)) (els : List (Element K)) : Prop where
  length : els.length = m.length
  expr : ∀ (p : Nat) (e : Expr K), m[p]? = some (.expr e) → ∃ el, els[p]? = some el ∧ el.result = p ∧
    List.Forall₂ (fun a q => m[q]? = some (.expr a)) e.operands (Slots.reads el)
  store : ∀ (j i k : Nat) (e : Expr K), (Order.targets outputs)[j]? = some (i,k,e) →
    ∃ el, els[(Order.exprs m).length + j]? = some el ∧ el.op = .output ∧ el.result = i ∧ el.right = k ∧
      el.left < (Order.exprs m).length ∧ m[el.left]? = some (.expr e)

variable [Number K] {outputs : Array (Matrix (Expr K))}

theorem exists_layout (places : Std.HashMap Nat (Nat × Nat)) (slot : Nat → Nat) {l : List (Node K)} {p : Nat}
    {n : Node K} (h : l[p]? = some n) : ∃ free, (layout places slot l)[p]? = some (elementAt places slot free n) :=
  ⟨_, by rw [layout_getElem?, h, Option.map_some]⟩

theorem refers_layout {l m : List (Node K)} {pos : Nat → Nat} (h : Expr.Coherent (Matrix.entries outputs))
    (hl : Order.Leveled outputs l m) (hm : Order.Complete outputs m)
    (hpos : ∀ p e, m[p]? = some (.expr e) → pos e.id = p) (places : Std.HashMap Nat (Nat × Nat)) :
    Refers outputs m (layout places pos m) := by
  have hproper := hm.proper h
  have hstands : ∀ e ∈ Order.exprs m, m[pos e.id]? = some (.expr e) := by
    intro e he
    obtain ⟨q, hq⟩ := List.mem_iff_getElem?.mp (Order.mem_exprs.mp he)
    rwa [hpos q e hq]
  refine ⟨by simp [layout], fun p e hp => ?_, fun j i k e hj => ?_⟩
  · have hn := hproper _ (List.mem_of_getElem? hp)
    obtain ⟨free, hget⟩ := exists_layout places pos hp
    refine ⟨_, hget, ?_, ?_⟩
    · exact (positional_layout places h hm hpos).result p _ hget (op_elementAt_expr _ _ _ hn)
    · rw [reads_elementAt _ _ _ hn, Node.reads, List.map_map, List.forall₂_map_right_iff, List.forall₂_same]
      intro a ha
      obtain ⟨q, -, hq⟩ := hl.operands p e hp a ha
      exact hstands a (Order.mem_exprs.mpr (List.mem_of_getElem? hq))
  · have hroot := Expr.ReachedFrom.root (Order.mem_targets_entries (List.mem_of_getElem? hj))
    have hq := hstands e ((hm.mem_exprs e).mpr hroot)
    obtain ⟨free, hget⟩ := exists_layout places pos (hl.getElem?_store hj)
    exact ⟨_, hget, rfl, rfl, rfl, hl.lt_length_exprs hq, hq⟩

theorem refers_byLevel {nodes : Array (Node K)} (h : Expr.Coherent (Matrix.entries outputs))
    (hc : Order.Complete outputs nodes.toList) (places : Std.HashMap Nat (Nat × Nat)) :
    Refers outputs (Order.byLevel nodes).toList (elementsOf places (Order.byLevel nodes)).1.toList := by
  have hl := hc.leveled
  have hm := Order.complete_byLevel hc
  generalize Order.byLevel nodes = sorted at hl hm
  rw [(elementsOf_eq places hm.placed).1]
  exact refers_layout h hl hm (fun _ _ hp => positions_getD hm.placed hp) places

/-- The order by levels has the nodes of the depth-first order: the expressions by their levels, those of one level in
the order that they had, and then the stores, output by output and entry by entry. Operands stand before the
expressions that use them, and the elements refer to operands and to stored expressions by their new positions. -/
theorem byLevel_correct (h : Expr.Coherent (Matrix.entries outputs)) (places : Std.HashMap Nat (Nat × Nat)) :
    Order.Leveled outputs (Order.depthFirst outputs).toList (Order.byLevel (Order.depthFirst outputs)).toList ∧
      Refers outputs (Order.byLevel (Order.depthFirst outputs)).toList
        (elementsOf places (Order.byLevel (Order.depthFirst outputs))).1.toList :=
  ⟨(Order.complete_depthFirst h).leveled, refers_byLevel h (Order.complete_depthFirst h) places⟩

/-- A square, and a sum in which it is shared. Depth-first it stands before the second symbol. -/
def mixedOutputs : Array (Matrix (Expr ℚ)) :=
  let square := .unary 2 .sq (.symbol ⟨0,"x"⟩)
  #[.column #[.binary 3 .add square (.symbol ⟨1,"y"⟩), square]]

theorem mixed_coherent : Expr.Coherent (Matrix.entries mixedOutputs) := by
  let x : Expr ℚ := .symbol ⟨0,"x"⟩
  let y : Expr ℚ := .symbol ⟨1,"y"⟩
  let square : Expr ℚ := .unary 2 .sq x
  have hmade : Expr.Built 4 [.binary 3 .add square y, square, y, x] := by
    have hsymbols := (Expr.Built.nil (K := ℚ) 0).symbol "x" |>.symbol "y"
    have hsquare := hsymbols.apply (show Op.sq.isStructural = false from rfl) (a := x) (b := x) (.tail _ (.head _))
      (.tail _ (.head _))
    exact hsquare.apply (show Op.add.isStructural = false from rfl) (.head _) (.tail _ (.head _))
  refine hmade.coherent fun e he => ?_
  obtain rfl | rfl : e = .binary 3 .add square y ∨ e = square := by
    simpa [Matrix.entries, mixedOutputs, Matrix.column] using he
  · exact .head _
  · exact .tail _ (.head _)

theorem byLevel_correct_mixed : Expr.Coherent (Matrix.entries mixedOutputs) ∧
    (Order.exprs (Order.depthFirst mixedOutputs).toList).map Expr.id = [0,2,1,3] ∧
    (Order.exprs (Order.byLevel (Order.depthFirst mixedOutputs)).toList).map Expr.id = [0,1,2,3] ∧
    ∃ el, (elementsOf ∅ (Order.byLevel (Order.depthFirst mixedOutputs))).1.toList[5]? = some el ∧ el.op = .output ∧
      el.right = 1 ∧ (Order.byLevel (Order.depthFirst mixedOutputs)).toList[el.left]? =
        some (.expr (.unary 2 .sq (.symbol ⟨0,"x"⟩))) := by
  obtain ⟨-, hr⟩ := byLevel_correct mixed_coherent ∅
  have hexprs : (Order.exprs (Order.byLevel (Order.depthFirst mixedOutputs)).toList).map Expr.id = [0,1,2,3] := by cbv
  have hlength : (Order.exprs (Order.byLevel (Order.depthFirst mixedOutputs)).toList).length = 4 := by
    simpa using congrArg List.length hexprs
  obtain ⟨el, hel, hop, -, hentry, -, hnode⟩ := hr.store 1 0 1 (.unary 2 .sq (.symbol ⟨0,"x"⟩)) rfl
  rw [hlength] at hel
  exact ⟨mixed_coherent, by cbv, hexprs, el, hel, hop, hentry, hnode⟩

end Tape

end Fluxion
