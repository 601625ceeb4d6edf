import Fluxion.Proofs.Grouping
import Fluxion.Proofs.Order.DepthFirst

/-!
The order by levels. It is the depth-first order with the expressions of each level grouped and the stores at the end,
so operands still stand before the expressions that use them.
-/
set_option autoImplicit false

namespace Fluxion

variable {K : Type}

/-- Zero for a leaf, one more than the highest operand for an operation. -/
def Expr.level : Expr K → Nat
  | symbol _ | const _ _ => 0
  | unary _ _ a => a.level+1
  | binary _ _ a b => max (a.level+1) (b.level+1)

theorem Expr.level_lt {a e : Expr K} (h : a ∈ e.operands) : a.level < e.level := by
  cases e <;> simp only [operands, List.mem_cons, List.not_mem_nil, or_false] at h
  · subst h
    simp [level]
  · obtain rfl | rfl := h <;> simp only [level] <;> omega

namespace Order

/-- One node of the pass that numbers the levels. -/
def raise (level : Std.HashMap Nat Nat) : Node K → Std.HashMap Nat Nat
  | .store _ _ _ => level
  | .expr e => level.insert e.id (e.operands.foldl (fun l a => max l (level.getD a.id 0 + 1)) 0)

theorem levels_eq (nodes : Array (Node K)) : levels nodes = nodes.toList.foldl raise ∅ := by
  rw [Array.foldl_toList]
  rfl

theorem raise_operands {level : Std.HashMap Nat Nat} {e : Expr K}
    (h : ∀ a ∈ e.operands, level.getD a.id 0 = a.level) :
    e.operands.foldl (fun l a => max l (level.getD a.id 0 + 1)) 0 = e.level := by
  cases e with
  | symbol s => rfl
  | const i v => rfl
  | unary i op a => simp [Expr.operands, Expr.level, h a (by simp [Expr.operands])]
  | binary i op a b =>
    have ha := h a (by simp [Expr.operands])
    have hb := h b (by simp [Expr.operands])
    simp [Expr.operands, Expr.level, ha, hb]

/-- The pass finds the level of every expression, because its operands were numbered before it. -/
theorem foldl_raise {l : List (Node K)} (h : Placed l) {e : Expr K} (he : e ∈ exprs l) :
    (l.foldl raise ∅).getD e.id 0 = e.level := by
  induction l using List.reverseRecOn generalizing e with
  | nil => simp [exprs] at he
  | append_singleton l n ih =>
    rw [List.foldl_append, List.foldl_cons, List.foldl_nil]
    cases n with
    | store i k id => exact ih h.of_append (by simpa using he)
    | expr d =>
      obtain ⟨hops, hnew⟩ := h.last
      have hval := raise_operands fun a ha => ih h.of_append (hops a ha)
      rw [raise, hval, Std.HashMap.getD_insert]
      rw [exprs_append, exprs_cons_expr, exprs_nil, List.mem_append, List.mem_singleton] at he
      obtain he | rfl := he
      · rw [if_neg (by simpa using fun h => hnew e he h.symm)]
        exact ih h.of_append he
      · simp

/-- The group of a node among `count` levels. The stores are a group of their own behind all levels. -/
def rank (count : Nat) : Node K → Nat
  | .expr e => e.level
  | .store _ _ _ => count

/-- The number of levels that the pass finds. -/
def height (nodes : Array (Node K)) : Nat := levelCount (levels nodes) nodes

theorem le_levelCount (level : Std.HashMap Nat Nat) (l : List (Node K)) {n : Nat} :
    let count := l.foldl (fun count node =>
      match node with
      | .store _ _ _ => count
      | .expr e => max count (level.getD e.id 0 + 1)) n
    n ≤ count ∧ ∀ e ∈ exprs l, level.getD e.id 0 < count := by
  induction l generalizing n with
  | nil => simp
  | cons node l ih =>
    cases node with
    | store i k id => simpa using ih (n := n)
    | expr d =>
      obtain ⟨hle, hlevel⟩ := ih (n := max n (level.getD d.id 0 + 1))
      rw [List.foldl_cons]
      refine ⟨Nat.le_trans (Nat.le_max_left ..) hle, fun e he => ?_⟩
      rw [exprs_cons_expr, List.mem_cons] at he
      rcases he with rfl | he
      · exact Nat.lt_of_lt_of_le (Nat.lt_of_succ_le (Nat.le_max_right ..)) hle
      · exact hlevel e he

section ByLevel

variable {nodes : Array (Node K)}

theorem level_lt_height (h : Placed nodes.toList) {e : Expr K} (he : e ∈ exprs nodes.toList) :
    e.level < height nodes := by
  have hlt := (le_levelCount (levels nodes) nodes.toList (n := 1)).2 e he
  rw [levels_eq, foldl_raise h he, ← levels_eq, Array.foldl_toList] at hlt
  exact hlt

theorem byLevel_eq (h : Placed nodes.toList) :
    byLevel nodes = Grouping.arrange (height nodes + 1) (rank (height nodes)) nodes := by
  refine Grouping.arrange_congr fun n hn => ?_
  cases n with
  | store i k id => rfl
  | expr e =>
    have he := mem_exprs.mpr (Array.mem_toList_iff.mpr hn)
    exact (congrArg (·.getD e.id 0) (levels_eq nodes)).trans (foldl_raise h he)

theorem byLevel_perm (h : Placed nodes.toList) : (byLevel nodes).toList.Perm nodes.toList := by
  have hall : nodes.toList.filter (rank (height nodes) · < height nodes + 1) = nodes.toList := by
    refine List.filter_eq_self.mpr fun n hn => decide_eq_true ?_
    cases n with
    | store i k id => exact Nat.lt_succ_self _
    | expr e => exact Nat.lt_succ_of_lt (level_lt_height h (mem_exprs.mpr hn))
  rw [byLevel_eq h]
  exact (Grouping.arrange_perm nodes).trans (.of_eq hall)

theorem pairwise_byLevel (h : Placed nodes.toList) :
    (byLevel nodes).toList.Pairwise (rank (height nodes) · ≤ rank (height nodes) ·) := by
  rw [byLevel_eq h]
  exact Grouping.pairwise_arrange nodes

theorem filter_byLevel (h : Placed nodes.toList) {g : Nat} (hg : g ≤ height nodes) :
    (byLevel nodes).toList.filter (rank (height nodes) · = g) = nodes.toList.filter (rank (height nodes) · = g) := by
  rw [byLevel_eq h]
  exact Grouping.filter_arrange (Nat.lt_succ_of_le hg) nodes

end ByLevel

theorem Placed.mem_of_expr {l : List (Node K)} (h : Placed l) {e a : Expr K} (he : Node.expr e ∈ l)
    (ha : a ∈ e.operands) : Node.expr a ∈ l :=
  mem_exprs.mp (h.mem_of_reaches (mem_exprs.mpr he) (.operand ha))

theorem Placed.mem_of_store {l : List (Node K)} (h : Placed l) {i k id : Nat}
    (hs : Node.store i k id ∈ l) : ∃ e, Node.expr e ∈ l ∧ e.id = id := by
  obtain ⟨p, hp⟩ := List.mem_iff_getElem?.mp hs
  obtain ⟨e, he, hid⟩ := h p _ hp
  exact ⟨e, List.mem_of_mem_take (mem_exprs.mp he), hid⟩

/-- In an order by rank a node of less rank stands before. -/
theorem mem_take_of_rank {count : Nat} {l : List (Node K)} (hl : l.Pairwise (rank count · ≤ rank count ·))
    {p : Nat} {n m : Node K} (hn : l[p]? = some n) (hm : m ∈ l) (hr : rank count m < rank count n) :
    m ∈ l.take p := by
  obtain ⟨q, hq⟩ := List.mem_iff_getElem?.mp hm
  obtain ⟨hp, rfl⟩ := List.getElem?_eq_some_iff.mp hn
  obtain ⟨hql, rfl⟩ := List.getElem?_eq_some_iff.mp hq
  by_cases hqp : q < p
  · exact List.mem_iff_getElem?.mpr ⟨q, by rw [List.getElem?_take_of_lt hqp, hq]⟩
  · exfalso
    have hle : rank count l[p] ≤ rank count l[q] := by
      rcases Nat.eq_or_lt_of_le (Nat.le_of_not_lt hqp) with he | hlt
      · simp [he]
      · exact List.pairwise_iff_getElem.mp hl p q hp hql hlt
    exact Nat.not_lt.mpr hle hr

/-- The order by rank is an order: what a node waits for has less rank. -/
theorem Placed.sorted {count : Nat} {l m : List (Node K)} (h : Placed l) (hp : m.Perm l)
    (hcount : ∀ e ∈ exprs l, e.level < count) (hm : m.Pairwise (rank count · ≤ rank count ·)) : Placed m := by
  intro p n hn
  have hnm : n ∈ m := List.mem_of_getElem? hn
  cases n with
  | store i k id =>
    obtain ⟨e, he, hid⟩ := h.mem_of_store (hp.mem_iff.mp hnm)
    exact ⟨e, mem_exprs.mpr (mem_take_of_rank hm hn (hp.mem_iff.mpr he) (hcount e (mem_exprs.mpr he))), hid⟩
  | expr e =>
    refine ⟨fun a ha => ?_, fun a ha => ?_⟩
    · have hml := hp.mem_iff.mpr (h.mem_of_expr (hp.mem_iff.mp hnm) ha)
      exact mem_exprs.mpr (mem_take_of_rank hm hn hml (Expr.level_lt ha))
    · have hnd : ((exprs m).map Expr.id).Nodup :=
        ((hp.filterMap _).map _).nodup_iff.mpr h.nodup
      have hed : e ∈ exprs (m.drop p) := by
        obtain ⟨hlt, he⟩ := List.getElem?_eq_some_iff.mp hn
        rw [mem_exprs, List.drop_eq_getElem_cons hlt, he]
        exact List.mem_cons_self
      rw [← List.take_append_drop p m, exprs_append, List.map_append, List.nodup_append] at hnd
      exact hnd.2.2 _ (List.mem_map_of_mem ha) _ (List.mem_map_of_mem hed)

/-- The stores are the nodes behind all levels. -/
theorem stores_filter_rank (count : Nat) (l : List (Node K)) :
    stores (l.filter (rank count · = count)) = stores l := by
  rw [stores, stores, List.filterMap_filter]
  refine List.filterMap_congr fun n hn => ?_
  cases n with
  | store i k id => simp [rank]
  | expr e => simp [Node.store?]

theorem complete_byLevel {outputs : Array (Matrix (Expr K))} {nodes : Array (Node K)}
    (h : Complete outputs nodes.toList) : Complete outputs (byLevel nodes).toList := by
  have hperm := byLevel_perm h.placed
  refine ⟨h.placed.sorted hperm (fun e he => level_lt_height h.placed he) (pairwise_byLevel h.placed), fun e => ?_, ?_⟩
  · rw [← h.mem_exprs, mem_exprs, mem_exprs, hperm.mem_iff]
  · rw [← h.stores_eq, ← stores_filter_rank (height nodes), filter_byLevel h.placed (Nat.le_refl _), stores_filter_rank]

end Order

end Fluxion
