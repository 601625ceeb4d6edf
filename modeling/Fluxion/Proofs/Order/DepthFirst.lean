import Mathlib.Data.List.Induction
import Mathlib.Data.List.Nodup
import Fluxion.Proofs.Sharing
import Fluxion.Tape.Order

/-!
The depth-first order of what the outputs reach. Every expression stands in it once, after its operands,
and the store of every output entry stands after the expression that it stores.
-/
set_option autoImplicit false

namespace Fluxion

variable {K : Type}

def Node.expr? : Node K → Option (Expr K)
  | .expr e => some e
  | .store _ _ _ => none

/-- Output, entry and node number of a store. -/
def Node.store? : Node K → Option (Nat × Nat × Nat)
  | .expr _ => none
  | .store index entry id => some (index,entry,id)

namespace Order

/-- The expressions of an order. -/
def exprs (l : List (Node K)) : List (Expr K) := l.filterMap Node.expr?

def stores (l : List (Node K)) : List (Nat × Nat × Nat) := l.filterMap Node.store?

@[simp] theorem exprs_append (l m : List (Node K)) : exprs (l ++ m) = exprs l ++ exprs m :=
  List.filterMap_append

@[simp] theorem stores_append (l m : List (Node K)) : stores (l ++ m) = stores l ++ stores m :=
  List.filterMap_append

@[simp] theorem exprs_nil : exprs ([] : List (Node K)) = [] := rfl

@[simp] theorem stores_nil : stores ([] : List (Node K)) = [] := rfl

@[simp] theorem exprs_cons_expr (e : Expr K) (l : List (Node K)) :
    exprs (Node.expr e :: l) = e :: exprs l := rfl

@[simp] theorem exprs_cons_store (i k id : Nat) (l : List (Node K)) :
    exprs (Node.store i k id :: l) = exprs l := rfl

@[simp] theorem stores_cons_expr (e : Expr K) (l : List (Node K)) :
    stores (Node.expr e :: l) = stores l := rfl

@[simp] theorem stores_cons_store (i k id : Nat) (l : List (Node K)) :
    stores (Node.store i k id :: l) = (i,k,id) :: stores l := rfl

theorem mem_exprs {l : List (Node K)} {e : Expr K} : e ∈ exprs l ↔ Node.expr e ∈ l := by
  simp only [exprs, List.mem_filterMap]
  constructor
  · rintro ⟨n, hn, h⟩
    cases n with
    | expr a => cases h; exact hn
    | store => cases h
  · exact fun h => ⟨_, h, rfl⟩

theorem mem_stores {l : List (Node K)} {i k id : Nat} :
    (i,k,id) ∈ stores l ↔ Node.store i k id ∈ l := by
  simp only [stores, List.mem_filterMap]
  constructor
  · rintro ⟨n, hn, h⟩
    cases n with
    | expr => cases h
    | store => cases h; exact hn
  · exact fun h => ⟨_, h, rfl⟩

theorem exists_getElem?_of_mem_take {α : Type} {l : List α} {n : Nat} {x : α} (h : x ∈ l.take n) :
    ∃ p < n, l[p]? = some x := by
  obtain ⟨p, hp, rfl⟩ := List.mem_take_iff_getElem.mp h
  exact ⟨p, by omega, List.getElem?_eq_getElem (by omega)⟩

/-- What has to stand before a node. No number comes twice. -/
def Ready (l : List (Node K)) : Node K → Prop
  | .expr e => (∀ a ∈ e.operands, a ∈ exprs l) ∧ ∀ a ∈ exprs l, a.id ≠ e.id
  | .store _ _ id => ∃ e ∈ exprs l, e.id = id

/-- Every node is ready where it stands. -/
def Placed (l : List (Node K)) : Prop := ∀ p n, l[p]? = some n → Ready (l.take p) n

theorem placed_nil : Placed ([] : List (Node K)) := by
  intro p n h
  simp at h

theorem Placed.snoc {l : List (Node K)} {n : Node K} (hl : Placed l) (hn : Ready l n) :
    Placed (l ++ [n]) := by
  intro p m h
  by_cases hp : p < l.length
  · rw [List.getElem?_append_left hp] at h
    rw [List.take_append_of_le_length (Nat.le_of_lt hp)]
    exact hl p m h
  · have hlt := (List.getElem?_eq_some_iff.mp h).1
    have he : p = l.length := by simp at hlt; omega
    subst he
    simp at h ⊢
    exact h ▸ hn

theorem Placed.of_append {l m : List (Node K)} (h : Placed (l ++ m)) : Placed l := by
  intro p n hp
  have hlt := (List.getElem?_eq_some_iff.mp hp).1
  have := h p n (by rw [List.getElem?_append_left hlt, hp])
  rwa [List.take_append_of_le_length (Nat.le_of_lt hlt)] at this

theorem Placed.last {l : List (Node K)} {n : Node K} (h : Placed (l ++ [n])) : Ready l n := by
  simpa using h l.length n (by simp)

theorem Placed.nodup {l : List (Node K)} (h : Placed l) : ((exprs l).map Expr.id).Nodup := by
  induction l using List.reverseRecOn with
  | nil => simp [exprs]
  | append_singleton l n ih =>
    have hn := h.last
    cases n with
    | store i k id => simpa using ih h.of_append
    | expr e =>
      rw [exprs_append, exprs_cons_expr, exprs_nil, List.map_append, List.nodup_append]
      refine ⟨ih h.of_append, by simp, ?_⟩
      intro i hi j hj
      obtain ⟨a, ha, rfl⟩ := List.mem_map.mp hi
      obtain rfl : j = e.id := by simpa using hj
      exact hn.2 a ha

/-- Output, entry and expression of every store, in the order of the outputs. -/
def targets (outputs : Array (Matrix (Expr K))) : List (Nat × Nat × Expr K) :=
  outputs.toList.zipIdx.flatMap fun (m, i) => m.values.toList.zipIdx.map fun (e, k) => (i,k,e)

/-- An order of everything that the outputs reach. -/
structure Complete (outputs : Array (Matrix (Expr K))) (l : List (Node K)) : Prop where
  placed : Placed l
  mem_exprs : ∀ e, e ∈ exprs l ↔ Expr.ReachedFrom (Matrix.entries outputs) e
  stores_eq : stores l = (targets outputs).map fun (i,k,e) => (i,k,e.id)

/-- The order in which a visit takes the operands of a node. -/
def descent : Expr K → List (Expr K)
  | .binary _ _ a b => if a.operands.length < b.operands.length then [b,a] else [a,b]
  | e => e.operands

theorem mem_descent {a e : Expr K} : a ∈ descent e ↔ a ∈ e.operands := by
  cases e with
  | binary i op b c =>
    rw [descent]
    split <;> simp [Expr.operands, or_comm]
  | _ => rfl

@[simp] theorem run_nil (s : State K) : run [] s = s := by rw [run]

@[simp] theorem run_emit (e : Expr K) (rest : List (Task K)) (s : State K) :
    run (.emit e :: rest) s = run rest (s.emit e) := by rw [run]

theorem run_visit_seen {e : Expr K} {s : State K} (h : s.seen.contains e.id) (rest : List (Task K)) :
    run (.visit e :: rest) s = run rest s := by
  rw [run.eq_def]
  simp [h]

theorem run_visit_new {e : Expr K} {s : State K} (h : ¬ s.seen.contains e.id) (rest : List (Task K)) :
    run (.visit e :: rest) s = run ((descent e).map .visit ++ .emit e :: rest) s := by
  rw [run.eq_def]
  cases e with
  | binary i op a b =>
    dsimp only
    rw [if_neg h, descent]
    split <;> rfl
  | _ => simp [h, descent, Expr.operands]

theorem run_append (xs ys : List (Task K)) (s : State K) : run (xs ++ ys) s = run ys (run xs s) := by
  fun_induction run xs s with
  | case1 => rfl
  | case2 s e rest ih => rw [List.cons_append, run_emit, ih]
  | case3 s e rest h ih => rw [List.cons_append, run_visit_seen h, ih]
  | case4 s rest v h ih => rw [List.cons_append, run_visit_new h]; simpa [descent, Expr.operands] using ih
  | case5 s rest i v h ih => rw [List.cons_append, run_visit_new h]; simpa [descent, Expr.operands] using ih
  | case6 s rest i op a h ih => rw [List.cons_append, run_visit_new h]; exact ih
  | case7 s rest i op a b hab h ih =>
    rw [List.cons_append, run_visit_new h, descent, if_pos hab]; exact ih
  | case8 s rest i op a b hab h ih =>
    rw [List.cons_append, run_visit_new h, descent, if_neg hab]; exact ih

/-- A node that is not there yet is placed after what the visits of its operands place. -/
theorem run_visit {e : Expr K} {s : State K} (h : ¬ s.seen.contains e.id) :
    run [.visit e] s = (run ((descent e).map .visit) s).emit e := by
  rw [run_visit_new h, run_append, run_emit, run_nil]

/-- What a visit keeps: all that stands is placed, marked and reached from the roots. -/
structure Good (roots : List (Expr K)) (s : State K) : Prop where
  placed : Placed s.nodes.toList
  seen : ∀ i, s.seen.contains i ↔ ∃ e ∈ exprs s.nodes.toList, e.id = i
  reached : ∀ e ∈ exprs s.nodes.toList, Expr.ReachedFrom roots e

theorem Good.start (roots : List (Expr K)) : Good roots ⟨#[], ∅⟩ :=
  ⟨placed_nil, by simp [exprs], by simp [exprs]⟩

/-- Only expressions are added, and all of them have the property. -/
def Adds (p : Expr K → Prop) (s t : State K) : Prop :=
  ∃ es : List (Expr K), t.nodes.toList = s.nodes.toList ++ es.map .expr ∧ ∀ e ∈ es, p e

theorem exprs_map_expr (es : List (Expr K)) : exprs (es.map Node.expr) = es := by
  simp [exprs, List.filterMap_map, Function.comp_def, Node.expr?]

theorem stores_map_expr (es : List (Expr K)) : stores (es.map Node.expr) = [] := by
  simp [stores, List.filterMap_map, Function.comp_def, Node.store?]

theorem Adds.refl (p : Expr K → Prop) (s : State K) : Adds p s s := ⟨[], by simp, by simp⟩

theorem Adds.trans {p : Expr K → Prop} {s t u : State K} (h : Adds p s t) (g : Adds p t u) :
    Adds p s u := by
  obtain ⟨es, he, hp⟩ := h
  obtain ⟨fs, hf, hq⟩ := g
  refine ⟨es ++ fs, by simp [hf, he], ?_⟩
  intro e h
  exact (List.mem_append.mp h).elim (hp e) (hq e)

theorem Adds.mono {p q : Expr K → Prop} {s t : State K} (h : Adds p s t) (g : ∀ e, p e → q e) :
    Adds q s t := by
  obtain ⟨es, he, hp⟩ := h
  exact ⟨es, he, fun e h => g e (hp e h)⟩

theorem Adds.exprs {p : Expr K → Prop} {s t : State K} (h : Adds p s t) {e : Expr K} :
    e ∈ exprs t.nodes.toList → e ∈ exprs s.nodes.toList ∨ p e := by
  obtain ⟨es, he, hp⟩ := h
  rw [he, exprs_append, exprs_map_expr, List.mem_append]
  exact Or.imp_right (hp e)

theorem Adds.subset {p : Expr K → Prop} {s t : State K} (h : Adds p s t) {e : Expr K}
    (hs : e ∈ Order.exprs s.nodes.toList) : e ∈ Order.exprs t.nodes.toList := by
  obtain ⟨es, he, -⟩ := h
  rw [he, exprs_append]
  exact List.mem_append_left _ hs

theorem Adds.stores_eq {p : Expr K → Prop} {s t : State K} (h : Adds p s t) :
    stores t.nodes.toList = stores s.nodes.toList := by
  obtain ⟨es, he, -⟩ := h
  rw [he, stores_append, stores_map_expr, List.append_nil]

theorem Adds.emit {p : Expr K → Prop} (s : State K) {e : Expr K} (h : p e) : Adds p s (s.emit e) :=
  ⟨[e], by simp [State.emit], by simpa using h⟩

theorem Good.emit {roots : List (Expr K)} {s : State K} {e : Expr K} (hs : Good roots s)
    (he : Expr.ReachedFrom roots e) (ho : ∀ a ∈ e.operands, a ∈ exprs s.nodes.toList)
    (hn : ∀ a ∈ exprs s.nodes.toList, a.id ≠ e.id) : Good roots (s.emit e) where
  placed := by simpa [State.emit] using hs.placed.snoc (n := .expr e) ⟨ho, hn⟩
  seen i := by
    simp only [State.emit, Std.HashSet.contains_insert, Bool.or_eq_true, hs.seen, Array.toList_push,
      exprs_append, exprs_cons_expr, exprs_nil, List.mem_append, List.mem_singleton, or_and_right, exists_or,
      exists_eq_left, beq_iff_eq]
    exact or_comm
  reached a ha := by
    rw [State.emit, Array.toList_push, exprs_append, exprs_cons_expr, exprs_nil, List.mem_append,
      List.mem_singleton] at ha
    obtain ha | rfl := ha
    · exact hs.reached a ha
    · exact he

/-- What the visit of an expression does: it places what the expression reaches and is not there yet. -/
structure Visited (roots : List (Expr K)) (p : Expr K → Prop) (s t : State K) : Prop where
  good : Good roots t
  adds : Adds p s t

/-- Visits in turn, each of which does its part. -/
theorem visit_each {roots : List (Expr K)} (p : Expr K → Prop) (es : List (Expr K))
    (h : ∀ e ∈ es, ∀ s, Good roots s →
      Visited roots p s (run [.visit e] s) ∧ e ∈ exprs (run [.visit e] s).nodes.toList)
    (s : State K) (hs : Good roots s) :
    Visited roots p s (run (es.map .visit) s) ∧
      ∀ e ∈ es, e ∈ exprs (run (es.map .visit) s).nodes.toList := by
  induction es generalizing s with
  | nil => exact ⟨⟨by simpa using hs, by simpa using Adds.refl p s⟩, by simp⟩
  | cons e es ih =>
    obtain ⟨⟨hg, ha⟩, hm⟩ := h e (by simp) s hs
    obtain ⟨⟨hg', ha'⟩, hm'⟩ := ih (fun e he => h e (by simp [he])) _ hg
    have hrun : run ((e :: es).map .visit) s = run (es.map .visit) (run [.visit e] s) :=
      run_append [.visit e] (es.map .visit) s
    rw [hrun]
    refine ⟨⟨hg', ha.trans ha'⟩, ?_⟩
    intro d hd
    obtain rfl | hd := List.mem_cons.mp hd
    · exact ha'.subset hm
    · exact hm' d hd

theorem visit {roots : List (Expr K)} (h : Expr.Coherent roots) {e : Expr K}
    (he : Expr.ReachedFrom roots e) (s : State K) (hs : Good roots s) :
    Visited roots (Expr.Reaches · e) s (run [.visit e] s) ∧
      e ∈ exprs (run [.visit e] s).nodes.toList := by
  by_cases hn : s.seen.contains e.id
  · obtain ⟨a, ha, hid⟩ := (hs.seen e.id).mp hn
    have hae : a = e := h.unique a e (hs.reached a ha) he hid
    rw [run_visit_seen hn, run_nil]
    exact ⟨⟨hs, .refl _ s⟩, hae ▸ ha⟩
  · let below (a : Expr K) : Prop := Expr.Reaches a e ∧ a.size < e.size
    have each : ∀ a ∈ descent e, ∀ s, Good roots s →
        Visited roots below s (run [.visit a] s) ∧ a ∈ exprs (run [.visit a] s).nodes.toList := by
      intro a ha s hs
      have ha := mem_descent.mp ha
      have hlt := Expr.size_lt_of_mem_operands ha
      obtain ⟨⟨hg, hadd⟩, hm⟩ := visit h (he.operand ha) s hs
      refine ⟨⟨hg, hadd.mono fun b hb => ?_⟩, hm⟩
      exact ⟨hb.trans (.operand ha), Nat.lt_of_le_of_lt hb.size_le hlt⟩
    obtain ⟨⟨hg, ha⟩, hm⟩ := visit_each below (descent e) each s hs
    -- Below itself the node cannot have come up again: all expressions there are smaller.
    have hnew : ∀ a ∈ exprs (run ((descent e).map .visit) s).nodes.toList, a.id ≠ e.id := by
      intro a hmem hid
      obtain hmem | ⟨hr, hlt⟩ := ha.exprs hmem
      · exact hn ((hs.seen e.id).mpr ⟨a, hmem, hid⟩)
      · rw [h.unique a e (he.trans hr) he hid] at hlt
        exact Nat.lt_irrefl _ hlt
    rw [run_visit hn]
    refine ⟨⟨hg.emit he (fun a ha => hm a (mem_descent.mpr ha)) hnew, ?_⟩, ?_⟩
    · exact (ha.mono fun a h => h.1).trans (.emit _ (.refl e))
    · simp [State.emit]
  termination_by e.size

/-- One output entry: its expression, then its store. -/
def place (s : State K) (target : Nat × Nat × Expr K) : State K :=
  let s := run [.visit target.2.2] s
  {s with nodes := s.nodes.push (.store target.1 target.2.1 target.2.2.id)}

theorem depthFirst_eq (outputs : Array (Matrix (Expr K))) :
    depthFirst outputs = ((targets outputs).foldl place ⟨#[], ∅⟩).nodes := by
  simp only [depthFirst, targets, List.foldl_flatMap, List.foldl_map, ← Array.foldl_toList,
    Array.toList_zipIdx]
  rfl

theorem mem_targets {outputs : Array (Matrix (Expr K))} {i k : Nat} {e : Expr K} :
    (i,k,e) ∈ targets outputs ↔ ∃ m, outputs[i]? = some m ∧ m.values[k]? = some e := by
  simp only [targets, List.mem_flatMap, List.mem_map, Prod.exists, List.mem_zipIdx_iff_getElem?,
    Array.getElem?_toList, Prod.mk.injEq]
  constructor
  · rintro ⟨m, _, hm, _, _, he, rfl, rfl, rfl⟩
    exact ⟨m, hm, he⟩
  · rintro ⟨m, hm, he⟩
    exact ⟨m, i, hm, e, k, he, rfl, rfl, rfl⟩

theorem targets_unique {outputs : Array (Matrix (Expr K))} {i k : Nat} {e d : Expr K}
    (he : (i,k,e) ∈ targets outputs) (hd : (i,k,d) ∈ targets outputs) : e = d := by
  obtain ⟨m, hm, he⟩ := mem_targets.mp he
  obtain ⟨m', hm', hd⟩ := mem_targets.mp hd
  rw [hm] at hm'
  cases hm'
  rw [he] at hd
  exact Option.some.inj hd

theorem targets_nodup (outputs : Array (Matrix (Expr K))) :
    ((targets outputs).map fun t => (t.1,t.2.1)).Nodup := by
  have hindex {α : Type} (xs : List α) : (xs.zipIdx.map Prod.snd).Nodup := by
    rw [List.zipIdx_map_snd]
    exact List.nodup_range'
  rw [targets, List.map_flatMap, List.nodup_flatMap]
  constructor
  · rintro ⟨m, i⟩ -
    have hmap : (m.values.toList.zipIdx.map fun (e, k) => (i,k,e)).map (fun t => (t.1,t.2.1)) =
        (m.values.toList.zipIdx.map Prod.snd).map fun k => (i,k) := by
      rw [List.map_map, List.map_map]
      rfl
    rw [hmap]
    refine List.Nodup.map (fun k n h => ?_) (hindex _)
    simpa using h
  · have hsnd := List.pairwise_map.mp (hindex outputs.toList)
    refine hsnd.imp ?_
    rintro ⟨m, i⟩ ⟨m', j⟩ hij
    simp only [Function.onFun, List.map_map, List.disjoint_left, List.mem_map, Function.comp_apply,
      Prod.exists]
    rintro ⟨i', k⟩ ⟨e, n, -, he⟩ ⟨e', n', -, he'⟩
    simp only [Prod.mk.injEq] at he he'
    exact hij (he.1.trans he'.1.symm)

theorem mem_targets_entries {outputs : Array (Matrix (Expr K))} {target : Nat × Nat × Expr K}
    (h : target ∈ targets outputs) : target.2.2 ∈ Matrix.entries outputs := by
  obtain ⟨m, hm, he⟩ := mem_targets.mp h
  exact Matrix.mem_entries.mpr ⟨_, _, m, hm, he⟩

theorem Good.place {roots : List (Expr K)} (h : Expr.Coherent roots) {s : State K} (hs : Good roots s)
    {target : Nat × Nat × Expr K} (ht : target.2.2 ∈ roots) :
    Good roots (place s target) ∧
      (∀ e ∈ exprs s.nodes.toList, e ∈ exprs (place s target).nodes.toList) ∧
      target.2.2 ∈ exprs (place s target).nodes.toList ∧
      stores (place s target).nodes.toList =
        stores s.nodes.toList ++ [(target.1, target.2.1, target.2.2.id)] := by
  obtain ⟨⟨hg, ha⟩, hm⟩ := visit h (.root ht) s hs
  refine ⟨⟨?_, ?_, ?_⟩, ?_, ?_, ?_⟩
  · simpa [Order.place] using hg.placed.snoc (n := .store _ _ _) ⟨_, hm, rfl⟩
  · simpa [Order.place] using hg.seen
  · simpa [Order.place] using hg.reached
  · simpa [Order.place] using fun e => ha.subset
  · simpa [Order.place] using hm
  · simp [Order.place, ha.stores_eq]

theorem foldl_place {outputs : Array (Matrix (Expr K))} (h : Expr.Coherent (Matrix.entries outputs))
    (ts : List (Nat × Nat × Expr K)) (hts : ∀ t ∈ ts, t ∈ targets outputs) (s : State K)
    (hs : Good (Matrix.entries outputs) s) :
    Good (Matrix.entries outputs) (ts.foldl place s) ∧
      (∀ e ∈ exprs s.nodes.toList, e ∈ exprs (ts.foldl place s).nodes.toList) ∧
      (∀ t ∈ ts, t.2.2 ∈ exprs (ts.foldl place s).nodes.toList) ∧
      stores (ts.foldl place s).nodes.toList =
        stores s.nodes.toList ++ ts.map fun (i,k,e) => (i,k,e.id) := by
  induction ts generalizing s with
  | nil => exact ⟨hs, by simp, by simp, by simp⟩
  | cons t ts ih =>
    obtain ⟨hg, hsub, hmem, hst⟩ := hs.place h (mem_targets_entries (hts t (by simp)))
    obtain ⟨hg', hsub', hmem', hst'⟩ := ih (fun t h => hts t (by simp [h])) _ hg
    refine ⟨hg', fun e he => hsub' e (hsub e he), ?_, ?_⟩
    · intro u hu
      obtain rfl | hu := List.mem_cons.mp hu
      · exact hsub' _ hmem
      · exact hmem' u hu
    · rw [List.foldl_cons, hst', hst, List.map_cons, List.append_assoc]
      rfl

/-- What stands in an order stands there with all its operands. -/
theorem Placed.mem_of_reaches {l : List (Node K)} (h : Placed l) {a e : Expr K} (he : e ∈ exprs l)
    (hr : Expr.Reaches a e) : a ∈ exprs l := by
  obtain rfl | ⟨d, hd, hr⟩ := Expr.reaches_iff.mp hr
  · exact he
  · obtain ⟨p, hp⟩ := List.mem_iff_getElem?.mp (mem_exprs.mp he)
    have hdl := mem_exprs.mp ((h p _ hp).1 d hd)
    exact h.mem_of_reaches (mem_exprs.mpr (List.mem_of_mem_take hdl)) hr
  termination_by e.size
  decreasing_by exact Expr.size_lt_of_mem_operands hd

section Complete

variable {outputs : Array (Matrix (Expr K))} {l l₁ l₂ : List (Node K)}

/-- Operands stand before their node. -/
theorem Complete.operand (h : Complete outputs l) {e a : Expr K} (hl : l = l₁ ++ .expr e :: l₂)
    (ha : a ∈ e.operands) : a ∈ exprs l₁ := by
  have hready := h.placed l₁.length (.expr e) (by simp [hl])
  rw [hl, List.take_left] at hready
  exact hready.1 a ha

/-- A store is into the entry of an expression that stands before it. -/
theorem Complete.store (h : Complete outputs l) (hu : Expr.Coherent (Matrix.entries outputs))
    {i k id : Nat} (hl : l = l₁ ++ .store i k id :: l₂) :
    ∃ e ∈ exprs l₁, (i,k,e) ∈ targets outputs ∧ e.id = id := by
  have hready := h.placed l₁.length (.store i k id) (by simp [hl])
  rw [hl, List.take_left] at hready
  obtain ⟨e, he, rfl⟩ := hready
  have hmem : (i,k,e.id) ∈ stores l := by
    rw [hl]
    simp
  rw [h.stores_eq] at hmem
  obtain ⟨⟨i', k', d⟩, ht, hid⟩ := List.mem_map.mp hmem
  simp only [Prod.mk.injEq] at hid
  obtain ⟨rfl, rfl, hid⟩ := hid
  have hd : Expr.ReachedFrom (Matrix.entries outputs) d := .root (mem_targets_entries ht)
  obtain rfl := hu.unique d e hd ((h.mem_exprs e).mp (by simp [hl, he])) hid
  exact ⟨d, he, ht, rfl⟩

theorem Complete.stores_nodup (h : Complete outputs l) :
    ((stores l).map fun t => (t.1,t.2.1)).Nodup := by
  rw [h.stores_eq, List.map_map]
  exact targets_nodup outputs

theorem Complete.stored_once (h : Complete outputs l) {i k id : Nat}
    (hl : l = l₁ ++ .store i k id :: l₂) (id' : Nat) : (i,k,id') ∉ stores l₂ := by
  intro hmem
  have hnodup := h.stores_nodup
  rw [hl, stores_append, stores_cons_store, List.map_append, List.map_cons, List.nodup_append] at hnodup
  exact (List.nodup_cons.mp hnodup.2.1).1 (List.mem_map.mpr ⟨_, hmem, rfl⟩)

theorem Complete.placed_once (h : Complete outputs l) {e : Expr K} (hl : l = l₁ ++ .expr e :: l₂)
    {d : Expr K} (hd : d ∈ exprs l₁ ∨ d ∈ exprs l₂) : d.id ≠ e.id := by
  intro hid
  have hnodup := h.placed.nodup
  rw [hl, exprs_append, exprs_cons_expr, List.map_append, List.map_cons, List.nodup_append] at hnodup
  obtain ⟨-, hnodup, hdisj⟩ := hnodup
  obtain hd | hd := hd
  · exact hdisj _ (List.mem_map_of_mem hd) _ List.mem_cons_self hid
  · exact (List.nodup_cons.mp hnodup).1 (hid ▸ List.mem_map_of_mem hd)

end Complete

theorem complete_depthFirst {outputs : Array (Matrix (Expr K))}
    (h : Expr.Coherent (Matrix.entries outputs)) : Complete outputs (depthFirst outputs).toList := by
  obtain ⟨hg, -, hmem, hst⟩ := foldl_place h (targets outputs) (fun _ h => h) _ (.start _)
  rw [depthFirst_eq]
  refine ⟨hg.placed, fun e => ⟨hg.reached e, ?_⟩, by simpa [stores] using hst⟩
  rintro ⟨r, hr, he⟩
  obtain ⟨i, k, m, hm, hk⟩ := Matrix.mem_entries.mp hr
  exact hg.placed.mem_of_reaches (hmem _ (mem_targets.mpr ⟨m, hm, hk⟩)) he

end Order

end Fluxion
