import Fluxion.Matrix
import Fluxion.Expr.Basic

/-!
Sharing. Expressions that the builders make have two properties on which every traversal relies: each
operation has the operands it takes, and a number stands for one node, wherever it is met.
-/
set_option autoImplicit false

namespace Fluxion

theorem Op.isStructural_of_arity {op : Op} (h : op.arity = 2) : op.isStructural = false := by
  cases op <;> first
    | rfl
    | cases h

theorem Op.arity_one_or_two {op : Op} (h : op.isStructural = false) : op.arity = 1 ∨ op.arity = 2 := by
  cases op <;> simp [isStructural, arity] at h ⊢

namespace Expr

variable {K : Type}

theorem reaches_iff {e t : Expr K} : Reaches e t ↔ e = t ∨ ∃ a ∈ t.operands, Reaches e a := by
  cases t <;> simp [Reaches, operands]

theorem Reaches.refl (e : Expr K) : Reaches e e := reaches_iff.mpr (.inl rfl)

theorem Reaches.operand {a t : Expr K} (h : a ∈ t.operands) : Reaches a t :=
  reaches_iff.mpr (.inr ⟨a, h, .refl a⟩)

theorem size_lt_of_mem_operands {a t : Expr K} (h : a ∈ t.operands) : a.size < t.size := by
  cases t <;> simp only [operands, List.mem_cons, List.not_mem_nil, or_false] at h
  · subst h
    simp only [size]; omega
  · obtain rfl | rfl := h <;> simp only [size] <;> omega

theorem Reaches.trans {a b c : Expr K} (h : Reaches a b) (g : Reaches b c) : Reaches a c := by
  obtain rfl | ⟨d, hd, g⟩ := reaches_iff.mp g
  · exact h
  · exact reaches_iff.mpr (.inr ⟨d, hd, h.trans g⟩)
  termination_by c.size
  decreasing_by exact size_lt_of_mem_operands hd

theorem Reaches.size_le {a b : Expr K} (h : Reaches a b) : a.size ≤ b.size := by
  obtain rfl | ⟨d, hd, h⟩ := reaches_iff.mp h
  · exact Nat.le_refl _
  · exact Nat.le_of_lt (Nat.lt_of_le_of_lt h.size_le (size_lt_of_mem_operands hd))
  termination_by b.size
  decreasing_by exact size_lt_of_mem_operands hd

/-- Whatever is reached, unless it is the node itself, is an operand of something that is reached. -/
theorem Reaches.parent {a t : Expr K} (h : Reaches a t) :
    a = t ∨ ∃ d, Reaches d t ∧ a ∈ d.operands := by
  obtain rfl | ⟨b, hb, h⟩ := reaches_iff.mp h
  · exact .inl rfl
  · obtain rfl | ⟨d, hd, ha⟩ := h.parent
    · exact .inr ⟨t, .refl t, hb⟩
    · exact .inr ⟨d, hd.trans (.operand hb), ha⟩
  termination_by t.size
  decreasing_by exact size_lt_of_mem_operands hb

/-- Unary nodes carry unary operations and binary nodes binary ones. -/
def Proper : Expr K → Prop
  | symbol _ | const _ _ => True
  | unary _ op a => op.isStructural = false ∧ op.arity = 1 ∧ a.Proper
  | binary _ op a b => op.arity = 2 ∧ a.Proper ∧ b.Proper

/-- Reached from one of several roots. -/
def ReachedFrom (roots : List (Expr K)) (e : Expr K) : Prop := ∃ r ∈ roots, Reaches e r

theorem ReachedFrom.root {roots : List (Expr K)} {e : Expr K} (h : e ∈ roots) : ReachedFrom roots e :=
  ⟨e, h, .refl e⟩

theorem ReachedFrom.trans {roots : List (Expr K)} {a e : Expr K} (h : Reaches a e)
    (he : ReachedFrom roots e) : ReachedFrom roots a := by
  obtain ⟨r, hr, he⟩ := he
  exact ⟨r, hr, h.trans he⟩

theorem ReachedFrom.operand {roots : List (Expr K)} {a e : Expr K} (he : ReachedFrom roots e)
    (h : a ∈ e.operands) : ReachedFrom roots a := .trans (.operand h) he

theorem ReachedFrom.parent {roots : List (Expr K)} {a : Expr K} (h : ReachedFrom roots a) :
    a ∈ roots ∨ ∃ d, ReachedFrom roots d ∧ a ∈ d.operands := by
  obtain ⟨r, hr, h⟩ := h
  obtain rfl | ⟨d, hd, ha⟩ := h.parent
  · exact .inl hr
  · exact .inr ⟨d, ⟨r, hr, hd⟩, ha⟩

/-- Roots as the builders make them. -/
structure Coherent (roots : List (Expr K)) : Prop where
  proper : ∀ e, ReachedFrom roots e → e.Proper
  unique : ∀ a b, ReachedFrom roots a → ReachedFrom roots b → a.id = b.id → a = b

end Expr

namespace Matrix

variable {T : Type}

/-- The entries of several matrices, one after the other. -/
def entries (ms : Array (Matrix T)) : List T := ms.toList.flatMap (·.values.toList)

theorem entries_append (ms ms' : Array (Matrix T)) :
    entries (ms ++ ms') = entries ms ++ entries ms' := by
  simp [entries]

theorem entries_flatten (ss : Array (Array (Matrix T))) : entries ss.flatten = ss.toList.flatMap entries := by
  simp only [entries, Array.toList_flatten, List.flatMap_def, List.map_flatten, List.map_map,
    List.flatten_flatten]
  rfl

theorem mem_entries {ms : Array (Matrix T)} {x : T} :
    x ∈ entries ms ↔ ∃ (i k : Nat) (m : Matrix T), ms[i]? = some m ∧ m.values[k]? = some x := by
  simp only [entries, List.mem_flatMap, Array.mem_toList_iff, Array.mem_iff_getElem?]
  constructor
  · rintro ⟨m, ⟨i, hi⟩, k, hk⟩
    exact ⟨i, k, m, hi, hk⟩
  · rintro ⟨i, k, m, hi, hk⟩
    exact ⟨m, ⟨i, hi⟩, k, hk⟩

end Matrix

end Fluxion
