import Fluxion.Proofs.Expr.Returns

/-!
Expressions to which no rule applies. All that the builders make is of this kind, and an operation on the like of the
operands of such a node makes the like of the node: the same tree of operations, symbols and constants.
-/
set_option autoImplicit false

namespace Fluxion.Expr

variable {K : Type}

/-- The expression without the numbers of its nodes. Symbols stay what they are. -/
def bare : Expr K → Expr K
  | symbol s => symbol s
  | const _ v => const 0 v
  | unary _ op a => unary 0 op a.bare
  | binary _ op a b => binary 0 op a.bare b.bare

@[simp] theorem constant?_bare (e : Expr K) : e.bare.constant? = e.constant? := by cases e <;> rfl

@[simp] theorem isNegation_bare (e : Expr K) : e.bare.isNegation = e.isNegation := by
  cases e with
  | unary i op a => cases op <;> rfl
  | _ => rfl

variable [Number K]

/-- No rule takes the place of a node. -/
def Simplified : Expr K → Prop
  | symbol _ | const _ _ => True
  | unary _ op a => reduces op a a = false ∧ a.Simplified
  | binary _ op a b => reduces op a b = false ∧ a.Simplified ∧ b.Simplified

theorem Simplified.operand {a e : Expr K} (he : e.Simplified) (h : a ∈ e.operands) : a.Simplified := by
  cases e <;> simp only [operands, List.mem_cons, List.not_mem_nil, or_false] at h
  · exact h ▸ he.2
  · obtain rfl | rfl := h
    · exact he.2.1
    · exact he.2.2

theorem Simplified.of_reaches {a e : Expr K} (he : e.Simplified) (h : Reaches a e) : a.Simplified := by
  obtain rfl | ⟨d, hd, h⟩ := reaches_iff.mp h
  · exact he
  · exact (he.operand hd).of_reaches h
  termination_by e.size
  decreasing_by exact size_lt_of_mem_operands hd

theorem Applied.simplified {op : Op} {a b : Expr K} {n : Nat} {r : Expr K × Nat} (h : Applied op a b n r)
    (ha : a.Simplified) (hb : b.Simplified) : r.1.Simplified := by
  cases h with
  | operand h => exact h.elim ha.of_reaches hb.of_reaches
  | const _ => trivial
  | unary _ _ _ hx hr =>
    refine ⟨hr, ?_⟩
    rcases hx with rfl | rfl
    · exact ha
    · exact hb
  | binary _ _ hr => exact ⟨hr, ha, hb⟩

/-- Whatever the builders make is simplified. -/
theorem Built.simplified {n : Nat} {roots : List (Expr K)} (h : Built n roots) : ∀ e ∈ roots, e.Simplified := by
  induction h with
  | nil n => simp
  | skip _ _ ih => exact ih
  | symbol _ name ih => exact List.forall_mem_cons.mpr ⟨trivial, ih⟩
  | const _ v ih => exact List.forall_mem_cons.mpr ⟨trivial, ih⟩
  | @apply n roots _ op hs a b ha hb ih =>
    exact List.forall_mem_cons.mpr ⟨(applied_apply hs a b n).simplified (ih a ha) (ih b hb), ih⟩

/-- Rules look at constants and operations only. -/
theorem reduces_bare (op : Op) (a b : Expr K) : reduces op a.bare b.bare = reduces op a b := by
  simp [reduces, isZero, isOne, isConst]

theorem reduces_eq {op : Op} {a b x y : Expr K} (hx : x.bare = a.bare) (hy : y.bare = b.bare) :
    reduces op x y = reduces op a b := by
  rw [← reduces_bare, hx, hy, reduces_bare]

section Yields

variable {ok : Op → Prop} {symbols roots : List (Expr K)} {a b x y : Expr K}

/-- An operation on the like of the operand of a simplified node makes the like of the node. -/
theorem yields_unary_again {i : Nat} {op : Op} (hproper : (unary i op a).Proper) (hs : (unary i op a).Simplified)
    (hok : ok op) (hx : Denotes bare a.bare roots x) :
    Yields ok symbols roots (apply op x x) (Denotes bare (unary i op a).bare) := by
  rw [apply_of_unary ((reduces_eq hx.2 hx.2).trans hs.1) hproper.2.1]
  refine fun n hn => ⟨_, List.subset_cons_self _ _, hn.new (e := .unary n op x) rfl
    ⟨hproper.1, hproper.2.1, hn.proper x hx.1⟩ (by simpa [operands] using hx.1) (by simp) fun _ => hok,
    .root List.mem_cons_self, ?_⟩
  exact congrArg (unary 0 op) hx.2

theorem yields_binary_again {i : Nat} {op : Op} (hproper : (binary i op a b).Proper)
    (hs : (binary i op a b).Simplified) (hok : ok op) (hx : Denotes bare a.bare roots x)
    (hy : Denotes bare b.bare roots y) :
    Yields ok symbols roots (apply op x y) (Denotes bare (binary i op a b).bare) := by
  rw [apply_of_binary ((reduces_eq hx.2 hy.2).trans hs.1) hproper.1]
  refine fun n hn => ⟨_, List.subset_cons_self _ _, hn.new (e := .binary n op x y) rfl
    ⟨hproper.1, hn.proper x hx.1, hn.proper y hy.1⟩ (by simpa [operands] using ⟨hx.1, hy.1⟩) (by simp) fun _ => hok,
    .root List.mem_cons_self, ?_⟩
  exact congrArg₂ (binary 0 op) hx.2 hy.2

end Yields

end Fluxion.Expr
