import Fluxion.Proofs.Expr.Applied

/-!
What the builders make. Every new node takes the next number and refers to nodes that exist, so whatever
is built, step after step, is coherent.
-/
set_option autoImplicit false

namespace Fluxion.Expr

variable {K : Type}

theorem ReachedFrom.mono {roots roots' : List (Expr K)} (h : ∀ e ∈ roots, ReachedFrom roots' e)
    {a : Expr K} (ha : ReachedFrom roots a) : ReachedFrom roots' a := by
  obtain ⟨r, hr, ha⟩ := ha
  exact .trans ha (h r hr)

theorem ReachedFrom.cons {roots : List (Expr K)} {a : Expr K} (h : ReachedFrom roots a) (e : Expr K) :
    ReachedFrom (e :: roots) a :=
  h.mono fun _ hr => .root (List.mem_cons_of_mem _ hr)

theorem Coherent.mono {roots roots' : List (Expr K)} (h : Coherent roots')
    (hr : ∀ e ∈ roots, ReachedFrom roots' e) : Coherent roots :=
  ⟨fun e he => h.proper e (he.mono hr), fun a b ha hb => h.unique a b (ha.mono hr) (hb.mono hr)⟩

/-- Coherent roots below which all numbers are smaller than `n`. -/
structure Numbered (n : Nat) (roots : List (Expr K)) : Prop extends Coherent roots where
  below : ∀ e, ReachedFrom roots e → e.id < n

theorem numbered_nil (n : Nat) : Numbered n ([] : List (Expr K)) := by
  refine ⟨⟨?_, ?_⟩, ?_⟩
  · rintro e ⟨r, hr, -⟩
    cases hr
  · rintro a b ⟨r, hr, -⟩
    cases hr
  · rintro e ⟨r, hr, -⟩
    cases hr

theorem Numbered.mono {n m : Nat} {roots : List (Expr K)} (h : Numbered n roots) (hm : n ≤ m) : Numbered m roots :=
  ⟨h.toCoherent, fun e he => Nat.lt_of_lt_of_le (h.below e he) hm⟩

theorem Numbered.of_reached {n : Nat} {roots roots' : List (Expr K)} (h : Numbered n roots')
    (hr : ∀ e ∈ roots, ReachedFrom roots' e) : Numbered n roots :=
  ⟨h.toCoherent.mono hr, fun e he => h.below e (he.mono hr)⟩

/-- Whatever a new root reaches is the root itself or was reached before. -/
theorem reachedFrom_cons {roots : List (Expr K)} {e a : Expr K}
    (ho : ∀ b ∈ e.operands, ReachedFrom roots b) (h : ReachedFrom (e :: roots) a) :
    a = e ∨ ReachedFrom roots a := by
  obtain ⟨r, hr, ha⟩ := h
  obtain rfl | hr := List.mem_cons.mp hr
  · obtain rfl | ⟨b, hb, ha⟩ := reaches_iff.mp ha
    · exact .inl rfl
    · exact .inr (.trans ha (ho b hb))
  · exact .inr ⟨r, hr, ha⟩

/-- A node that is there already may be named again. -/
theorem Numbered.again {n : Nat} {roots : List (Expr K)} (h : Numbered n roots) {e : Expr K}
    (he : ReachedFrom roots e) : Numbered n (e :: roots) := by
  have hr : ∀ a, ReachedFrom (e :: roots) a → ReachedFrom roots a := by
    intro a ha
    obtain rfl | ha := reachedFrom_cons (fun b hb => he.operand hb) ha
    · exact he
    · exact ha
  exact ⟨⟨fun a ha => h.proper a (hr a ha), fun a b ha hb => h.unique a b (hr a ha) (hr b hb)⟩,
    fun a ha => h.below a (hr a ha)⟩

/-- A new node over nodes that exist. -/
theorem Numbered.new {n : Nat} {roots : List (Expr K)} (h : Numbered n roots) {e : Expr K}
    (hid : e.id = n) (hp : e.Proper) (ho : ∀ b ∈ e.operands, ReachedFrom roots b) :
    Numbered (n+1) (e :: roots) := by
  refine ⟨⟨fun a ha => ?_, fun a b ha hb hab => ?_⟩, fun a ha => ?_⟩
  · obtain rfl | ha := reachedFrom_cons ho ha
    · exact hp
    · exact h.proper a ha
  · cases reachedFrom_cons ho ha with
    | inl hae =>
      cases reachedFrom_cons ho hb with
      | inl hbe => rw [hae, hbe]
      | inr hb =>
        have := h.below b hb
        rw [hae] at hab
        omega
    | inr ha =>
      cases reachedFrom_cons ho hb with
      | inl hbe =>
        have := h.below a ha
        rw [hbe] at hab
        omega
      | inr hb => exact h.unique a b ha hb hab
  · obtain rfl | ha := reachedFrom_cons ho ha
    · omega
    · have := h.below a ha
      omega

/-- The action makes a root of its result. -/
def Makes (roots : List (Expr K)) (act : Fresh (Expr K)) : Prop :=
  ∀ n, Numbered n roots → Numbered (act.run n).2 ((act.run n).1 :: roots)

section Makes

variable {roots : List (Expr K)} {a b : Expr K}

theorem makes_newSymbol (roots : List (Expr K)) (name : String) : Makes roots (newSymbol name) :=
  fun n hn => hn.new (e := .symbol ⟨n,name⟩) rfl trivial (by simp [operands])

theorem makes_newConst (roots : List (Expr K)) (v : K) : Makes roots (newConst v) :=
  fun n hn => hn.new (e := .const n v) rfl trivial (by simp [operands])

variable [Number K]

/-- The result is a node that is there already or a new one over nodes that are. -/
theorem Applied.again_or_new {op : Op} {n : Nat} {r : Expr K × Nat} (h : Applied op a b n r)
    (hproper : ∀ e, ReachedFrom roots e → e.Proper) (ha : ReachedFrom roots a) (hb : ReachedFrom roots b) :
    r.2 = n ∧ ReachedFrom roots r.1 ∨
    r.2 = n+1 ∧ r.1.id = n ∧ r.1.Proper ∧ (∀ x ∈ r.1.operands, ReachedFrom roots x) ∧ (∀ s, r.1 ≠ .symbol s) ∧
      (r.1.op.isStructural = false → r.1.op ∈ op.forms) := by
  cases h with
  | operand h => exact .inl ⟨rfl, h.elim (fun h => .trans h ha) fun h => .trans h hb⟩
  | const v => exact .inr ⟨rfl, rfl, trivial, by simp [operands], by simp, by simp [Expr.op, Op.isStructural]⟩
  | @unary form x hform hs harity hx _ =>
    have hx : ReachedFrom roots x := by
      rcases hx with rfl | rfl
      · exact ha
      · exact hb
    exact .inr ⟨rfl, rfl, ⟨hs, harity, hproper x hx⟩, by simpa [operands] using hx, by simp, fun _ => hform⟩
  | binary hform harity _ =>
    exact .inr ⟨rfl, rfl, ⟨harity, hproper a ha, hproper b hb⟩, by simpa [operands] using ⟨ha, hb⟩, by simp,
      fun _ => hform⟩

theorem makes_apply {op : Op} (hs : op.isStructural = false) (ha : ReachedFrom roots a)
    (hb : ReachedFrom roots b) : Makes roots (apply op a b) := by
  intro n hn
  rcases (applied_apply hs a b n).again_or_new hn.proper ha hb with
    ⟨hnext, hr⟩ | ⟨hnext, hid, hp, ho, -⟩
  · rw [hnext]
    exact hn.again hr
  · rw [hnext]
    exact hn.new hid hp ho

end Makes

variable [Number K]

/-- Roots that the builders make one after the other; `n` is the next number. Others may take numbers as well. -/
inductive Built : Nat → List (Expr K) → Prop
  | nil (n : Nat) : Built n []
  | skip {n m : Nat} {roots : List (Expr K)} (h : Built n roots) (hm : n ≤ m) : Built m roots
  | symbol {n : Nat} {roots : List (Expr K)} (h : Built n roots) (name : String) :
    Built ((newSymbol (K := K) name).run n).2 (((newSymbol name).run n).1 :: roots)
  | const {n : Nat} {roots : List (Expr K)} (h : Built n roots) (v : K) :
    Built ((newConst v).run n).2 (((newConst v).run n).1 :: roots)
  | apply {n : Nat} {roots : List (Expr K)} (h : Built n roots) {op : Op}
    (hs : op.isStructural = false) {a b : Expr K} (ha : a ∈ roots) (hb : b ∈ roots) :
    Built ((apply op a b).run n).2 (((apply op a b).run n).1 :: roots)

theorem Built.numbered {n : Nat} {roots : List (Expr K)} (h : Built n roots) : Numbered n roots := by
  induction h with
  | nil n => exact numbered_nil n
  | skip _ hm ih => exact ih.mono hm
  | symbol _ name ih => exact makes_newSymbol _ name _ ih
  | const _ v ih => exact makes_newConst _ v _ ih
  | apply _ hs ha hb ih => exact makes_apply hs (.root ha) (.root hb) _ ih

/-- Symbols are made as such. -/
theorem Built.symbol_mem {n : Nat} {roots : List (Expr K)} (h : Built n roots) {s : Symbol}
    (hs : ReachedFrom roots (.symbol s)) : .symbol s ∈ roots := by
  induction h with
  | nil n =>
    obtain ⟨r, hr, -⟩ := hs
    cases hr
  | skip _ _ ih => exact ih hs
  | symbol _ name ih =>
    obtain he | hs := reachedFrom_cons (fun b hb => by cases hb) hs
    · exact he ▸ .head _
    · exact .tail _ (ih hs)
  | const _ v ih =>
    obtain he | hs := reachedFrom_cons (fun b hb => by cases hb) hs
    · cases he
    · exact .tail _ (ih hs)
  | @apply n roots h op hop a b ha hb ih =>
    rcases (applied_apply hop a b n).again_or_new h.numbered.proper (.root ha) (.root hb) with
      ⟨-, hr⟩ | ⟨-, -, -, ho, hsymbol, -⟩
    · obtain he | hs := reachedFrom_cons (fun b hb => hr.operand hb) hs
      · exact .tail _ (ih (he ▸ hr))
      · exact .tail _ (ih hs)
    · obtain he | hs := reachedFrom_cons ho hs
      · exact absurd he.symm (hsymbol s)
      · exact .tail _ (ih hs)

/-- Whatever is taken from what the builders made is coherent. -/
theorem Built.coherent {n : Nat} {made roots : List (Expr K)} (h : Built n made)
    (hr : ∀ e ∈ roots, e ∈ made) : Coherent roots :=
  h.numbered.toCoherent.mono fun e he => .root (hr e he)

end Fluxion.Expr
