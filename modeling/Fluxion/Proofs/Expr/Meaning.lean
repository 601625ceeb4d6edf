import Mathlib.Algebra.Ring.Hom.Defs
import Fluxion.Proofs.Exact
import Fluxion.Proofs.Expr.Advances
import Fluxion.Proofs.Expr.Built

/-!
What the builders mean. Constants may be read as numbers of a larger ring; then every expression has a value
there, and the value of what a builder makes is that of the operation, whether it computed, simplified or
made a node.
-/
set_option autoImplicit false

namespace Fluxion

variable {K R : Type}

namespace Expr

/-- The expression with other constants. -/
def map (f : K → R) : Expr K → Expr R
  | symbol s => symbol s
  | const i v => const i (f v)
  | unary i op a => unary i op (a.map f)
  | binary i op a b => binary i op (a.map f) (b.map f)

@[simp] theorem id_map (f : K → R) (e : Expr K) : (e.map f).id = e.id := by cases e <;> rfl

@[simp] theorem op_map (f : K → R) (e : Expr K) : (e.map f).op = e.op := by cases e <;> rfl

@[simp] theorem operands_map (f : K → R) (e : Expr K) : (e.map f).operands = e.operands.map (map f) := by
  cases e <;> rfl

@[simp] theorem symbol?_map (f : K → R) (e : Expr K) : (e.map f).symbol? = e.symbol? := by
  cases e <;> rfl

@[simp] theorem map_eq_symbol {f : K → R} {e : Expr K} {s : Symbol} :
    e.map f = symbol s ↔ e = symbol s := by
  cases e <;> simp [map]

theorem map_eq_self {f : K → K} (h : ∀ v, f v = v) (e : Expr K) : e.map f = e := by
  induction e with
  | symbol _ => rfl
  | const i v => exact congrArg (const i) (h v)
  | unary i op a ih => exact congrArg (unary i op) ih
  | binary i op a b iha ihb => exact congrArg₂ (binary i op) iha ihb

theorem Proper.map {e : Expr K} (h : e.Proper) (f : K → R) : (e.map f).Proper := by
  induction e with
  | symbol _ | const _ _ => trivial
  | unary i op a ih => exact ⟨h.1, h.2.1, ih h.2.2⟩
  | binary i op a b iha ihb => exact ⟨h.1, iha h.2.1, ihb h.2.2⟩

theorem reaches_map {f : K → R} {e : Expr K} {d : Expr R} :
    Reaches d (e.map f) ↔ ∃ a, Reaches a e ∧ a.map f = d := by
  induction e with
  | symbol _ | const _ _ => simp [map, Reaches, eq_comm]
  | unary i op a ih =>
    simp only [map, Reaches, ih, or_and_right, exists_or, exists_eq_left]
    exact or_congr_left eq_comm
  | binary i op a b iha ihb =>
    simp only [map, Reaches, iha, ihb, or_and_right, exists_or, exists_eq_left]
    exact or_congr_left eq_comm

theorem reachedFrom_map {f : K → R} {roots : List (Expr K)} {d : Expr R} :
    ReachedFrom (roots.map (map f)) d ↔ ∃ a, ReachedFrom roots a ∧ a.map f = d := by
  constructor
  · rintro ⟨r, hr, hd⟩
    obtain ⟨e, he, rfl⟩ := List.mem_map.mp hr
    obtain ⟨a, ha, rfl⟩ := reaches_map.mp hd
    exact ⟨a, ⟨e, he, ha⟩, rfl⟩
  · rintro ⟨a, ⟨e, he, ha⟩, rfl⟩
    exact ⟨e.map f, List.mem_map_of_mem he, reaches_map.mpr ⟨a, ha, rfl⟩⟩

theorem Coherent.map {roots : List (Expr K)} (h : Coherent roots) (f : K → R) :
    Coherent (roots.map (map f)) := by
  refine ⟨fun d hd => ?_, fun d e hd he hid => ?_⟩
  · obtain ⟨a, ha, rfl⟩ := reachedFrom_map.mp hd
    exact (h.proper a ha).map f
  · obtain ⟨a, ha, rfl⟩ := reachedFrom_map.mp hd
    obtain ⟨b, hb, rfl⟩ := reachedFrom_map.mp he
    rw [h.unique a b ha hb (by simpa using hid)]

/-- The value where constants stand for numbers of `R`. -/
def meaning [Number R] (f : K → R) (ρ : Symbol → R) (e : Expr K) : R := (e.map f).value ρ

/-- Constants that stand for themselves. -/
@[simp] theorem meaning_id [CommRing K] [Number K] (ρ : Symbol → K) (e : Expr K) :
    e.meaning (RingHom.id K) ρ = e.value ρ :=
  congrArg (value ρ) (map_eq_self (fun _ => rfl) e)

section Meaning

variable [Number R] {f : K → R} {ρ : Symbol → R}

@[simp] theorem meaning_symbol (s : Symbol) : (symbol s : Expr K).meaning f ρ = ρ s := rfl

@[simp] theorem meaning_const (i : Nat) (v : K) : (const i v).meaning f ρ = f v := rfl

@[simp] theorem meaning_unary (i : Nat) (op : Op) (a : Expr K) :
    (unary i op a).meaning f ρ = Number.eval op (a.meaning f ρ) (a.meaning f ρ) := rfl

@[simp] theorem meaning_binary (i : Nat) (op : Op) (a b : Expr K) :
    (binary i op a b).meaning f ρ = Number.eval op (a.meaning f ρ) (b.meaning f ρ) := rfl

end Meaning

end Expr

/-- Numbers of `R` for the constants, under which the operations that are `ok` keep their results and the
identities hold by which builders simplify. -/
structure Reading [CommRing K] [Number K] [CommRing R] [Number R] (ok : Op → Prop) (f : K →+* R) :
    Prop where
  eval (op : Op) (h : ok op) (x y : K) : f (Number.eval op x y) = Number.eval op (f x) (f y)
  add : ok .add
  mul : ok .mul
  neg : ok .neg
  sq : ok .constPow → ok .sq
  constPow : ok .pow → ok .constPow
  div_one (x : R) : ok .div → Number.eval .div x 1 = x
  zero_div (x : R) : ok .div → Number.eval .div 0 x = 0
  pow_const (x : R) (y : K) : ok .pow → Number.eval .pow x (f y) = Number.eval .constPow x (f y)
  constPow_zero (x : R) : ok .constPow → Number.eval .constPow x 0 = 1
  constPow_one (x : R) : ok .constPow → Number.eval .constPow x 1 = x
  constPow_two (x : R) : ok .constPow → Number.eval .constPow x 2 = Number.eval .sq x x

/-- The laws by which builders simplify one operation, where the second operand stands for `y`. -/
structure Simplifies [CommRing K] [Number K] [CommRing R] [Number R] (f : K →+* R) (op : Op) (y : R) : Prop where
  eval (form : Op) (h : form ∈ op.forms) (u v : K) : f (Number.eval form u v) = Number.eval form (f u) (f v)
  div_one (x : R) : op = .div → Number.eval .div x 1 = x
  zero_div : op = .div → Number.eval .div 0 y = 0
  pow_const (x : R) (k : K) : op = .pow → Number.eval .pow x (f k) = Number.eval .constPow x (f k)
  constPow_zero (x : R) : .constPow ∈ op.forms → Number.eval .constPow x 0 = 1
  constPow_one (x : R) : .constPow ∈ op.forms → Number.eval .constPow x 1 = x
  constPow_two (x : R) : .constPow ∈ op.forms → Number.eval .constPow x 2 = Number.eval .sq x x

section Reading

variable [CommRing K] [Number K] [CommRing R] [Number R] {ok : Op → Prop} {f : K →+* R}

/-- With an operation all those are `ok` that it may end in. -/
theorem Reading.ok_form (h : Reading ok f) {op form : Op} (hok : ok op) (hform : form ∈ op.forms) : ok form := by
  cases op with
  | pow =>
    simp only [Op.forms, List.mem_cons, List.not_mem_nil, or_false] at hform
    obtain rfl | rfl | rfl := hform
    · exact hok
    · exact h.constPow hok
    · exact h.sq (h.constPow hok)
  | constPow =>
    simp only [Op.forms, List.mem_cons, List.not_mem_nil, or_false] at hform
    obtain rfl | rfl := hform
    · exact hok
    · exact h.sq hok
  | sub | mul =>
    simp only [Op.forms, List.mem_cons, List.not_mem_nil, or_false] at hform
    obtain rfl | rfl := hform
    · exact hok
    · exact h.neg
  | _ => exact List.mem_singleton.mp hform ▸ hok

theorem Reading.simplifies (h : Reading ok f) {op : Op} (hok : ok op) (y : R) : Simplifies f op y where
  eval form hform := h.eval form (h.ok_form hok hform)
  div_one x he := h.div_one x (he ▸ hok)
  zero_div he := h.zero_div y (he ▸ hok)
  pow_const x k he := h.pow_const x k (he ▸ hok)
  constPow_zero x hform := h.constPow_zero x (h.ok_form hok hform)
  constPow_one x hform := h.constPow_one x (h.ok_form hok hform)
  constPow_two x hform := h.constPow_two x (h.ok_form hok hform)

end Reading

/-- Rational operations alone, where inverses are kept. -/
theorem Reading.rational [CommRing K] [Inv K] [Number K] [ExactDivision K] [CommRing R] [Inv R] [Number R]
    [ExactDivision R] (f : K →+* R) (hf : ∀ x, f x⁻¹ = (f x)⁻¹) :
    Reading (fun op => op.isRational = true) f where
  eval op h x y := by
    cases op
    case add => rw [ExactRing.eval_add, ExactRing.eval_add, map_add]
    case sub => rw [ExactRing.eval_sub, ExactRing.eval_sub, map_sub]
    case mul => rw [ExactRing.eval_mul, ExactRing.eval_mul, map_mul]
    case div => rw [ExactDivision.eval_div, ExactDivision.eval_div, map_mul, hf]
    case neg => rw [ExactRing.eval_neg, ExactRing.eval_neg, map_neg]
    case recip => rw [ExactDivision.eval_recip, ExactDivision.eval_recip, hf]
    case sq => rw [ExactDivision.eval_sq, ExactDivision.eval_sq, map_mul]
    all_goals cases h
  add := rfl
  mul := rfl
  neg := rfl
  sq h := by cases h
  constPow h := by cases h
  div_one x _ := by rw [ExactDivision.eval_div, ExactDivision.inv_one, mul_one]
  zero_div x _ := by rw [ExactDivision.eval_div, zero_mul]
  pow_const _ _ h := by cases h
  constPow_zero _ h := by cases h
  constPow_one _ h := by cases h
  constPow_two _ h := by cases h

namespace Expr

/-- Numbered roots over the given symbols, all of whose operations are `ok`. -/
structure Stock (ok : Op → Prop) (symbols : List (Expr K)) (n : Nat) (roots : List (Expr K)) : Prop
    extends Numbered n roots where
  symbol : ∀ s, ReachedFrom roots (.symbol s) → .symbol s ∈ symbols
  op : ∀ e, ReachedFrom roots e → e.op.isStructural = false → ok e.op

variable {ok : Op → Prop} {symbols : List (Expr K)} {n : Nat} {roots roots' : List (Expr K)}

theorem Stock.again (h : Stock ok symbols n roots) {e : Expr K} (he : ReachedFrom roots e) :
    Stock ok symbols n (e :: roots) := by
  have hr : ∀ a, ReachedFrom (e :: roots) a → ReachedFrom roots a := by
    intro a ha
    obtain rfl | ha := reachedFrom_cons (fun b hb => he.operand hb) ha
    · exact he
    · exact ha
  exact ⟨h.toNumbered.again he, fun s hs => h.symbol s (hr _ hs), fun a ha => h.op a (hr a ha)⟩

theorem Stock.new (h : Stock ok symbols n roots) {e : Expr K} (hid : e.id = n) (hp : e.Proper)
    (ho : ∀ b ∈ e.operands, ReachedFrom roots b) (hs : ∀ s, e = .symbol s → e ∈ symbols)
    (hop : e.op.isStructural = false → ok e.op) : Stock ok symbols (n+1) (e :: roots) := by
  refine ⟨h.toNumbered.new hid hp ho, fun s hr => ?_, fun a ha hstr => ?_⟩
  · obtain he | hr := reachedFrom_cons ho hr
    · rw [he]
      exact hs s he.symm
    · exact h.symbol s hr
  · obtain rfl | ha := reachedFrom_cons ho ha
    · exact hop hstr
    · exact h.op a ha hstr

theorem Stock.mono (h : Stock ok symbols n roots) {m : Nat} (hm : n ≤ m) : Stock ok symbols m roots :=
  ⟨h.toNumbered.mono hm, h.symbol, h.op⟩

theorem ReachedFrom.subset {a : Expr K} (h : ReachedFrom roots a) (hr : roots ⊆ roots') :
    ReachedFrom roots' a :=
  h.mono fun _ he => .root (hr he)

/-- Whatever stock it starts from, the action ends with a larger one and a result of which `P` holds. -/
def Yields (ok : Op → Prop) (symbols : List (Expr K)) {α : Type} (roots : List (Expr K)) (act : Fresh α)
    (P : List (Expr K) → α → Prop) : Prop :=
  ∀ n, Stock ok symbols n roots →
    ∃ roots', roots ⊆ roots' ∧ Stock ok symbols (act.run n).2 roots' ∧ P roots' (act.run n).1

namespace Yields

variable {α β : Type} {act : Fresh α} {P Q : List (Expr K) → α → Prop}

theorem advances (h : Yields ok symbols roots act P) : Advances (Stock ok symbols) roots act P := h

protected theorem pure {a : α} (h : P roots a) : Yields ok symbols roots (pure a) P :=
  Advances.pure (S := Stock ok symbols) h

protected theorem bind {next : α → Fresh β} {Q : List (Expr K) → β → Prop}
    (h : Yields ok symbols roots act P)
    (hnext : ∀ roots' a, roots ⊆ roots' → P roots' a → Yields ok symbols roots' (next a) Q) :
    Yields ok symbols roots (act >>= next) Q :=
  Advances.bind (S := Stock ok symbols) h hnext

theorem mono (h : Yields ok symbols roots act P)
    (hpq : ∀ roots' a, roots ⊆ roots' → P roots' a → Q roots' a) : Yields ok symbols roots act Q :=
  Advances.mono (S := Stock ok symbols) h hpq

/-- One run serves all at once what each of several properties asks of its result. -/
theorem all {ι : Sort*} [Nonempty ι] {Q : ι → α → Prop}
    (h : ∀ i, Yields ok symbols roots act fun roots' a => P roots' a ∧ Q i a) :
    Yields ok symbols roots act fun roots' a => P roots' a ∧ ∀ i, Q i a := by
  intro n hn
  obtain ⟨i⟩ := ‹Nonempty ι›
  obtain ⟨roots', hsub, hend, hp, -⟩ := h i n hn
  refine ⟨roots', hsub, hend, hp, fun j => ?_⟩
  obtain ⟨-, -, -, -, hq⟩ := h j n hn
  exact hq

end Yields

/-- A node that is there and stands for `y`. -/
def Denotes (f : Expr K → R) (y : R) (roots : List (Expr K)) (x : Expr K) : Prop :=
  ReachedFrom roots x ∧ f x = y

theorem Denotes.subset {f : Expr K → R} {y : R} {x : Expr K} (h : Denotes f y roots x)
    (hr : roots ⊆ roots') : Denotes f y roots' x :=
  ⟨h.1.subset hr, h.2⟩

section Builders

variable [CommRing K] [Number K] [CommRing R] [Number R] {f : K →+* R} {ρ : Symbol → R} {a b : Expr K}

omit [CommRing K] [Number K] in
theorem yields_const (v : K) : Yields ok symbols roots (newConst v) fun roots' x =>
    ReachedFrom roots' x ∧ ∃ i, x = .const i v :=
  fun n hn => ⟨_, List.subset_cons_self _ _,
    hn.new (e := .const n v) rfl trivial (by simp [operands]) (by simp) (by simp [Expr.op, Op.isStructural]),
    .root List.mem_cons_self, n, rfl⟩

omit [Number K] in
theorem yields_newConst (v : K) :
    Yields ok symbols roots (newConst v) (Denotes (meaning f ρ) (f v)) :=
  (yields_const v).mono fun _ _ _ ⟨hx, _, he⟩ => ⟨hx, he ▸ rfl⟩

variable [ExactRing K]

omit [CommRing R] [Number R] in
/-- A constant that compares equal stands for the number. -/
theorem eq_const_of_isConst {k : K} (h : a.isConst k = true) : ∃ i, a = .const i k := by
  cases a with
  | const i v =>
    have hv : Number.equal v k = true := by simpa [isConst, constant?] using h
    exact ⟨i, by rw [(ExactRing.equal_iff v k).mp hv]⟩
  | _ => simp [isConst, constant?] at h

theorem meaning_of_isConst {k : K} (h : a.isConst k = true) : a.meaning f ρ = f k := by
  obtain ⟨i, rfl⟩ := eq_const_of_isConst h
  rfl

theorem meaning_of_isZero (h : a.isZero = true) : a.meaning f ρ = 0 := by
  rw [meaning_of_isConst h, Number.zero_eq, map_zero]

theorem meaning_of_isOne (h : a.isOne = true) : a.meaning f ρ = 1 := by
  rw [meaning_of_isConst h, Number.one_eq, map_one]

theorem yields_zero (f : K →+* R) (ρ : Symbol → R) :
    Yields ok symbols roots Arithmetic.symbolic.zero (Denotes (meaning f ρ) 0) := by
  rw [← map_zero f, ← Number.zero_eq (K := K)]
  exact yields_newConst _

variable [ExactRing R]

omit [ExactRing K] in
theorem meaning_applyUnary {op : Op} (heval : ∀ u v : K, f (Number.eval op u v) = Number.eval op (f u) (f v))
    (a : Expr K) (n : Nat) :
    ((applyUnary op a).run n).1.meaning f ρ = Number.eval op (a.meaning f ρ) (a.meaning f ρ) := by
  unfold applyUnary
  split
  · exact heval _ _
  · next i x =>
    change x.meaning f ρ = _
    rw [meaning_unary, ExactRing.eval_neg, ExactRing.eval_neg, neg_neg]
  · rfl

theorem meaning_applyConstPow {op : Op} {y : R} (h : Simplifies f op y) (hform : .constPow ∈ op.forms)
    (hsq : .sq ∈ op.forms) (a b : Expr K) (n : Nat) :
    ((applyConstPow a b).run n).1.meaning f ρ = Number.eval .constPow (a.meaning f ρ) (b.meaning f ρ) := by
  unfold applyConstPow
  split_ifs with hone hzero htwo
  · rw [meaning_of_isOne hone, h.constPow_one _ hform]
    rfl
  · rw [meaning_of_isZero hzero, h.constPow_zero _ hform, ← map_one f, ← Number.one_eq (K := K)]
    rfl
  · have htwo' : b.meaning f ρ = 2 := by
      rw [meaning_of_isConst htwo, Number.two, ExactRing.ofInt_eq, Int.cast_ofNat, map_ofNat]
    rw [htwo', h.constPow_two _ hform]
    exact meaning_applyUnary (h.eval .sq hsq) a n
  · rfl

omit [ExactRing K] in
theorem meaning_negation {op : Op} {y : R} (h : Simplifies f op y) (hform : .neg ∈ op.forms) (a : Expr K) (n : Nat) :
    ((applyUnary .neg a).run n).1.meaning f ρ = -a.meaning f ρ := by
  rw [meaning_applyUnary (h.eval .neg hform), ExactRing.eval_neg]

omit [ExactRing R] in
theorem meaning_newZero (n : Nat) : ((newConst (Number.zero : K)).run n).1.meaning f ρ = 0 := by
  change f Number.zero = 0
  rw [Number.zero_eq, map_zero]

theorem meaning_applyBinary {op : Op} (h : Simplifies f op (b.meaning f ρ)) (n : Nat) :
    ((applyBinary op a b).run n).1.meaning f ρ = Number.eval op (a.meaning f ρ) (b.meaning f ρ) := by
  unfold applyBinary
  split
  -- Sums.
  · split_ifs with h1 h2
    · rw [meaning_of_isZero h1, ExactRing.eval_add, zero_add]
      rfl
    · rw [meaning_of_isZero h2, ExactRing.eval_add, add_zero]
      rfl
    · rfl
  -- Differences.
  · split_ifs with h1 h2
    · rw [meaning_of_isZero h1, ExactRing.eval_sub, sub_zero]
      rfl
    · rw [meaning_of_isZero h2, ExactRing.eval_sub, zero_sub]
      exact meaning_negation h (by decide) b n
    · rfl
  -- Products.
  · split_ifs with h1 h2 h3 h4
    · have hprod : a.meaning f ρ * b.meaning f ρ = 0 := by
        obtain h1 | h1 := Bool.or_eq_true_iff.mp h1
        · rw [meaning_of_isZero h1, zero_mul]
        · rw [meaning_of_isZero h1, mul_zero]
      rw [ExactRing.eval_mul, hprod]
      exact meaning_newZero n
    · rw [meaning_of_isOne h2, ExactRing.eval_mul, one_mul]
      rfl
    · rw [meaning_of_isOne h3, ExactRing.eval_mul, mul_one]
      rfl
    · have hm : a.meaning f ρ = -1 := by
        rw [meaning_of_isConst h4, ExactRing.ofInt_eq]
        simp
      rw [hm, ExactRing.eval_mul, neg_one_mul]
      exact meaning_negation h (by decide) b n
    · rfl
  -- Quotients.
  · split_ifs with h1 h2
    · rw [meaning_of_isOne h1, h.div_one _ rfl]
      rfl
    · rw [meaning_of_isZero h2, h.zero_div rfl]
      exact meaning_newZero n
    · rfl
  -- Powers, of which those with a constant exponent have a rule of their own.
  · split_ifs with h1
    · obtain ⟨k, hk⟩ := Option.isSome_iff_exists.mp h1
      obtain ⟨i, rfl⟩ : ∃ i, b = .const i k := by
        cases b <;> simp_all [constant?]
      rw [meaning_const, h.pow_const _ _ rfl]
      exact meaning_applyConstPow h (by decide) (by decide) a (.const i k) n
    · rfl
  · exact meaning_applyConstPow h (by decide) (by decide) a b n
  · rfl

/-- What the builder makes stands for the operation on what the operands stand for. -/
theorem meaning_apply {op : Op} (h : Simplifies f op (b.meaning f ρ)) (hab : op.arity = 1 → a = b) (n : Nat) :
    ((apply op a b).run n).1.meaning f ρ = Number.eval op (a.meaning f ρ) (b.meaning f ρ) := by
  unfold apply
  split
  · next harity =>
    rw [← hab harity]
    exact meaning_applyUnary (h.eval op (Op.mem_forms op)) a n
  · split
    · exact h.eval op (Op.mem_forms op) _ _
    · exact meaning_applyBinary h n

/-- What the builder makes is there and has the value of the operation at the values of the operands. -/
theorem yields_apply (hf : Reading ok f) {op : Op} (hs : op.isStructural = false) (hok : ok op)
    (ha : ReachedFrom roots a) (hb : ReachedFrom roots b) (hab : op.arity = 1 → a = b) :
    Yields ok symbols roots (apply op a b)
      (Denotes (meaning f ρ) (Number.eval op (a.meaning f ρ) (b.meaning f ρ))) := by
  intro n hn
  refine ⟨_, List.subset_cons_self _ _, ?_, .root List.mem_cons_self, meaning_apply (hf.simplifies hok _) hab n⟩
  rcases (applied_apply hs a b n).again_or_new hn.proper ha hb with
    ⟨hnext, hr⟩ | ⟨hnext, hid, hp, ho, hsymbol, hform⟩
  · rw [hnext]
    exact hn.again hr
  · rw [hnext]
    exact hn.new hid hp ho (fun s hs => absurd hs (hsymbol s)) fun hs => hf.ok_form hok (hform hs)

end Builders

section Symbolic

variable [CommRing K] [Number K] [CommRing R] [Number R] {f : K →+* R} {ρ : Symbol → R} {a b : Expr K}
  {x y : R}

variable [ExactRing K]

theorem yields_one (f : K →+* R) (ρ : Symbol → R) :
    Yields ok symbols roots Arithmetic.symbolic.one (Denotes (meaning f ρ) 1) := by
  rw [← map_one f, ← Number.one_eq (K := K)]
  exact yields_newConst _

theorem yields_two (f : K →+* R) (ρ : Symbol → R) :
    Yields ok symbols roots Arithmetic.symbolic.two (Denotes (meaning f ρ) 2) := by
  rw [← map_ofNat f 2, ← Int.cast_ofNat (R := K) 2, ← ExactRing.ofInt_eq]
  exact yields_newConst _

variable [ExactRing R]

theorem yields_add (hf : Reading ok f) (ha : Denotes (meaning f ρ) x roots a)
    (hb : Denotes (meaning f ρ) y roots b) :
    Yields ok symbols roots (Arithmetic.symbolic.add a b) (Denotes (meaning f ρ) (x+y)) := by
  rw [← ha.2, ← hb.2, ← ExactRing.eval_add]
  exact yields_apply hf rfl hf.add ha.1 hb.1 (by simp [Op.arity])

theorem yields_mul (hf : Reading ok f) (ha : Denotes (meaning f ρ) x roots a)
    (hb : Denotes (meaning f ρ) y roots b) :
    Yields ok symbols roots (Arithmetic.symbolic.mul a b) (Denotes (meaning f ρ) (x*y)) := by
  rw [← ha.2, ← hb.2, ← ExactRing.eval_mul]
  exact yields_apply hf rfl hf.mul ha.1 hb.1 (by simp [Op.arity])

theorem yields_div (hf : Reading ok f) (hok : ok .div) (ha : Denotes (meaning f ρ) x roots a)
    (hb : Denotes (meaning f ρ) y roots b) :
    Yields ok symbols roots (Arithmetic.symbolic.div a b)
      (Denotes (meaning f ρ) (Number.eval .div x y)) := by
  rw [← ha.2, ← hb.2]
  exact yields_apply hf rfl hok ha.1 hb.1 (by simp [Op.arity])

theorem yields_neg (hf : Reading ok f) (ha : Denotes (meaning f ρ) x roots a) :
    Yields ok symbols roots (Arithmetic.symbolic.neg a) (Denotes (meaning f ρ) (-x)) := by
  rw [← ha.2, ← ExactRing.eval_neg _ (a.meaning f ρ)]
  exact yields_apply hf rfl hf.neg ha.1 ha.1 fun _ => rfl

end Symbolic

end Expr

end Fluxion
