import Fluxion.Proofs.Expr.Partials

/-!
Two readings of a forward sensitivity that know nothing of slots and sweeps: the chain rule over the table of
derivatives and, where all operations are rational, the first-order part of the value over dual numbers.
-/
set_option autoImplicit false

namespace Fluxion

variable {K : Type}

theorem Op.exactAt_of_ne [Field K] [Number K] [ExactQuotient K] {op : Op} {x y : K} (hdiv : op = .div → y ≠ 0)
    (hrecip : op = .recip → x ≠ 0) : op.ExactAt x y := by
  cases op
  case div => exact fun r => (ExactQuotient.eval_div r (hdiv rfl)).trans (div_eq_mul_inv r y)
  case recip => exact (ExactQuotient.eval_recip y (hrecip rfl)).trans (one_div x)
  case sq => exact ExactQuotient.eval_sq x y
  all_goals trivial

namespace Expr

section ChainRule

variable [CommRing K] [Number K] {ρ δ : Symbol → K}

/-- The chain rule: what stands at the symbols is carried up through the derivatives that the table gives for
each operation at the values of its operands. -/
inductive ChainRule (ρ δ : Symbol → K) : Expr K → K → Prop where
  | symbol (s : Symbol) : ChainRule ρ δ (.symbol s) (δ s)
  | const (i : Nat) (v : K) : ChainRule ρ δ (.const i v) 0
  | unary {i : Nat} {op : Op} {a : Expr K} {x p : K}
      (slopes : ((Arithmetic.numeric : Arithmetic K K Id).partials op (a.value ρ) (a.value ρ)
        (Number.eval op (a.value ρ) (a.value ρ))).run = some (p,0))
      (operand : ChainRule ρ δ a x) : ChainRule ρ δ (.unary i op a) (p*x)
  | binary {i : Nat} {op : Op} {a b : Expr K} {x y p q : K}
      (slopes : ((Arithmetic.numeric : Arithmetic K K Id).partials op (a.value ρ) (b.value ρ)
        (Number.eval op (a.value ρ) (b.value ρ))).run = some (p,q))
      (left : ChainRule ρ δ a x) (right : ChainRule ρ δ b y) : ChainRule ρ δ (.binary i op a b) (p*x+q*y)

theorem ChainRule.eq_derivative {e : Expr K} {x : K} (h : ChainRule ρ δ e x) : x = e.derivative ρ δ := by
  induction h with
  | symbol s | const i v => rfl
  | unary hslopes _ ih => rw [derivative, slopes, value, hslopes, ih, Option.getD_some]
  | binary hslopes _ _ iha ihb => rw [derivative, slopes, value, hslopes, iha, ihb, Option.getD_some]

theorem chainRule_derivative [ExactRing K] {e : Expr K} (hp : e.Proper) (hr : ∀ d, Reaches d e → d.op ≠ .rem) :
    ChainRule ρ δ e (e.derivative ρ δ) := by
  induction e with
  | symbol s => exact .symbol s
  | const i v => exact .const i v
  | unary i op a ih =>
    have ha := ih hp.2.2 fun d hd => hr d (hd.trans (.operand (by simp [operands])))
    obtain ⟨⟨p, q⟩, hslopes⟩ := Option.isSome_iff_exists.mp (Arithmetic.partials_isSome hp.1 (hr _ (.refl _))
      (a.value ρ) (a.value ρ) (Number.eval op (a.value ρ) (a.value ρ)))
    have heq : (unary i op a).slopes ρ = (p,q) := by rw [slopes, value, hslopes, Option.getD_some]
    have hq : q = 0 := by simpa [heq] using slopes_unary ρ i hp.2.1 a
    rw [derivative, heq]
    exact .unary (hq ▸ hslopes) ha
  | binary i op a b iha ihb =>
    have ha := iha hp.2.1 fun d hd => hr d (hd.trans (.operand (by simp [operands])))
    have hb := ihb hp.2.2 fun d hd => hr d (hd.trans (.operand (by simp [operands])))
    obtain ⟨⟨p, q⟩, hslopes⟩ := Option.isSome_iff_exists.mp (Arithmetic.partials_isSome
      (Op.isStructural_of_arity hp.1) (hr _ (.refl _))
      (a.value ρ) (b.value ρ) (Number.eval op (a.value ρ) (b.value ρ)))
    have heq : (binary i op a b).slopes ρ = (p,q) := by rw [slopes, value, hslopes, Option.getD_some]
    rw [derivative, heq]
    exact .binary hslopes ha hb

/-- Without a remainder the chain rule gives the derivative and nothing else. -/
theorem chainRule_iff [ExactRing K] {e : Expr K} (hp : e.Proper) (hr : ∀ d, Reaches d e → d.op ≠ .rem) {x : K} :
    ChainRule ρ δ e x ↔ x = e.derivative ρ δ :=
  ⟨ChainRule.eq_derivative, fun h => h ▸ chainRule_derivative hp hr⟩

end ChainRule

/-- What the expression divides by. -/
def divisor? : Expr K → Option (Expr K)
  | .unary _ .recip a => some a
  | .binary _ .div _ b => some b
  | _ => none

/-- Where no divisor is zero, all operations are exact. -/
theorem exactAt_of_divisor [Field K] [Number K] [ExactQuotient K] {ρ : Symbol → K} {e : Expr K} (hp : e.Proper)
    (hz : ∀ d a, Reaches d e → d.divisor? = some a → a.value ρ ≠ 0) : e.ExactAt ρ := by
  induction e with
  | symbol _ | const _ _ => trivial
  | unary i op a ih =>
    refine ⟨Op.exactAt_of_ne (fun h => ?_) fun h => ?_, ih hp.2.2 fun d b hd =>
      hz d b (hd.trans (.operand (by simp [operands])))⟩
    · exact absurd hp.2.1 (by simp [h, Op.arity])
    · exact hz _ a (.refl _) (by rw [h, divisor?])
  | binary i op a b iha ihb =>
    refine ⟨Op.exactAt_of_ne (fun h => ?_) fun h => ?_, iha hp.2.1 fun d c hd => ?_, ihb hp.2.2 fun d c hd => ?_⟩
    · exact hz _ b (.refl _) (by rw [h, divisor?])
    · exact absurd hp.1 (by simp [h, Op.arity])
    · exact hz d c (hd.trans (.operand (by simp [operands])))
    · exact hz d c (hd.trans (.operand (by simp [operands])))

end Expr

namespace Tape

variable {inputs outputs : Array (Matrix (Expr K))} {places : Std.HashMap Nat (Nat × Nat)}
  {l : List (Node K)} {slot : Nat → Nat} {t : Tape K} {live : Bool} {sorting : Sorting}

theorem Compiled.op_mem_iff [Number K] (hc : Compiled inputs outputs places l slot t) {op : Op}
    (hop : op.isStructural = false) :
    (∃ el ∈ t.elements, el.op = op) ↔ ∃ e, Expr.ReachedFrom (Matrix.entries outputs) e ∧ e.op = op := by
  have hlayout (p : Nat) := layout_getElem? places slot l p
  simp only [← hc.complete.mem_exprs]
  constructor
  · rintro ⟨el, hel, rfl⟩
    rw [← Array.mem_toList_iff, hc.elements] at hel
    obtain ⟨p, hp⟩ := List.mem_iff_getElem?.mp hel
    rw [hlayout] at hp
    obtain ⟨n, hn, rfl⟩ := Option.map_eq_some_iff.mp hp
    cases n with
    | store i k id => cases hop
    | expr e =>
      refine ⟨e, Order.mem_exprs.mpr (List.mem_of_getElem? hn), ?_⟩
      cases e with
      | symbol s =>
        rw [elementAt] at hop
        split at hop <;> cases hop
      | const i v => cases hop
      | unary i op a | binary i op a b => rfl
  · rintro ⟨e, he, rfl⟩
    obtain ⟨p, hp⟩ := List.mem_iff_getElem?.mp (Order.mem_exprs.mp he)
    have hel := hlayout p
    rw [hp, Option.map_some, ← hc.elements] at hel
    refine ⟨_, Array.mem_toList_iff.mp (List.mem_of_getElem? hel), ?_⟩
    cases e with
    | symbol s | const i v => cases hop
    | unary i op a | binary i op a b => rfl

theorem op_mem_elements [Number K] (hu : Expr.Coherent (Matrix.entries outputs))
    (ht : ofGraph inputs outputs live sorting = .ok t) {op : Op} (hop : op.isStructural = false) :
    (∃ el ∈ t.elements, el.op = op) ↔ ∃ e, Expr.ReachedFrom (Matrix.entries outputs) e ∧ e.op = op := by
  obtain ⟨places, slot, hc⟩ := ofGraph_compiled hu ht
  exact hc.op_mem_iff hop

theorem ne_rem_of_elements [Number K] (hu : Expr.Coherent (Matrix.entries outputs))
    (ht : ofGraph inputs outputs live sorting = .ok t) (hr : ∀ el ∈ t.elements, el.op ≠ .rem) (e : Expr K)
    (he : Expr.ReachedFrom (Matrix.entries outputs) e) : e.op ≠ .rem := by
  intro hrem
  have hiff := op_mem_elements hu ht (show Op.rem.isStructural = false from rfl)
  obtain ⟨el, hel, hop⟩ := hiff.mpr ⟨e, he, hrem⟩
  exact hr el hel hop

theorem evaluate_of_graph [CommRing K] [Number K] [ExactRing K] (hu : Expr.Coherent (Matrix.entries outputs))
    (ht : ofGraph inputs outputs live sorting = .ok t) (hfree : t.free = #[])
    (hr : ∀ e, Expr.ReachedFrom (Matrix.entries outputs) e → e.op ≠ .rem) {b : Buffers K}
    (hb : b.Shaped (inputs.map Matrix.nnz) (outputs.map Matrix.nnz)) {n m : Nat} (hn : n ≤ b.forward)
    (hm : m ≤ b.adjoint) :
    t.evaluate Arithmetic.numeric b n m =
      (pure (evaluated inputs outputs n m b) : ExceptT (Stopped K) Id (Buffers K)) := by
  obtain ⟨places, slot, hc⟩ := ofGraph_compiled hu ht
  have hf : freeAmong places (Order.exprs (Order.sorted outputs sorting).toList) = [] := by
    rw [← hc.free, hfree]
  exact evaluate_numeric hc hu hf (fun e he => hr e ((hc.complete.mem_exprs e).mp he)) hb hn hm

theorem get?_evaluated_sens [CommRing K] [Number K] {b : Buffers K}
    (hb : b.Shaped (inputs.map Matrix.nnz) (outputs.map Matrix.nnz)) {n m d : Nat} (hn : n ≤ b.forward)
    (hd : d < n) {i k : Nat} {e : Expr K} (he : (i,k,e) ∈ Order.targets outputs) :
    ((evaluated inputs outputs n m b).forwardSens.getD d #[]).get? i k =
      some (e.derivative (valuation 0 inputs b.input) (valuation 0 inputs (b.forwardSeed.getD d #[]))) := by
  have hseed : d < b.forwardSeed.size := Nat.lt_of_lt_of_le hd hn
  dsimp only [evaluated]
  rw [Buffers.getD_firstBlocks hd (by rw [hb.forward]; exact hseed), tangent]
  exact (Block.get?_ofEntries _ _).mpr ⟨e, he, rfl⟩

theorem sampleBuffers_shaped :
    sampleBuffers.Shaped (sampleInputs.map Matrix.nnz) (sampleOutputs.map Matrix.nnz) := by
  constructor <;> simp [sampleBuffers, Buffers.filled, Block.filled, Block.sizes, sampleInputs,
    sampleOutputs, Matrix.nnz, Matrix.column]

/-- Whatever the options, the order and the slots, the chain rule gives the forward sensitivity of every output
entry and no other number. -/
theorem evaluate_chainRule [CommRing K] [Number K] [ExactRing K] (hu : Expr.Coherent (Matrix.entries outputs))
    (ht : ofGraph inputs outputs live sorting = .ok t) (hfree : t.free = #[])
    (hr : ∀ el ∈ t.elements, el.op ≠ .rem) {b : Buffers K}
    (hb : b.Shaped (inputs.map Matrix.nnz) (outputs.map Matrix.nnz)) {n m : Nat} (hn : n ≤ b.forward)
    (hm : m ≤ b.adjoint) :
    ∃ b' : Buffers K, t.evaluate Arithmetic.numeric b n m =
        (pure b' : ExceptT (Stopped K) Id (Buffers K)) ∧
      ∀ d < n, ∀ i k e, (i,k,e) ∈ Order.targets outputs →
        ∃ x, (b'.forwardSens.getD d #[]).get? i k = some x ∧
          ∀ y, e.ChainRule (valuation 0 inputs b.input) (valuation 0 inputs (b.forwardSeed.getD d #[])) y ↔
            y = x := by
  have hrem := ne_rem_of_elements hu ht hr
  refine ⟨_, evaluate_of_graph hu ht hfree hrem hb hn hm, fun d hd i k e he => ?_⟩
  have hroot := Expr.ReachedFrom.root (Order.mem_targets_entries he)
  have hproper := hu.proper e hroot
  exact ⟨_, get?_evaluated_sens hb hn hd he, fun y =>
    Expr.chainRule_iff hproper fun a ha => hrem a (Expr.ReachedFrom.trans ha hroot)⟩

/-- The first of the sample outputs: a product and one of its factors. -/
def sampleSum : Expr ℚ := .binary 3 .add (.binary 2 .mul (.symbol ⟨0,"x"⟩) (.symbol ⟨1,"y"⟩)) (.symbol ⟨0,"x"⟩)

theorem evaluate_chainRule_sample : ∃ t, ofGraph sampleInputs sampleOutputs true .depthFirst = .ok t ∧
    t.free = #[] ∧ (∀ el ∈ t.elements, el.op ≠ .rem) ∧
    sampleBuffers.Shaped (sampleInputs.map Matrix.nnz) (sampleOutputs.map Matrix.nnz) ∧
    ∃ b' : Buffers ℚ, t.evaluate Arithmetic.numeric sampleBuffers 1 0 =
        (pure b' : ExceptT (Stopped ℚ) Id (Buffers ℚ)) ∧
      (b'.forwardSens.getD 0 #[]).get? 0 0 = some 11 := by
  obtain ⟨t, ht⟩ := exists_ofGraph sample_closed.distinct sampleOutputs true .depthFirst
  have hfree := (sample_closed.realizes ht).free
  have hr : ∀ el ∈ t.elements, el.op ≠ .rem := fun el hel hop => by
    obtain ⟨e, he, hrem⟩ := (op_mem_elements sample_closed.coherent ht rfl).mp ⟨el, hel, hop⟩
    exact sample_ne_rem e he hrem
  obtain ⟨b', hb', hchain⟩ := evaluate_chainRule sample_closed.coherent ht hfree hr sampleBuffers_shaped
    (n := 1) (m := 0) (by decide) (by decide)
  refine ⟨t, ht, hfree, hr, sampleBuffers_shaped, b', hb', ?_⟩
  have htarget : (0,0,sampleSum) ∈ Order.targets sampleOutputs := by
    simp [sampleSum, Order.mem_targets, sampleOutputs, Matrix.column]
  have hroot := Expr.ReachedFrom.root (Order.mem_targets_entries htarget)
  have hderivative : (11 : ℚ) = sampleSum.derivative (valuation 0 sampleInputs #[#[3,4]])
      (valuation 0 sampleInputs #[#[1,2]]) := by decide +kernel
  obtain ⟨x, hx, hrule⟩ := hchain 0 Nat.one_pos 0 0 sampleSum htarget
  have heleven := (Expr.chainRule_iff (sample_closed.coherent.proper _ hroot) fun d hd =>
    sample_ne_rem d (Expr.ReachedFrom.trans hd hroot)).mpr hderivative
  rw [hx, (hrule 11).mp heleven]

/-- Where no divisor is zero, the value and the forward sensitivity of an output entry make up its value over
dual numbers. -/
theorem evaluate_firstOrder [Field K] [Number K] [ExactQuotient K]
    (hu : Expr.Coherent (Matrix.entries outputs)) (ht : ofGraph inputs outputs live sorting = .ok t)
    (hfree : t.free = #[])
    (hop : ∀ el ∈ t.elements, el.op.isStructural = false → el.op.isRational = true) {b : Buffers K}
    (hb : b.Shaped (inputs.map Matrix.nnz) (outputs.map Matrix.nnz))
    (hz : ∀ e a, Expr.ReachedFrom (Matrix.entries outputs) e → e.divisor? = some a →
      a.value (valuation 0 inputs b.input) ≠ 0) {n m : Nat} (hn : n ≤ b.forward) (hm : m ≤ b.adjoint) :
    ∃ b' : Buffers K, t.evaluate Arithmetic.numeric b n m =
        (pure b' : ExceptT (Stopped K) Id (Buffers K)) ∧
      ∀ d < n, ∀ i k e, (i,k,e) ∈ Order.targets outputs →
        ∃ x y, b'.output.get? i k = some x ∧ (b'.forwardSens.getD d #[]).get? i k = some y ∧
          e.meaning (TrivSqZeroExt.inlHom K K) (fun s => dual (valuation 0 inputs b.input s)
            (valuation 0 inputs (b.forwardSeed.getD d #[]) s)) = dual x y := by
  have hrational (e : Expr K) (he : Expr.ReachedFrom (Matrix.entries outputs) e)
      (hs : e.op.isStructural = false) : e.op.isRational = true := by
    obtain ⟨el, hel, heq⟩ := (op_mem_elements hu ht hs).mpr ⟨e, he, rfl⟩
    exact heq ▸ hop el hel (heq ▸ hs)
  have hrem (e : Expr K) (he : Expr.ReachedFrom (Matrix.entries outputs) e) : e.op ≠ .rem := fun h => by
    have hr := hrational e he (by rw [h]; rfl)
    rw [h] at hr
    cases hr
  refine ⟨_, evaluate_of_graph hu ht hfree hrem hb hn hm, fun d hd i k e he => ?_⟩
  have hroot := Expr.ReachedFrom.root (Order.mem_targets_entries he)
  have hproper := hu.proper e hroot
  have hexact := Expr.exactAt_of_divisor hproper fun a c ha => hz a c (Expr.ReachedFrom.trans ha hroot)
  have hwithin : e.Within (·.isRational = true) := fun a ha => hrational a (Expr.ReachedFrom.trans ha hroot)
  exact ⟨_, _, (Block.get?_ofEntries _ _).mpr ⟨e, he, rfl⟩, get?_evaluated_sens hb hn hd he,
    Expr.meaning_dual_of_exactAt hproper hwithin _ _ hexact⟩

/-- The square of a quotient, as a product of equal factors. -/
def squaredQuotient : Expr ℚ :=
  let quotient := .binary 2 .div (.symbol ⟨0,"x"⟩) (.symbol ⟨1,"y"⟩)
  .binary 3 .mul quotient quotient

theorem squaredQuotient_closed : Closed sampleInputs #[.scalar squaredQuotient] := by
  have hsymbols := (Expr.Built.nil (K := ℚ) 0).symbol "x" |>.symbol "y"
  have hquotient := hsymbols.apply (show Op.div.isStructural = false from rfl) (a := .symbol ⟨0,"x"⟩)
    (b := .symbol ⟨1,"y"⟩) (.tail _ (.head _)) (.head _)
  have hsquare := hquotient.apply (show Op.mul.isStructural = false from rfl) (.head _) (.head _)
  refine ⟨hsquare.coherent ?_, sample_closed.distinct, ?_⟩
  · intro e he
    obtain rfl : e = squaredQuotient := by simpa [Matrix.entries, Matrix.scalar] using he
    exact .head _
  · intro s hs
    have hxy : s = ⟨0,"x"⟩ ∨ s = ⟨1,"y"⟩ := by
      simpa [Matrix.entries, Matrix.scalar, squaredQuotient, Expr.ReachedFrom, Expr.Reaches] using hs
    obtain rfl | rfl := hxy <;> simp [Matrix.entries, sampleInputs, Matrix.column]

def quotientBuffers : Buffers ℚ :=
  {Buffers.filled #[2] #[1] 1 0 0 with
    input := #[#[3,2]]
    forwardSeed := #[#[#[1,2]]]}

theorem evaluate_firstOrder_quotient :
    ∃ t, ofGraph sampleInputs #[.scalar squaredQuotient] true .breadthFirst = .ok t ∧ t.free = #[] ∧
      (∀ el ∈ t.elements, el.op.isStructural = false → el.op.isRational = true) ∧
      quotientBuffers.Shaped (sampleInputs.map Matrix.nnz) (#[Matrix.scalar squaredQuotient].map Matrix.nnz) ∧
      (∀ e a, Expr.ReachedFrom (Matrix.entries #[.scalar squaredQuotient]) e → e.divisor? = some a →
        a.value (valuation 0 sampleInputs quotientBuffers.input) ≠ 0) ∧
      ∃ b' : Buffers ℚ, t.evaluate Arithmetic.numeric quotientBuffers 1 0 =
          (pure b' : ExceptT (Stopped ℚ) Id (Buffers ℚ)) ∧
        b'.output.get? 0 0 = some (9/4) ∧ (b'.forwardSens.getD 0 #[]).get? 0 0 = some (-3) := by
  have hclosed := squaredQuotient_closed
  obtain ⟨t, ht⟩ := exists_ofGraph hclosed.distinct #[.scalar squaredQuotient] true .breadthFirst
  have hfree := (hclosed.realizes ht).free
  have hreach (e : Expr ℚ) (he : Expr.ReachedFrom (Matrix.entries #[.scalar squaredQuotient]) e) :
      e = squaredQuotient ∨ e = .binary 2 .div (.symbol ⟨0,"x"⟩) (.symbol ⟨1,"y"⟩) ∨
        e = .symbol ⟨0,"x"⟩ ∨ e = .symbol ⟨1,"y"⟩ := by
    simpa [Matrix.entries, Matrix.scalar, squaredQuotient, Expr.ReachedFrom, Expr.Reaches] using he
  have hop : ∀ el ∈ t.elements, el.op.isStructural = false → el.op.isRational = true := fun el hel hs => by
    obtain ⟨e, he, heq⟩ := (op_mem_elements hclosed.coherent ht hs).mp ⟨el, hel, rfl⟩
    rw [← heq] at hs ⊢
    obtain rfl | rfl | rfl | rfl := hreach e he <;> first
      | rfl
      | cases hs
  have hshaped : quotientBuffers.Shaped (sampleInputs.map Matrix.nnz)
      (#[Matrix.scalar squaredQuotient].map Matrix.nnz) := by
    constructor <;> simp [quotientBuffers, Buffers.filled, Block.filled, Block.sizes, sampleInputs,
      Matrix.nnz, Matrix.column, Matrix.scalar]
  have hz : ∀ e a, Expr.ReachedFrom (Matrix.entries #[.scalar squaredQuotient]) e → e.divisor? = some a →
      a.value (valuation 0 sampleInputs quotientBuffers.input) ≠ 0 := fun e a he ha => by
    obtain rfl | rfl | rfl | rfl := hreach e he
    · cases ha
    · cases ha
      decide +kernel
    · cases ha
    · cases ha
  obtain ⟨b', hb', h⟩ := evaluate_firstOrder hclosed.coherent ht hfree hop hshaped hz (n := 1) (m := 0)
    (by decide) (by decide)
  obtain ⟨x, y, hx, hy, hdual⟩ := h 0 Nat.one_pos 0 0 squaredQuotient
    (by simp [Order.mem_targets, Matrix.scalar])
  have hfst := congrArg TrivSqZeroExt.fst hdual
  have hsnd := congrArg TrivSqZeroExt.snd hdual
  rw [fst_dual] at hfst
  rw [snd_dual] at hsnd
  refine ⟨t, ht, hfree, hop, hshaped, hz, b', hb', ?_, ?_⟩
  · rw [hx, ← hfst]
    decide +kernel
  · rw [hy, ← hsnd]
    decide +kernel

end Tape

end Fluxion
