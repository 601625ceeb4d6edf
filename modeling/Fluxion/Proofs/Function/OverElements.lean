import Fluxion.Proofs.Function.Enlarged
import Fluxion.Proofs.Function.Intact
import Fluxion.Proofs.Function.Points

/-!
Jacobians over all elements beside those over entries, as functions. One is made where the other is, if there is room,
and whatever their instances were asked before, calls of both come to the same lists of values.
-/
set_option autoImplicit false

namespace Fluxion

open Run

variable {K : Type} [Number K] {d e e' : Definition K} {inp out : Pattern} {iind oind n : Nat}

/-! ### Calls -/

/-- A call that returns was at a point that lists all inputs. -/
theorem Machine.Seated.sizes_of_call {m m' : Machine K} (hm : m.Seated d) {x y : Block K}
    (hrun : (d.call x).run m = (.ok y, m')) : x.sizes = d.sig.inputSizes := by
  rw [Definition.call] at hrun
  obtain ⟨_, m₁, hcount, hrun⟩ := exists_of_run_bind hrun
  obtain ⟨hcount, rfl⟩ := Prod.ext_iff.mp ((run_liftExcept _).symm.trans hcount)
  obtain ⟨_, m₂, hset, -⟩ := exists_of_run_bind hrun
  have hwritten := ((hm.hinges_setInputs x).of_ok hset).1
  have hinit : x.sizes.toList <+: d.sig.inputSizes.toList := by
    by_contra hno
    rw [Signature.written, if_neg hno] at hwritten
    cases hwritten
  have hsize : x.size = d.sig.inputs.size := by
    by_contra hno
    rw [Signature.checkCount, if_neg hno] at hcount
    cases hcount
  refine Array.toList_inj.mp (hinit.eq_of_length ?_)
  simpa [Block.sizes, Signature.inputSizes] using hsize

/-- Whatever an instance was asked before, its calls are told by the effect. -/
theorem Made.call_iff (h : Made Callable.Complete n d) {i : Instance K} (hi : i.Reached d) (x y : Block K) :
    (i.run (d.call x)).1 = .ok y ↔ x.sizes = d.sig.inputSizes ∧ d.effect.value x = some y := by
  have hseated := ((h.sturdy hi.room (.inl trivial)).seated hi).2
  constructor
  · intro hy
    have hx := hseated.sizes_of_call (Prod.ext hy rfl)
    exact ⟨hx, ((h.decides hi.room).yields_call hseated hx).iff_ok.mpr hy⟩
  · rintro ⟨hx, hy⟩
    exact ((h.decides hi.room).yields_call hseated hx).iff_ok.mp hy

/-- Less is asked of the callables. -/
theorem Made.mono {A B : Callable K → Prop} (h : Made A n d) (hAB : ∀ c, A c → B c) : Made B n d := by
  induction h with
  | expressions hn hin hout hrun => exact .expressions hn hin hout hrun
  | external hc hrun => exact .external (hAB _ hc) hrun
  | derived _ hk hrun ih => exact .derived ih hk hrun

/-! ### Both functions -/

/-- `e'` is `e` with the block over all elements of the input and the output: every call has the same values, and where
those of the block stand on the pattern of `e` at two entries, they stand on that of `e'` at the elements of these
entries, and nowhere else. -/
structure Definition.OverElements (inp out : Pattern) (e e' : Definition K) : Prop where
  options : e'.sig.options = e.sig.options
  inputs : e'.sig.inputs = e.sig.inputs
  outputs : ∃ (p q : Pattern) (rest : Array Pattern), e.sig.outputs = #[p] ++ rest ∧ e'.sig.outputs = #[q] ++ rest ∧
    p.Links inp out ∧ q.Enlarges p out.numel inp.numel out.elements inp.elements ∧
    ∀ values : Array K, Matrix.Embeds out.elements inp.elements ⟨p, values⟩ ⟨q, values⟩
  calls : ∀ {i i' : Instance K}, i.Reached e → i'.Reached e' → ∀ x y,
    (i'.run (e'.call x)).1 = .ok y ↔ (i.run (e.call x)).1 = .ok y

theorem Definition.SameValues.call_iff (h : e.SameValues e') {n' : Nat} (he : Made Callable.Complete n e)
    (he' : Made Callable.Complete n' e') {i i' : Instance K} (hi : i.Reached e) (hi' : i'.Reached e') (x y : Block K) :
    (i'.run (e'.call x)).1 = .ok y ↔ (i.run (e.call x)).1 = .ok y := by
  have hsizes : e'.sig.inputSizes = e.sig.inputSizes := by rw [Signature.inputSizes, h.inputs, Signature.inputSizes]
  rw [he'.call_iff hi', he.call_iff hi, hsizes]
  exact and_congr_right fun hx => by rw [h.value x hx]

/-- An enlarged pattern has the images of the entries in their order, so a list of values keeps its meaning. The element
numbers of a pattern whose elements can be counted increase and are below the number of elements. So, where the
elements of its input and its output can be counted, a block over all elements is made exactly if the one over
entries is and there is room for the elements of the output as rows, and it holds the same values at the elements. -/
theorem Definition.jacobian_over_elements :
    (∀ (p : Pattern) (nrow ncol : Nat) (rowMap colMap : Array Nat), p.Valid → Pattern.checkRows nrow = .ok () →
      Pattern.Increasing rowMap p.nrow nrow → Pattern.Increasing colMap p.ncol ncol →
      ∃ q, p.enlarge? nrow ncol rowMap colMap = .ok q ∧ q.Enlarges p nrow ncol rowMap colMap ∧
        ∀ (T : Type) (values : Array T), Matrix.Embeds rowMap colMap ⟨p, values⟩ ⟨q, values⟩) ∧
    (∀ p : Pattern, p.Counted → Pattern.Increasing p.elements p.nnz p.numel) ∧
    ∀ (K : Type) [Number K] (n : Nat) (d : Definition K) (iind oind : Nat) (inp out : Pattern),
      Made (fun c => c.Complete ∧ c.Patterned) n d → d.Spans iind oind inp out →
      ∀ (symmetric : Bool) (k k' : Nat), n ≤ k → n ≤ k' →
        let make (compact : Bool) (k : Nat) := ((d.derive (.jacobian iind oind compact symmetric)).run k).1
        ((∃ e', make false k' = .ok e') ↔ Pattern.checkRows out.numel = .ok () ∧ ∃ e, make true k = .ok e) ∧
        ∀ e e', make true k = .ok e → make false k' = .ok e' → e.OverElements inp out e' := by
  refine ⟨fun p nrow ncol rowMap colMap hp hroom hrows hcols => ?_, fun p hp => hp.increasing,
    fun K _ n d iind oind inp out hd h symmetric k k' hk hk' => ?_⟩
  · obtain ⟨q, hq, henlarges⟩ := hp.exists_enlarge? hrows hcols hroom
    exact ⟨q, hq, henlarges, fun T values => henlarges.embeds hp hrows hcols values⟩
  intro make
  obtain ⟨roots, hn, hs⟩ := hd.sound
  have hmade {compact : Bool} {k : Nat} (hk : n ≤ k) {e : Definition K} (he : make compact k = .ok e) :
      ∃ l, Made Callable.Complete l e :=
    ⟨_, .derived (hd.mono fun _ hc => hc.1) hk (Prod.ext he rfl)⟩
  have hpaired : Definition.Paired inp out (make true k) (make false k') :=
    Definition.paired_derive hs (fun _ hc => hc.2) hn h symmetric hk hk'
  generalize hleft : make true k = r at hpaired ⊢
  generalize hright : make false k' = r' at hpaired ⊢
  cases hpaired with
  | refused x y => exact ⟨by simp, fun e e' he => by cases he⟩
  | cramped e y hroom => exact ⟨by simp [hroom], fun e e' _ he' => by cases he'⟩
  | @made p q rest e e' hroom hp hq hvalues hout hout' =>
    refine ⟨by simp [hroom], ?_⟩
    rintro _ _ ⟨⟩ ⟨⟩
    obtain ⟨l, hl⟩ := hmade hk hleft
    obtain ⟨l', hl'⟩ := hmade hk' hright
    obtain ⟨hrows, hcols⟩ := h.increasing hp
    exact ⟨hvalues.options, hvalues.inputs, ⟨p, q, rest, hout, hout', hp, hq, fun values =>
      hq.embeds hp.valid hrows hcols values⟩, fun hi hi' => hvalues.call_iff hl hl' hi hi'⟩

namespace Definition

/-- The second and the fifth of six elements. -/
def scatteredInput : Pattern := ⟨3, 2, #[0,1,1,2], #[1,0]⟩

/-- The second of two elements. -/
def scatteredOutput : Pattern := ⟨2, 1, #[0,0,1], #[0]⟩

/-- The product of the entries of the input. -/
def scattered : Definition ℚ :=
  ((ofExpressions #[⟨scatteredInput, #[.symbol ⟨0,"x"⟩, .symbol ⟨1,"y"⟩]⟩]
    #[⟨scatteredOutput, #[.binary 2 .mul (.symbol ⟨0,"x"⟩) (.symbol ⟨1,"y"⟩)]⟩]
    {Options.standard 1 with numericJacobian := true}).run 3).1.toOption.get (by cbv)

theorem scattered_made (A : Callable ℚ → Prop) : Made A 4 scattered := by
  let x : Expr ℚ := .symbol ⟨0,"x"⟩
  let y : Expr ℚ := .symbol ⟨1,"y"⟩
  have hrun : (ofExpressions #[⟨scatteredInput, #[x, y]⟩] #[⟨scatteredOutput, #[.binary 2 .mul x y]⟩]
      {Options.standard 1 with numericJacobian := true}).run 3 = (.ok scattered, 4) := by cbv
  have hsymbols := (Expr.Built.nil (K := ℚ) 0).symbol "x" |>.symbol "y"
  have hproduct := hsymbols.apply (show Op.mul.isStructural = false from rfl) (a := x) (b := y) (.tail _ (.head _)) (.head _)
  refine .expressions (hproduct.numbered.of_reached fun d hd => .root ?_) (by simp [Matrix.Sized]; rfl)
    (by simp [Matrix.Sized]; rfl) hrun
  obtain rfl | rfl | rfl : d = x ∨ d = y ∨ d = .binary 2 .mul x y := by simpa [Matrix.entries] using hd
  · exact .tail _ (.tail _ (.head _))
  · exact .tail _ (.head _)
  · exact .head _

/-- The Jacobian of the product over its entries. -/
def scatteredJacobian : Definition ℚ :=
  ((scattered.derive (.jacobian 0 0 true false)).run 4).1.toOption.get (by cbv)

theorem jacobian_over_elements_scattered :
    (∃ q, (Pattern.dense 1 2).enlarge? 2 6 #[1] #[1,4] = .ok q ∧ q.Enlarges (.dense 1 2) 2 6 #[1] #[1,4] ∧
      Matrix.Embeds #[1] #[1,4] ⟨.dense 1 2, #[7,8]⟩ ⟨q, #[7,8]⟩) ∧
    Pattern.Increasing scatteredInput.elements 2 6 ∧
    Made (fun c => c.Complete ∧ c.Patterned) 4 scattered ∧
    scattered.Spans 0 0 scatteredInput scatteredOutput ∧
    ((scattered.derive (.jacobian 0 0 true false)).run 4).1 = .ok scatteredJacobian ∧
    ∃ e', ((scattered.derive (.jacobian 0 0 false false)).run 5).1 = .ok e' ∧
      scatteredJacobian.OverElements scatteredInput scatteredOutput e' ∧
      ∀ i : Instance ℚ, i.Reached e' → (i.run (e'.call #[#[3,4]])).1 = .ok #[#[4,3],#[12]] := by
  obtain ⟨hmaps, helements, hblocks⟩ := jacobian_over_elements
  have hrows : Pattern.Increasing #[1] (Pattern.dense 1 2).nrow 2 := ⟨by simp, by decide, by decide⟩
  have hcols : Pattern.Increasing #[1,4] (Pattern.dense 1 2).ncol 6 := ⟨by simp, by decide, by decide⟩
  have hin : scatteredInput.Counted := ⟨by constructor <;> decide, by decide⟩
  have hout : scatteredOutput.Counted := ⟨by constructor <;> decide, by decide⟩
  have hspans : scattered.Spans 0 0 scatteredInput scatteredOutput := ⟨by cbv, by cbv, hin, hout⟩
  have hmade := scattered_made fun c => c.Complete ∧ c.Patterned
  have hcompact : ((scattered.derive (.jacobian 0 0 true false)).run 4).1 = .ok scatteredJacobian := by cbv
  obtain ⟨q, hq, henlarges, hembeds⟩ :=
    hmaps (.dense 1 2) 2 6 #[1] #[1,4] (Pattern.valid_dense 1 2) (by decide) hrows hcols
  obtain ⟨hboth, hover⟩ :=
    hblocks ℚ 4 scattered 0 0 scatteredInput scatteredOutput hmade hspans false 4 5 le_rfl (by omega)
  obtain ⟨e', he'⟩ := hboth.mpr ⟨by decide, scatteredJacobian, hcompact⟩
  have hoverElements := hover _ _ hcompact he'
  refine ⟨⟨q, hq, henlarges, hembeds ℕ #[7,8]⟩, helements _ hin, hmade, hspans, hcompact, e', he', hoverElements,
    fun i hi => ?_⟩
  have hof : Instance.of? scatteredJacobian = .ok (.of scatteredJacobian) := by cbv
  refine (hoverElements.calls (i := .of scatteredJacobian) ⟨_, [], hof, rfl⟩ hi _ _).mpr ?_
  cbv

end Definition

/-- Rows that are far apart have elements of one number. Then the block over all elements has fewer entries than the one
over entries. -/
theorem Pattern.elements_collide :
    distantPattern.Valid ∧ distantPattern.elements = #[5,5] ∧ ¬distantPattern.elements.toList.Pairwise (· < ·) ∧
    ((product 64).derive (.jacobian 0 0 true false)).run 1 = (.ok (productJacobian 64 (.dense 1 2)), 2) ∧
    ((product 64).derive (.jacobian 0 0 false false)).run 1 = (.ok (productJacobian 64 ⟨1, 2^63, #[0,1], #[5]⟩), 2) := by
  have helements : distantPattern.elements = #[5,5] := by cbv
  refine ⟨?_, helements, by rw [helements]; decide, by cbv, by cbv⟩
  constructor <;> decide

end Fluxion
