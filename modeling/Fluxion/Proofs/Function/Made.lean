import Fluxion.Function.Derived
import Fluxion.Proofs.Function.Drawn
import Fluxion.Proofs.Function.Regular
import Fluxion.Proofs.Function.UsedColors

/-!
Definitions that can be made: over expressions, over callables, and derived from one that was made. By induction
on how a definition was made its parts belong together, and it is regular.
-/
set_option autoImplicit false

namespace Fluxion

open Fluxion.Expr

variable {K : Type}

/-- What the options say about directions. -/
def Options.counts (o : Options K) : Nat × Nat × Nat × Nat :=
  (o.forwardDirections, o.adjointDirections, o.maxForward, o.maxAdjoint)

theorem Options.granted_congr {o o' : Options K} (h : o.counts = o'.counts) : o.granted = o'.granted := by
  obtain ⟨hf, ha, hmf, hma⟩ : _ ∧ _ ∧ _ ∧ _ := by simpa [counts] using h
  funext f a
  rw [granted, granted, initialForward, initialForward, initialAdjoint, initialAdjoint, hf, ha, hmf, hma]

theorem Options.limits_congr {o o' : Options K} (h : o.counts = o'.counts) : o.limits = o'.limits := by
  obtain ⟨-, -, hmf, hma⟩ : _ ∧ _ ∧ _ ∧ _ := by simpa [counts] using h
  rw [limits, limits, hmf, hma]

/-! ### Room for directions -/

theorem Room.granted {o : Options K} (h : Room o.limits) (f a : Nat) : Room (o.granted f a) :=
  h.mono (Nat.max_le.mpr ⟨Nat.min_le_right _ _, Nat.min_le_right _ _⟩)
    (Nat.max_le.mpr ⟨Nat.min_le_right _ _, Nat.min_le_right _ _⟩)

/-- One direction always has room. -/
theorem Room.granted_one {o : Options K} (h : Room o.initial) : Room (o.granted 1 1) :=
  ⟨Frame.hasRoom_max_of_le_one h.1 (Nat.min_le_left 1 _), Frame.hasRoom_max_of_le_one h.2 (Nat.min_le_left 1 _)⟩

/-- What an instance starts with had room. -/
theorem Instance.of?_eq [Number K] {d : Definition K} {i : Instance K} (h : Instance.of? d = .ok i) :
    i = Instance.of d ∧ Room d.sig.options.initial := by
  rw [Instance.of?] at h
  obtain ⟨_, hforward, h⟩ := exists_of_bind_eq_ok h
  obtain ⟨_, hadjoint, h⟩ := exists_of_bind_eq_ok h
  exact ⟨(Except.ok.inj h).symm, Count.checkRoom_eq_ok_iff.mp hforward, Count.checkRoom_eq_ok_iff.mp hadjoint⟩

/-- The patterns that a callable reports are patterns. -/
def Callable.Patterned (c : Callable K) : Prop := ∀ i o p, c.jacPattern i o = some p → p.Valid

/-- All elements of a block that is asked for over all elements can be counted. -/
def Request.Counted (sig : Signature K) : Request → Prop
  | .jacobian i o compact _ => compact = true ∨ sig.Counted i o
  | .gradient _ _ => True
  | .hessian i _ => ∀ p, sig.inputs[i]? = some p → p.Counted
  | .derivative _ _ => True

variable [Number K]

/-- Definitions that are made one after the other, of callables of which `A` holds; `n` is the next number. -/
inductive Made (A : Callable K → Prop) : Nat → Definition K → Prop
  | expressions {n n' : Nat} {inputs outputs : Array (Matrix (Expr K))} {o : Options K} {d : Definition K}
    (hn : Numbered n (Matrix.entries inputs ++ Matrix.entries outputs)) (hin : ∀ m ∈ inputs, m.Sized)
    (hout : ∀ m ∈ outputs, m.Sized) (hrun : (Definition.ofExpressions inputs outputs o).run n = (.ok d, n')) :
    Made A n' d
  | external {n n' : Nat} {c : Callable K} {o : Options K} {d : Definition K} (hc : A c)
    (hrun : (Definition.ofCallable c o).run n = (.ok d, n')) : Made A n' d
  | derived {n k n' : Nat} {d e : Definition K} {r : Request} (hd : Made A n d) (hk : n ≤ k)
    (hrun : (d.derive r).run k = (.ok e, n')) : Made A n' e

/-- A Jacobian block stands on its parent, asks the parent's callable for the pattern that this reports, and sweeps
colors that are used. -/
structure JacobianBlock.StandsOn (sig : Signature K) (block : JacobianBlock) (p : Definition K) : Prop where
  inputs : sig.inputs = p.sig.inputs
  outputs : ∃ first : Pattern, sig.outputs = #[first] ++ p.sig.outputs
  counts : sig.options.counts = p.sig.options.counts
  source : block.source = .callable → ∃ c inp out, p.callable? = some c ∧
    p.sig.inputs[block.iind]? = some inp ∧ p.sig.outputs[block.oind]? = some out ∧
    block.pattern = (c.jacPattern block.iind block.oind).getD (.dense out.nnz inp.nnz)
  used : ∀ side, block.source = .sweeps side → ∃ inp out, p.sig.inputs[block.iind]? = some inp ∧
    p.sig.outputs[block.oind]? = some out ∧ side.Used out.nnz inp.nnz

/-- The parts of the definition belong together. -/
inductive Definition.Sound (A : Callable K → Prop) (roots : List (Expr K)) : Definition K → Prop
  | expressions {sig : Signature K} {t : Tape K} {inputs outputs : Array (Matrix (Expr K))} :
    Draws roots inputs outputs sig t → Sound A roots (.expressions sig t inputs)
  | external {sig : Signature K} {c : Callable K} : sig.inputs = c.inputs → sig.outputs = c.outputs → A c →
    Sound A roots (.external sig c)
  | jacobian {sig : Signature K} {block : JacobianBlock} {p : Definition K} : block.StandsOn sig p →
    Sound A roots p → Sound A roots (.jacobian sig block p)
  | derivative {sig : Signature K} {f a : Nat} {p : Definition K} :
    sig.inputs = arranged p.sig.inputs p.sig.outputs f a → sig.outputs = arranged p.sig.outputs p.sig.inputs f a →
    sig.options.counts = p.sig.options.counts → Sound A roots p → Sound A roots (.derivative sig f a p)

namespace Definition

variable {A : Callable K → Prop} {roots : List (Expr K)} {d : Definition K}

theorem Sound.subset {roots' : List (Expr K)} (h : d.Sound A roots) (hr : roots ⊆ roots') : d.Sound A roots' := by
  induction h with
  | expressions h => exact .expressions (h.subset hr)
  | external hin hout hc => exact .external hin hout hc
  | jacobian h _ ih => exact .jacobian h ih
  | derivative hin hout hc _ ih => exact .derivative hin hout hc ih

theorem Drawn.sound {o : Options K} (h : d.Drawn o roots) : d.Sound A roots ∧ d.sig.options = o := by
  obtain ⟨inputs, outputs, sig, t, rfl, ho, h⟩ := h
  exact ⟨.expressions h, ho⟩

theorem exists_roots_ofExpressions {n n' : Nat} {inputs outputs : Array (Matrix (Expr K))} {o : Options K}
    (hn : Numbered n (Matrix.entries inputs ++ Matrix.entries outputs)) (hin : ∀ m ∈ inputs, m.Sized)
    (hout : ∀ m ∈ outputs, m.Sized) (hrun : (Definition.ofExpressions inputs outputs o).run n = (.ok d, n')) :
    ∃ roots', Numbered n' roots' ∧ d.Drawn o roots' ∧ d.Entire := by
  have hinputs : Symbolic.Present (Matrix.entries inputs ++ Matrix.entries outputs) inputs :=
    fun e he => .root (List.mem_append_left _ he)
  have houtputs : Symbolic.Present (Matrix.entries inputs ++ Matrix.entries outputs) outputs :=
    fun e he => .root (List.mem_append_right _ he)
  obtain ⟨roots', -, hend, hd, hshows⟩ := (Symbolic.attempts_ofExpressions hinputs hin houtputs
    (fun m hm => (hout m hm).ge) o).exists_roots hn hrun
  exact ⟨roots', hend, hd, hshows.entire fun m hm => (hout m hm).symm⟩

/-! ### Numeric derivatives -/

omit [Number K] in
/-- The pattern over entries that a callable reports, or a dense one. -/
theorem jacSparsity_external {sig : Signature K} {c : Callable K} {iind oind : Nat} {inp out p : Pattern}
    (hin : sig.inputs[iind]? = some inp) (hout : sig.outputs[oind]? = some out)
    (h : (Definition.external sig c).jacSparsity iind oind true false = .ok p) :
    p = (c.jacPattern iind oind).getD (.dense out.nnz inp.nnz) := by
  have hcin : sig.checkInput iind = .ok inp := by
    rw [Signature.checkInput, hin]
    rfl
  have hcout : sig.checkOutput oind = .ok out := by
    rw [Signature.checkOutput, hout]
    rfl
  have hsig : (Definition.external sig c).sig = sig := rfl
  rw [jacSparsity, hsig, hcin, ok_bind, hcout, ok_bind, detectPattern, hsig, hcin, ok_bind, hcout, ok_bind] at h
  obtain ⟨q, hq, h⟩ := exists_of_bind_eq_ok h
  obtain rfl : q = p := Except.ok.inj h
  obtain ⟨-, hq⟩ := ok_of_guard hq
  have hcall : (Definition.external sig c).callable?.bind (·.jacPattern iind oind) = c.jacPattern iind oind := rfl
  rw [hcall] at hq
  cases hpat : c.jacPattern iind oind with
  | none =>
    rw [hpat] at hq
    exact (Except.ok.inj hq).symm
  | some r =>
    rw [hpat] at hq
    exact (Except.ok.inj (ok_of_guard hq).2).symm

omit [Number K] in
/-- The pattern of a numeric Jacobian is dense, or the one that the callable reports if it reports one. -/
theorem exists_of_numericSource {iind oind : Nat} {ps : Pattern × Source} (h : d.numericSource iind oind = .ok ps) :
    ∃ inp out, d.sig.inputs[iind]? = some inp ∧ d.sig.outputs[oind]? = some out ∧
      (ps.1 = .dense out.nnz inp.nnz ∧ ps.2 ≠ .callable ∨
        ∃ c, d.callable? = some c ∧ ps.1 = (c.jacPattern iind oind).getD (.dense out.nnz inp.nnz)) := by
  rw [numericSource] at h
  obtain ⟨inp, hin, h⟩ := exists_of_bind_eq_ok h
  obtain ⟨out, hout, h⟩ := exists_of_bind_eq_ok h
  have hin := Signature.inputs_of_checkInput hin
  have hout := Signature.outputs_of_checkOutput hout
  refine ⟨inp, out, hin, hout, ?_⟩
  cases d with
  | expressions | jacobian | derivative =>
    obtain rfl := Except.ok.inj h
    exact .inl ⟨rfl, by simp⟩
  | external sig c =>
    change (if (c.jacobian iind oind).isSome then _ else _) = Except.ok ps at h
    split at h
    · obtain ⟨p, hp, h⟩ := exists_of_bind_eq_ok h
      obtain rfl := Except.ok.inj h
      exact .inr ⟨c, rfl, jacSparsity_external hin hout hp⟩
    · split at h
      · obtain ⟨p, hp, h⟩ := exists_of_bind_eq_ok h
        obtain ⟨side, -, h⟩ := exists_of_bind_eq_ok h
        obtain rfl := Except.ok.inj h
        exact .inr ⟨c, rfl, jacSparsity_external hin hout hp⟩
      · obtain rfl := Except.ok.inj h
        exact .inl ⟨rfl, by simp⟩

theorem Sound.callable {c : Callable K} (h : d.Sound A roots) (hc : d.callable? = some c) : A c := by
  cases h with
  | expressions | jacobian | derivative => cases hc
  | external _ _ h => exact Option.some.inj hc ▸ h

theorem valid_numericSource (h : d.Sound A roots) (hA : ∀ c, A c → c.Patterned) {iind oind : Nat}
    {ps : Pattern × Source} (hps : d.numericSource iind oind = .ok ps) : ps.1.Valid := by
  obtain ⟨inp, out, -, -, ⟨hdense, -⟩ | ⟨c, hc, hpat⟩⟩ := exists_of_numericSource hps
  · rw [hdense]
    exact Pattern.valid_dense _ _
  · rw [hpat]
    cases hp : c.jacPattern iind oind with
    | none => exact Pattern.valid_dense _ _
    | some p => exact hA c (h.callable hc) _ _ p hp

variable {o : Options K} {iind oind : Nat} {compact : Bool} {layout : Layout}

/-- A Jacobian or a gradient of a definition, made with the options. -/
structure Built (A : Callable K → Prop) (d : Definition K) (iind oind : Nat) (compact : Bool) (layout : Layout)
    (o : Options K) (roots : List (Expr K)) (e : Definition K) : Prop where
  sound : e.Sound A roots
  options : e.sig.options = o
  inputs : e.sig.inputs = d.sig.inputs
  gradient : layout = .gradient → ∀ p, d.sig.inputs[iind]? = some p → e.sig.outputs[0]? = some p
  entire : (∀ c, A c → c.Patterned) → d.Entire →
    layout = .gradient ∨ compact = true ∨ d.sig.Counted iind oind → e.Entire

omit [Number K] in
/-- A block with the pattern and the source of a numeric Jacobian stands on the definition. -/
theorem standsOn_numericSource {p : Pattern} {source : Source} (h : d.numericSource iind oind = .ok (p, source))
    {sig : Signature K} {first : Pattern} (layout : Layout) (hin : sig.inputs = d.sig.inputs)
    (hout : sig.outputs = #[first] ++ d.sig.outputs) (ho : sig.options.counts = d.sig.options.counts) :
    JacobianBlock.StandsOn sig ⟨iind, oind, layout, p, source⟩ d := by
  obtain ⟨inp, out, hinp, houtp, hsource⟩ := exists_of_numericSource h
  exact ⟨hin, ⟨first, hout⟩, ho, fun hs => hsource.elim (fun hdense => (hdense.2 hs).elim)
    fun ⟨c, hc, hpat⟩ => ⟨c, inp, out, hc, hinp, houtp, hpat⟩, fun side hs => used_numericSource h hs⟩

theorem attempts_numericJacobian (h : d.Sound A roots) (iind oind : Nat) (compact : Bool) (layout : Layout)
    (ho : o.counts = d.sig.options.counts) :
    Attempts roots (d.numericJacobian iind oind compact layout o) (Built A d iind oind compact layout o) := by
  refine .bind (P := fun _ ps => d.numericSource iind oind = .ok ps) (.look fun _ h => h) fun roots₁ ps h₁ hps => ?_
  have hvalid (hA : ∀ c, A c → c.Patterned) : ps.1.Valid := valid_numericSource h hA hps
  obtain ⟨p, source⟩ := ps
  have hlast {roots' : List (Expr K)} (hr : roots₁ ⊆ roots') (first : Pattern)
      (hgradient : layout = .gradient → d.sig.inputs[iind]? = some first)
      (hplaces : (∀ c, A c → c.Patterned) → layout = .jacobian → compact = true ∨ d.sig.Counted iind oind →
        first.nnz = p.nnz) : Attempts roots' (do
      let uid ← Fresh.next
      return .jacobian ⟨uid, o, d.sig.inputs, #[first] ++ d.sig.outputs⟩ ⟨iind, oind, layout, p, source⟩ d :
      Make (Definition K)) (Built A d iind oind compact layout o) := by
    refine .bind (.lift grows_next) fun _ uid hr' _ => .pure
      ⟨.jacobian (standsOn_numericSource hps layout rfl rfl ho) (h.subset (List.Subset.trans h₁ (List.Subset.trans hr hr'))), rfl, rfl,
        fun hl q hq => ?_, fun hA hd hcount => ⟨fun hl => ?_, hd⟩⟩
    · rw [hgradient hl] at hq
      simpa [Definition.sig] using hq
    · have hcount := hcount.resolve_left (by simp [show layout = .jacobian from hl])
      simpa [Signature.outputSizes] using hplaces hA hl hcount
  cases layout with
  | gradient =>
    exact .bind (P := fun _ first => d.sig.checkInput iind = .ok first) (.look fun _ h => h) fun _ first hr hfirst =>
      hlast hr first (fun _ => Signature.inputs_of_checkInput hfirst) fun _ hl => by cases hl
  | jacobian =>
    cases compact with
    | true => exact hlast (List.Subset.refl _) p (fun hl => by cases hl) fun _ _ _ => rfl
    | false =>
      refine .bind (P := fun _ first => d.enlarge p iind oind = .ok first) (.look fun _ h => h)
        fun _ first hr hfirst => hlast hr first (fun hl => by cases hl) fun hA _ hcount => ?_
      exact Symbolic.nnz_enlarge_eq (hvalid hA) (hcount.resolve_left (by simp)) hfirst

theorem attempts_buildJacobian (h : d.Sound A roots) (iind oind : Nat) (compact symmetric : Bool) (layout : Layout)
    (ho : o.counts = d.sig.options.counts) :
    Attempts roots (d.buildJacobian iind oind compact symmetric layout o) (Built A d iind oind compact layout o) := by
  have hnumeric := attempts_numericJacobian h iind oind compact layout ho
  cases h with
  | @expressions sig t inputs outputs hd =>
    cases layout with
    | gradient =>
      change Attempts roots (if sig.options.numericJacobian then _ else _) _
      split
      · exact hnumeric
      · refine (Symbolic.attempts_gradient hd iind oind o).mono fun _ e _ ⟨he, hshows⟩ =>
          ⟨he.sound.1, (he.sound (A := A)).2, hshows.inputs, fun _ p hp => ?_, fun _ _ _ => hshows.entire trivial⟩
        have hp : sig.inputs[iind]? = some p := hp
        simp [hshows.outputs, hp]
    | jacobian =>
      change Attempts roots (if sig.options.numericJacobian then _ else _) _
      split
      · exact hnumeric
      · exact (Symbolic.attempts_jacobian hd iind oind compact symmetric o).mono fun _ e _ ⟨he, hinputs, hentire⟩ =>
          ⟨he.sound.1, (he.sound (A := A)).2, hinputs, (fun hl => by cases hl),
            fun _ _ hcount => hentire (hcount.resolve_left (by simp))⟩
  | external | jacobian | derivative => exact hnumeric

theorem grows_numericDerivative (h : d.Sound A roots) (f a : Nat) (ho : o.counts = d.sig.options.counts) :
    Grows roots (d.numericDerivative f a o) fun roots' e => e.Sound A roots' ∧ (d.Entire → e.Entire) :=
  .bind grows_next fun _ _ hr _ => .pure ⟨.derivative rfl rfl ho (h.subset hr), id⟩

omit [Number K] in
theorem counts_derivedOptions (s : Signature K) (label : String) :
    (s.derivedOptions label).counts = s.options.counts := rfl

/-- What is derived from a sound definition is sound. It has a place for every value where the definition has, if
the elements of the block that is asked for can be counted. -/
theorem attempts_derive (h : d.Sound A roots) (r : Request) : Attempts roots (d.derive r) fun roots' e =>
    e.Sound A roots' ∧ ((∀ c, A c → c.Patterned) → d.Entire → r.Counted d.sig → e.Entire) := by
  cases r with
  | jacobian iind oind compact symmetric =>
    rw [derive]
    exact (attempts_buildJacobian h iind oind compact symmetric .jacobian (counts_derivedOptions _ _)).mono
      fun _ _ _ he => ⟨he.sound, fun hA hd hcount => he.entire hA hd (.inr hcount)⟩
  | gradient iind oind =>
    rw [derive]
    exact (attempts_buildJacobian h iind oind true false .gradient (counts_derivedOptions _ _)).mono
      fun _ _ _ he => ⟨he.sound, fun hA hd _ => he.entire hA hd (.inl rfl)⟩
  | hessian iind oind =>
    rw [derive]
    refine .bind (attempts_buildJacobian h iind oind true false .gradient (counts_derivedOptions d.sig "grad"))
      fun _ g _ hg => ?_
    have ho : (d.sig.derivedOptions "hess").counts = g.sig.options.counts := by
      rw [hg.options]
      exact counts_derivedOptions d.sig "hess"
    refine (attempts_buildJacobian hg.sound iind 0 false true .jacobian ho).mono fun _ _ _ he =>
      ⟨he.sound, fun hA hd hcount => he.entire hA (hg.entire hA hd (.inl rfl)) (.inr (.inr fun p q hp hq => ?_))⟩
    -- The gradient is over the input, so its elements are those of the input again.
    rw [hg.inputs] at hp
    obtain rfl : p = q := Option.some.inj ((hg.gradient rfl p hp).symm.trans hq)
    exact ⟨hcount p hp, hcount p hp⟩
  | derivative f a =>
    have hnumeric (o : Options K) (ho : o.counts = d.sig.options.counts) :
        Attempts roots (liftM (d.numericDerivative f a o) : Make (Definition K)) fun roots' e =>
          e.Sound A roots' ∧ ((∀ c, A c → c.Patterned) → d.Entire → True → e.Entire) :=
      (Attempts.lift (grows_numericDerivative h f a ho)).mono fun _ _ _ he => ⟨he.1, fun _ hd _ => he.2 hd⟩
    cases h with
    | @expressions sig t inputs outputs hd =>
      change Attempts roots (Symbolic.derivative (.expressions sig t inputs) t inputs f a _) _
      exact (Symbolic.attempts_derivative hd f a _).mono fun _ _ _ he => ⟨he.1.sound.1, fun _ _ _ => he.2⟩
    | @external sig c =>
      change Attempts roots (liftM ((Definition.external sig c).numericDerivative f a _) : Make (Definition K)) _
      exact hnumeric _ (counts_derivedOptions _ _)
    | @jacobian sig block p =>
      change Attempts roots (liftM ((Definition.jacobian sig block p).numericDerivative f a _) : Make (Definition K)) _
      exact hnumeric _ (counts_derivedOptions _ _)
    | @derivative sig f' a' p =>
      change Attempts roots (liftM ((Definition.derivative sig f' a' p).numericDerivative f a _) :
        Make (Definition K)) _
      exact hnumeric _ (counts_derivedOptions _ _)

/-- A sound definition is regular. Without room for all directions that the options allow, without places for all
values or with callables that break a precondition, it may break one. -/
theorem Sound.regular {W E : Prop} (h : d.Sound A roots) (hE : ∀ c, A c → E ∨ c.Complete)
    (hW : W ∨ d.Entire ∧ Room d.sig.options.limits ∧ ∀ c, A c → c.Calm)
    (hroom : Room (d.sig.options.granted 1 1)) : d.Regular W E := by
  induction h with
  | expressions hd => exact .expressions _ _ _ (hd.fitting (hW.imp_right And.left))
  | @external sig c hin hout hc =>
    exact .external _ _ hin hout (hE _ hc) (hW.imp_right fun hw => hw.2.2 _ hc)
  | @jacobian sig block p hb hp ih =>
    have hcounts : sig.options.counts = p.sig.options.counts := hb.counts
    have hparent := hW.imp_right fun hw => And.intro hw.1.2 (Options.limits_congr hcounts ▸ hw.2)
    rw [Definition.sig, Options.granted_congr hcounts] at hroom
    refine .jacobian _ _ _ ⟨hb.inputs, ?_, fun hs => ?_, hroom⟩ (ih hparent hroom)
    · obtain ⟨first, hfirst⟩ := hb.outputs
      refine ⟨first, hfirst, hW.imp_right fun hw hl => ?_⟩
      have hsize := hw.1.1 hl
      simpa [Signature.outputSizes, hfirst] using hsize
    · obtain ⟨c, inp, out, hcall, hinp, hout, hpat⟩ := hb.source hs
      refine ⟨c, hcall, ?_⟩
      cases hp with
      | expressions | jacobian | derivative => cases hcall
      | external hpin hpout hc =>
        obtain rfl := Option.some.inj hcall
        refine ⟨hpin, hW.imp_right fun hw => ?_⟩
        rw [hpat]
        exact (hw.2.2 _ hc).jacobian _ _ _ _ (hpin ▸ hinp) (hpout ▸ hout)
  | @derivative sig f a p hin hout hcounts hp ih =>
    rw [Definition.sig, Options.granted_congr hcounts] at hroom
    have hlimits : sig.options.limits = p.sig.options.limits := Options.limits_congr hcounts
    have hparent := hW.imp_right fun hw => And.intro hw.1 (hlimits ▸ hw.2)
    exact .derivative _ _ _ _ ⟨hin, hout, hparent.imp_right fun hw => hw.2.1.granted f a⟩ (ih hparent hroom)

end Definition

namespace Made

variable {A : Callable K → Prop} {d : Definition K} {n : Nat}

theorem sound (h : Made A n d) : ∃ roots, Numbered n roots ∧ d.Sound A roots := by
  induction h with
  | @expressions n n' inputs outputs o d hn hin hout hrun =>
    obtain ⟨roots, hend, hd, -⟩ := Definition.exists_roots_ofExpressions hn hin hout hrun
    exact ⟨roots, hend, hd.sound.1⟩
  | @external n n' c o d hc hrun =>
    have hattempt : Attempts ([] : List (Expr K)) (Definition.ofCallable c o) (Definition.Sound A) := by
      rw [Definition.ofCallable]
      split
      · exact .throw
      · exact .bind (.lift grows_next) fun _ _ _ _ => .pure (.external rfl rfl hc)
    obtain ⟨roots, -, hend, hd⟩ := hattempt.exists_roots (numbered_nil n) hrun
    exact ⟨roots, hend, hd⟩
  | derived hd hk hrun ih =>
    obtain ⟨roots, hn, hs⟩ := ih
    obtain ⟨roots', -, hend, he, -⟩ := (Definition.attempts_derive hs _).exists_roots (hn.mono hk) hrun
    exact ⟨roots', hend, he⟩

/-- A definition over expressions has a place for every value. -/
theorem entire_ofExpressions {n n' : Nat} {inputs outputs : Array (Matrix (Expr K))} {o : Options K}
    (hn : Numbered n (Matrix.entries inputs ++ Matrix.entries outputs)) (hin : ∀ m ∈ inputs, m.Sized)
    (hout : ∀ m ∈ outputs, m.Sized) (hrun : (Definition.ofExpressions inputs outputs o).run n = (.ok d, n')) :
    d.Entire := by
  obtain ⟨-, -, -, hd⟩ := Definition.exists_roots_ofExpressions hn hin hout hrun
  exact hd

/-- A derived definition has a place for every value where the definition has. -/
theorem entire_derive {k n' : Nat} {e : Definition K} {r : Request} (h : Made A n d)
    (hA : ∀ c, A c → c.Patterned) (hd : d.Entire) (hr : r.Counted d.sig) (hk : n ≤ k)
    (hrun : (d.derive r).run k = (.ok e, n')) : e.Entire := by
  obtain ⟨roots, hn, hs⟩ := h.sound
  obtain ⟨-, -, -, -, he⟩ := (Definition.attempts_derive hs r).exists_roots (hn.mono hk) hrun
  exact he hA hd hr

end Made

end Fluxion
