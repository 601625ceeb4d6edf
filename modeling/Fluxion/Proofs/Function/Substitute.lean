import Fluxion.Calculus
import Fluxion.Proofs.Function.SymbolicJacobian
import Fluxion.Proofs.Tape.Carried
import Fluxion.Proofs.Tape.SymbolicPartials

/-!
Substitution. A tape that leaves symbols free is replayed over expressions in the place of its inputs. What it makes
has the values of the outputs where each input has the value of the expression in its place, all at once, and each free
symbol its own. No input is read after it was replaced, so the expressions may be about the inputs themselves.
-/
set_option autoImplicit false

namespace Fluxion

open Fluxion.Expr

variable {K R : Type}

theorem Block.exists_target {T : Type} {b : Block T} {ms : Array (Matrix (Expr K))} (h : b.sizes = ms.map Matrix.nnz)
    {i k : Nat} {x : T} (hx : b.get? i k = some x) : ∃ e, (i,k,e) ∈ Order.targets ms := by
  obtain ⟨n, hn, hk⟩ := (Block.get?_isSome h).mp (Option.isSome_of_eq_some hx)
  obtain ⟨m, hm, rfl⟩ := Option.map_eq_some_iff.mp (Array.getElem?_map ▸ hn)
  exact ⟨_, Order.mem_targets.mpr ⟨m, hm, Array.getElem?_eq_getElem hk⟩⟩

theorem Block.get?_values {ms : Array (Matrix (Expr K))} {i k : Nat} {e : Expr K} :
    Block.get? (ms.map (·.values)) i k = some e ↔ (i,k,e) ∈ Order.targets ms := by
  simp [Block.get?, Order.mem_targets, Option.bind_eq_some_iff]

namespace Tape

section Replay

variable [CommRing K] [Number K] [ExactRing K] [CommRing R] [Number R] [ExactRing R] {ok : Op → Prop}
  {symbols roots : List (Expr K)} {f : K →+* R} {ρ ρ' : Symbol → R} {inputs outputs : Array (Matrix (Expr K))}
  {places : Std.HashMap Nat (Nat × Nat)} {l l₁ l₂ : List (Node K)} {slot : Nat → Nat} {t : Tape K} {n : Node K}
  {b : Buffers (Expr K)} {s : Replay (Expr K)}

/-- The expressions that a replay makes stand for the values of those of the tape under `ρ'`. -/
def Stands (f : K →+* R) (ρ ρ' : Symbol → R) (roots : List (Expr K)) (e x : Expr K) : Prop :=
  Denotes (meaning f ρ) (e.meaning f ρ') roots x

theorem carries_stands (hf : Reading ok f) :
    Carries ok symbols (fun e => e.Proper ∧ (e.op.isStructural = false → ok e.op)) (Stands f ρ ρ') where
  subset h hr := h.subset hr
  const _ _ v := yields_newConst v
  unary := by
    rintro roots i op a x ⟨hproper, hok⟩ hx
    have hyields : Yields ok symbols roots _ _ :=
      yields_apply (ρ := ρ) hf hproper.1 (hok hproper.1) hx.1 hx.1 fun _ => rfl
    rwa [hx.2] at hyields
  binary := by
    rintro roots i op a c x y ⟨hproper, hok⟩ hx hy
    have hs := Op.isStructural_of_arity hproper.1
    have hyields : Yields ok symbols roots _ _ := yields_apply (ρ := ρ) hf hs (hok hs) hx.1 hy.1
      fun harity => absurd (harity.symm.trans hproper.1) (by decide)
    rwa [hx.2, hy.2] at hyields

/-- A replay makes outputs that stand for their values under `ρ'`. -/
theorem returns_evaluate_free (hf : Reading ok f) (hop : ∀ e, ReachedFrom (Matrix.entries outputs) e →
      e.op.isStructural = false → ok e.op)
    (hc : Compiled inputs outputs places l slot t) (hu : Coherent (Matrix.entries outputs))
    (hb : b.output.sizes = outputs.map Matrix.nnz)
    (hreads : ∀ y, .symbol y ∈ Order.exprs l → Reads places (Stands f ρ ρ' roots) b.input y) :
    Returns ok symbols roots (t.evaluate Arithmetic.symbolic b 0 0) fun roots' c => c.output.Held roots' ∧
      c.output.image (meaning f ρ) = Block.ofEntries (meaning f ρ') outputs := by
  refine ((carries_stands hf).returns_evaluate (fun e he => ⟨hu.proper e he, hop e he⟩) hc hu hb hreads).mono
    fun roots' c _ ⟨hsizes, hentries⟩ => ⟨fun v hv x hx => ?_, ?_⟩
  · obtain ⟨i, hi⟩ := Array.mem_iff_getElem?.mp hv
    obtain ⟨k, hk⟩ := Array.mem_iff_getElem?.mp hx
    have hget : c.output.get? i k = some x := by rw [Block.get?, hi]; exact hk
    obtain ⟨e, he⟩ := Block.exists_target hsizes hget
    obtain ⟨y, hy, hd⟩ := hentries i k e he
    obtain rfl : y = x := Option.some.inj (hy.symm.trans hget)
    exact hd.1
  · refine Block.eq_ofEntries ((Block.sizes_image _ _).trans hsizes) fun i k e he => ?_
    obtain ⟨x, hx, hd⟩ := hentries i k e he
    rw [Block.get?_image, hx, Option.map_some, hd.2]

end Replay

end Tape

/-- Arguments with the sizes of the inputs pass the checks. -/
theorem Symbolic.outputsAt_eq [Number K] {sig : Signature K} {t : Tape K} {inputs args : Array (Matrix (Expr K))}
    (h : sig.inputs.map Pattern.nnz = args.map Matrix.nnz) :
    outputsAt (.expressions sig t inputs) args = do
      let b ← buffers sig args 0 0
      let b ← replay t b 0 0
      return matrices sig.outputs b.output := by
  have hcount : sig.checkCount args.size = .ok () := if_pos (by simpa using (congrArg Array.size h).symm)
  have hlengths (xs : List ((Matrix (Expr K) × Pattern) × Nat)) (hxs : ∀ x ∈ xs, x.1.2.nnz = x.1.1.nnz) :
      (xs.forM fun x => (liftM (sig.checkLength .input x.2 x.1.2.nnz x.1.1.nnz) : Make Unit)) = pure () := by
    induction xs with
    | nil => rfl
    | cons x xs ih =>
      have hx : sig.checkLength .input x.2 x.1.2.nnz x.1.1.nnz = .ok () := if_pos (hxs x List.mem_cons_self)
      exact (Make.lift_ok hx _).trans (ih fun y hy => hxs y (List.mem_cons_of_mem _ hy))
  unfold outputsAt
  simp only [Definition.tape?, Definition.sig]
  rw [Make.lift_ok hcount, hlengths _ fun x hx => ?_]
  · rfl
  · obtain ⟨⟨m, p⟩, k⟩ := x
    obtain ⟨hm, hp⟩ := Array.getElem?_zip_eq_some.mp (Array.mk_mem_zipIdx_iff_getElem?.mp (Array.mem_toList_iff.mp hx))
    have hk := congrArg (fun ns : Array Nat => ns[k]?) h
    simpa [hm, hp] using hk

namespace Calculus

section Updated

variable [Number K] {vars values : Array (Matrix (Expr K))} {ρ : Symbol → K} {s : Symbol}

/-- The valuation in which all variables have, at once, the values of the expressions in their places. -/
def updated (vars values : Array (Matrix (Expr K))) (ρ : Symbol → K) (s : Symbol) : K :=
  Tape.valuation (ρ s) vars (Block.ofEntries (Expr.value ρ) values) s

/-- A variable has the value, under the valuation that was, of the expression in its place. -/
theorem updated_variable (hvars : DistinctSymbols vars) (hsizes : values.map Matrix.nnz = vars.map Matrix.nnz)
    {i k : Nat} {x e : Expr K} (hx : (i,k,x) ∈ Order.targets vars) (hs : x.id = s.id)
    (he : (i,k,e) ∈ Order.targets values) : updated vars values ρ s = e.value ρ := by
  have hblock : (Block.ofEntries (Expr.value ρ) values).sizes = vars.map Matrix.nnz :=
    (Block.sizes_ofEntries _ _).trans hsizes
  have hget : (Block.ofEntries (Expr.value ρ) values).get? i k = some (e.value ρ) :=
    (Block.get?_ofEntries _ _).mpr ⟨e, he, rfl⟩
  exact Option.some.inj ((Tape.valuation_eq hvars (ρ s) hblock hx hs).symm.trans hget)

/-- Other symbols keep their values. -/
theorem updated_other (hs : ∀ x ∈ Matrix.entries vars, x.id ≠ s.id) : updated vars values ρ s = ρ s := by
  have hfind : (Order.targets vars).find? (fun t => t.2.2.id == s.id) = none := by
    rw [List.find?_eq_none]
    intro t ht
    simpa using hs t.2.2 (Order.mem_targets_entries ht)
  rw [updated, Tape.valuation, hfind]

end Updated

variable [Field K] [Number K] [ExactField K] [ExactPower K] {exprs vars values : Array (Matrix (Expr K))}
  {sig : Signature K} {t : Tape K} {symbols roots : List (Expr K)}

omit [ExactField K] [ExactPower K] in
/-- A replay over the values reads what the updated valuation says. -/
theorem reads_updated {places : Std.HashMap Nat (Nat × Nat)} {l : List (Node K)} {slot : Nat → Nat}
    (hc : Tape.Compiled vars exprs places l slot t) (hsizes : values.map Matrix.nnz = vars.map Matrix.nnz)
    (hexprs : Symbolic.Present roots exprs) (hvalues : Symbolic.Present roots values) (ρ : Symbol → K) (y : Symbol)
    (hy : .symbol y ∈ Order.exprs l) :
    Tape.Reads places (Tape.Stands (RingHom.id K) ρ (updated vars values ρ) roots) (values.map (·.values)) y := by
  rw [Tape.Reads]
  split
  · next i k hp =>
    obtain ⟨x, hx, hid⟩ := hc.placed.mem _ i k hp
    have hblock : Block.sizes (values.map (·.values)) = vars.map Matrix.nnz := by
      rw [← hsizes]
      simp [Block.sizes, Matrix.nnz, Function.comp_def]
    obtain ⟨e, he⟩ := Option.isSome_iff_exists.mp (Block.target_isSome hblock hx)
    have htarget := Block.get?_values.mp he
    refine ⟨e, he, hvalues e (Order.mem_targets_entries htarget), ?_⟩
    rw [meaning_id, meaning_symbol, updated_variable hc.placed.distinct hsizes hx hid htarget]
  · next hp =>
    obtain ⟨r, hr, hreach⟩ := (hc.complete.mem_exprs _).mp hy
    refine ⟨.trans hreach (hexprs r hr), ?_⟩
    rw [meaning_id, meaning_symbol, Expr.value, updated_other]
    intro x hx hid
    obtain ⟨i, k, m, hm, hk⟩ := Matrix.mem_entries.mp hx
    have hplace := hc.placed.get i k x (Order.mem_targets.mpr ⟨m, hm, hk⟩)
    rw [hid, hp] at hplace
    cases hplace

theorem returns_outputsAt (h : Sorts vars exprs sig t) (hsizes : values.map Matrix.nnz = vars.map Matrix.nnz)
    (hexprs : Symbolic.Present roots exprs) (hvalues : Symbolic.Present roots values) :
    Returns (fun _ => True) symbols roots (Symbolic.outputsAt (.expressions sig t vars) values)
      fun roots' results => (Symbolic.Present roots' results ∧
        results.map (·.pattern) = exprs.map (·.pattern) ∧ ∀ m ∈ results, m.Sized) ∧
        ∀ ρ, Block.ofEntries (Expr.value ρ) results =
          Block.ofEntries (Expr.value (updated vars values ρ)) exprs := by
  have hinputs : sig.inputs.map Pattern.nnz = values.map Matrix.nnz := h.inputSizes.trans hsizes.symm
  obtain ⟨places, slot, hc⟩ := Tape.ofGraph_compiled h.coherent h.tape
  rw [Symbolic.outputsAt_eq hinputs]
  refine .all fun ρ => ?_
  have hid (ρ : Symbol → K) : meaning (RingHom.id K) ρ = Expr.value ρ := funext (Expr.meaning_id ρ)
  refine .bind (.lift (Symbolic.yields_buffers sig values 0 0)) fun roots₁ b h₁ ⟨i, hz, hb⟩ => ?_
  subst hb
  have hshape := Symbolic.shaped_atSymbols (hinputs : sig.inputSizes = _) 0 0 (.const i Number.zero)
  refine .bind (Tape.returns_replay (Tape.returns_evaluate_free (ρ := ρ)
    (reading_exact trivial trivial trivial trivial trivial) (fun _ _ _ => trivial) hc h.coherent
    (hshape.output.trans h.outputSizes) (reads_updated hc hsizes (hexprs.subset h₁) (hvalues.subset h₁) ρ)))
      fun roots₂ c _ ⟨hheld, himage⟩ => ?_
  rw [hid, hid] at himage
  have hsizes' : c.output.sizes = exprs.map Matrix.nnz := by
    rw [← Block.sizes_image (Expr.value ρ), himage, Block.sizes_ofEntries]
  obtain ⟨hnnz, hsize⟩ := Symbolic.sizes_outputs h hsizes'
  refine .pure ⟨⟨Symbolic.present_matrices hheld _, ?_, Block.sized_on hnnz⟩, ?_⟩
  · rw [← h.outputPatterns]
    exact Block.pattern_on hsize
  · rw [← himage]
    exact Block.ofEntries_on _ hsize

/-- Substitution returns matrices on the patterns of the expressions, which have under every valuation the values of the
expressions under the valuation in which all variables are updated at once. Other symbols may stay, and variables may
be put in the places of others. -/
theorem substitute_correct {n : Nat} (hn : Numbered n (Matrix.entries exprs ++ Matrix.entries values))
    (hvars : DistinctSymbols vars) (hexprs : ∀ m ∈ exprs, m.Sized) (hsized : ∀ m ∈ vars, m.Sized)
    (hsizes : values.map Matrix.nnz = vars.map Matrix.nnz) (o : Options K) :
    ∃ results n', (substitute o exprs vars values).run n = (.ok results, n') ∧
      results.map (·.pattern) = exprs.map (·.pattern) ∧ (∀ m ∈ results, m.Sized) ∧
      Numbered n' (Matrix.entries results) ∧
      ∀ ρ, Block.ofEntries (Expr.value ρ) results =
        Block.ofEntries (Expr.value (updated vars values ρ)) exprs := by
  have hu : Coherent (Matrix.entries exprs) := hn.toCoherent.mono fun e he => .root (List.mem_append_left _ he)
  have hall : Coherent (Matrix.entries (exprs ++ values)) := by rw [Matrix.entries_append]; exact hn.toCoherent
  obtain ⟨t, ht⟩ := Tape.exists_ofGraph hvars exprs o.liveVariables o.sorting
  obtain ⟨sig, hrun, -, hs⟩ := run_ofExpressions hu hsized hexprs {o.named "substitute" with allowFree := true} n ht
    (.inr rfl)
  -- Every symbol that is there may stay.
  have hstock : Stock (fun _ => True) (Order.exprs (Order.depthFirst (exprs ++ values)).toList) (n+1)
      (Matrix.entries exprs ++ Matrix.entries values) := by
    refine ⟨⟨hn.toCoherent, fun e he => Nat.lt_succ_of_lt (hn.below e he)⟩, fun s hs => ?_, fun _ _ _ => trivial⟩
    rwa [(Order.complete_depthFirst hall).mem_exprs, Matrix.entries_append]
  obtain ⟨results, n', roots, hresults, -, hend, ⟨hpresent, hpattern, hsized'⟩, hvalues⟩ :=
    (returns_outputsAt hs hsizes (fun e he => .root (List.mem_append_left _ he))
      fun e he => .root (List.mem_append_right _ he)).exists_run hstock
  refine ⟨results, n', ?_, hpattern, hsized', hend.toNumbered.of_reached hpresent, hvalues⟩
  rw [substitute, wrap, run_bind_ok hrun]
  exact hresults

/-- Two symbols that are exchanged, while a third one stays. -/
theorem substitute_correct_exchange :
    let x : Expr Powered := .symbol ⟨0,"x"⟩
    let y : Expr Powered := .symbol ⟨1,"y"⟩
    let e : Expr Powered := .binary 4 .sub x (.binary 3 .mul y (.symbol ⟨2,"z"⟩))
    Numbered 5 (Matrix.entries #[.scalar e] ++ Matrix.entries #[.column #[y,x]]) ∧
    DistinctSymbols #[.column #[x,y]] ∧ (∀ m ∈ #[Matrix.scalar e], m.Sized) ∧ (∀ m ∈ #[Matrix.column #[x,y]], m.Sized) ∧
    #[Matrix.column #[y,x]].map Matrix.nnz = #[Matrix.column #[x,y]].map Matrix.nnz ∧
    ∃ results n',
      (substitute (.standard 1) #[.scalar e] #[.column #[x,y]] #[.column #[y,x]]).run 5 = (.ok results, n') ∧
      ∀ ρ : Symbol → Powered, Block.ofEntries (Expr.value ρ) results = #[#[ρ ⟨1,"y"⟩ - ρ ⟨0,"x"⟩ * ρ ⟨2,"z"⟩]] := by
  intro x y e
  have hn : Numbered 5 (Matrix.entries #[.scalar e] ++ Matrix.entries #[.column #[y,x]]) := by
    have hsymbols := (Expr.Built.nil (K := Powered) 0).symbol "x" |>.symbol "y" |>.symbol "z"
    have hproduct := hsymbols.apply (show Op.mul.isStructural = false from rfl) (a := y) (b := .symbol ⟨2,"z"⟩)
      (.tail _ (.head _)) (.head _)
    have hdifference := hproduct.apply (show Op.sub.isStructural = false from rfl) (a := x)
      (.tail _ (.tail _ (.tail _ (.head _)))) (.head _)
    refine hdifference.numbered.of_reached fun d hd => .root ?_
    obtain rfl | rfl | rfl : d = e ∨ d = y ∨ d = x := by
      simpa [Matrix.entries, Matrix.scalar, Matrix.column] using hd
    · exact .head _
    · exact .tail _ (.tail _ (.tail _ (.head _)))
    · exact .tail _ (.tail _ (.tail _ (.tail _ (.head _))))
  have hvars : DistinctSymbols #[Matrix.column #[x,y]] := by
    constructor <;> simp [Matrix.entries, Matrix.column, x, y, Expr.id]
  have hexprs : ∀ m ∈ #[Matrix.scalar e], m.Sized := by simp [Matrix.Sized, Matrix.scalar, Pattern.scalar]
  have hsized : ∀ m ∈ #[Matrix.column #[x,y]], m.Sized := by simp [Matrix.Sized, Matrix.column, Pattern.column]
  have hsizes : #[Matrix.column #[y,x]].map Matrix.nnz = #[Matrix.column #[x,y]].map Matrix.nnz := by
    simp [Matrix.nnz, Matrix.column]
  refine ⟨hn, hvars, hexprs, hsized, hsizes, ?_⟩
  obtain ⟨results, n', hrun, -, -, -, hvalues⟩ := substitute_correct hn hvars hexprs hsized
    hsizes (.standard 1)
  refine ⟨results, n', hrun, fun ρ => ?_⟩
  have hx : updated #[.column #[x,y]] #[.column #[y,x]] ρ ⟨0,"x"⟩ = ρ ⟨1,"y"⟩ :=
    updated_variable hvars hsizes (i := 0) (k := 0) (x := x) (Order.mem_targets.mpr ⟨_, rfl, rfl⟩) rfl
      (Order.mem_targets.mpr ⟨_, rfl, rfl⟩)
  have hy : updated #[.column #[x,y]] #[.column #[y,x]] ρ ⟨1,"y"⟩ = ρ ⟨0,"x"⟩ :=
    updated_variable hvars hsizes (i := 0) (k := 1) (x := y) (Order.mem_targets.mpr ⟨_, rfl, rfl⟩) rfl
      (Order.mem_targets.mpr ⟨_, rfl, rfl⟩)
  have hz : updated #[.column #[x,y]] #[.column #[y,x]] ρ ⟨2,"z"⟩ = ρ ⟨2,"z"⟩ :=
    updated_other (by simp [Matrix.entries, Matrix.column, x, y, Expr.id])
  rw [hvalues]
  simp only [Block.ofEntries, Matrix.scalar, List.map_toArray, List.map_cons, List.map_nil, e, x, y, Expr.value, hx, hy,
    hz]
  rfl

end Calculus

end Fluxion
