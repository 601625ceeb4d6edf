import Fluxion.Proofs.Coloring.Guarantees
import Fluxion.Proofs.Detect.Mirror
import Fluxion.Proofs.Function.Made

/-!
Blocks that are asked for as symmetric. Over entries the pattern is symmetric for every function, and its colors are
a star coloring. Spread over elements it stays symmetric where the entries of the output are at the same elements as
those of the input; elsewhere rows and columns move apart.
-/
set_option autoImplicit false

namespace Fluxion

/-- A symmetric pattern that is spread by one map stays symmetric. -/
theorem Pattern.isSymmetric_enlarge? {p q : Pattern} {n : Nat} {places : Array Nat} (hp : p.Valid)
    (hs : p.isSymmetric = true) (h : p.enlarge? n n places places = .ok q) : q.Valid ∧ q.isSymmetric = true := by
  have hmade : ofEntries? n n (p.images places places) = .ok q := by
    obtain ⟨-, hrow, hcol⟩ := exists_of_enlarge? h
    rw [enlarge?, if_pos ⟨hrow, hcol⟩, enlarge, if_pos ⟨hrow, hcol⟩] at h
    exact (exists_of_bind_eq_ok h).elim fun _ h => h.2
  refine ⟨valid_of_ofEntries? hmade, isSymmetric_of_ofEntries? hmade fun a b hab => ?_⟩
  obtain ⟨⟨r, c⟩, hrc, he⟩ := Array.mem_map.mp hab
  cases he
  exact Array.mem_map.mpr ⟨(c,r), ((isSymmetric_iff hp).mp hs).2 r c hrc, rfl⟩

variable {K : Type}

/-- The entries of an output are at the same elements as those of an input. -/
def Signature.Coincide (sig : Signature K) (iind oind : Nat) : Prop :=
  ∀ p q, sig.inputs[iind]? = some p → sig.outputs[oind]? = some q → q.numel = p.numel ∧ q.elements = p.elements

namespace Definition

variable {d : Definition K} {iind oind : Nat} {p : Pattern}

theorem inputs_of_checkInput {sig : Signature K} {i : Nat} (h : sig.checkInput i = .ok p) : sig.inputs[i]? = some p := by
  rw [Signature.checkInput] at h
  split at h
  · next hp => exact hp.trans (congrArg some (Except.ok.inj h))
  · cases h

theorem outputs_of_checkOutput {sig : Signature K} {o : Nat} (h : sig.checkOutput o = .ok p) :
    sig.outputs[o]? = some p := by
  rw [Signature.checkOutput] at h
  split at h
  · next hp => exact hp.trans (congrArg some (Except.ok.inj h))
  · cases h

/-- A declared pattern, a dense one, or what the sweeps of a tape find. -/
theorem symmetric_of_detectPattern (hd : ∀ c, d.callable? = some c → c.Patterned)
    (h : d.detectPattern iind oind true = .ok p) : p.Valid ∧ p.isSymmetric = true := by
  rw [detectPattern] at h
  obtain ⟨input, hin, h⟩ := exists_of_bind_eq_ok h
  obtain ⟨output, hout, h⟩ := exists_of_bind_eq_ok h
  obtain ⟨hguard, h⟩ := ok_of_guard h
  have hsquare : input.nnz = output.nnz := by simpa using hguard
  dsimp only at h
  split at h
  · next r hr =>
    obtain ⟨-, h⟩ := ok_of_guard h
    obtain ⟨c, hc, hr⟩ := Option.bind_eq_some_iff.mp hr
    exact Pattern.isSymmetric_symmetrize (hd c hc _ _ _ hr) h
  · split at h
    · obtain rfl := Except.ok.inj h
      rw [hsquare]
      exact ⟨Pattern.valid_dense _ _, Pattern.isSymmetric_dense _⟩
    · next t _ =>
      obtain ⟨-, h⟩ := ok_of_guard h
      have hsides : (t.propagation d.sig.inputSizes d.sig.outputSizes iind oind).nnzIn =
          (t.propagation d.sig.inputSizes d.sig.outputSizes iind oind).nnzOut := by
        simp [Tape.propagation, Signature.inputSizes, Signature.outputSizes, Array.getD_eq_getD_getElem?,
          inputs_of_checkInput hin, outputs_of_checkOutput hout, hsquare]
      exact Detect.jacobian_symmetric hsides (Prod.ext h rfl)

theorem symmetric_of_jacSparsity (hd : ∀ c, d.callable? = some c → c.Patterned) {compact : Bool}
    (hplaces : compact = true ∨ d.sig.Coincide iind oind) (h : d.jacSparsity iind oind compact true = .ok p) :
    p.Valid ∧ p.isSymmetric = true := by
  rw [jacSparsity] at h
  obtain ⟨input, hin, h⟩ := exists_of_bind_eq_ok h
  obtain ⟨output, hout, h⟩ := exists_of_bind_eq_ok h
  obtain ⟨q, hq, h⟩ := exists_of_bind_eq_ok h
  obtain ⟨hvalid, hsymm⟩ := symmetric_of_detectPattern hd hq
  split at h
  · obtain rfl := Except.ok.inj h
    exact ⟨hvalid, hsymm⟩
  · next hcompact =>
    obtain ⟨hnumel, helements⟩ := (hplaces.resolve_left hcompact) input output (inputs_of_checkInput hin)
      (outputs_of_checkOutput hout)
    rw [enlarge, hin, ok_bind, hout, ok_bind] at h
    obtain ⟨_, -, h⟩ := exists_of_bind_eq_ok h
    obtain ⟨_, -, h⟩ := exists_of_bind_eq_ok h
    rw [hnumel, helements] at h
    exact Pattern.isSymmetric_enlarge? hvalid hsymm h

/-- What a function answers to a request for a symmetric block, over entries or where the entries of both sides are
at the same elements: a symmetric pattern, and a star coloring of it. -/
theorem symmetric_blocks (hd : ∀ c, d.callable? = some c → c.Patterned) {compact : Bool}
    (hplaces : compact = true ∨ d.sig.Coincide iind oind) :
    (∀ p, d.jacSparsity iind oind compact true = .ok p → p.Valid ∧ p.isSymmetric = true) ∧
    (∀ side, d.partition iind oind compact true = .ok side → ∃ p s, d.jacSparsity iind oind compact true = .ok p ∧
      side = .forward s ∧ Coloring.StarColoring p s) ∧
    ∀ p, d.jacSparsity iind oind compact true = .ok p → ∃ side, d.partition iind oind compact true = .ok side := by
  have hstar (p : Pattern) (hp : d.jacSparsity iind oind compact true = .ok p) :
      ∃ s, d.partition iind oind compact true = .ok (.forward s) ∧ Coloring.StarColoring p s := by
    obtain ⟨hvalid, hsymm⟩ := symmetric_of_jacSparsity hd hplaces hp
    obtain ⟨s, hs, hcolors⟩ := Coloring.star_starColoring hvalid hsymm
    refine ⟨s, ?_, hcolors⟩
    rw [partition, hp, ok_bind, if_pos rfl, hs]
    rfl
  refine ⟨fun p hp => symmetric_of_jacSparsity hd hplaces hp, fun side hside => ?_, fun p hp => ?_⟩
  · obtain ⟨p, hp, -⟩ := exists_of_bind_eq_ok hside
    obtain ⟨s, hs, hcolors⟩ := hstar p hp
    exact ⟨p, s, hp, Except.ok.inj (hside.symm.trans hs), hcolors⟩
  · obtain ⟨s, hs, -⟩ := hstar p hp
    exact ⟨_, hs⟩

/-- A callable that reports each output to depend on the input before it. -/
def shifted : Definition ℚ :=
  .external ⟨0, .standard 1, #[.column 3], #[.column 3]⟩
    {inputs := #[.column 3], outputs := #[.column 3], evaluate := .ok, jacobian := fun _ _ => none
     jacPattern := fun _ _ => some (.ofEntries 3 3 #[(1,0), (2,1)])}

theorem symmetric_blocks_shifted : (∀ c, shifted.callable? = some c → c.Patterned) ∧ shifted.sig.Coincide 0 0 ∧
    ∃ p s, shifted.jacSparsity 0 0 false true = .ok p ∧ p.isSymmetric = true ∧
      shifted.partition 0 0 false true = .ok (.forward s) ∧ Coloring.StarColoring p s := by
  have hpatterned : ∀ c, shifted.callable? = some c → c.Patterned := by
    rintro c hc i o p hp
    cases hc
    cases hp
    refine Pattern.valid_ofEntries fun r c h => ?_
    simp only [List.mem_toArray, List.mem_cons, Prod.mk.injEq, List.not_mem_nil, or_false] at h
    omega
  have hplaces : shifted.sig.Coincide 0 0 := by
    rintro p q hp hq
    cases hp
    cases hq
    exact ⟨rfl, rfl⟩
  have hrun : (shifted.jacSparsity 0 0 false true).toOption.isSome = true := by cbv
  obtain ⟨hsymmetric, hstar, htotal⟩ := symmetric_blocks hpatterned (.inr hplaces)
  cases hp : shifted.jacSparsity 0 0 false true with
  | error e =>
    rw [hp] at hrun
    cases hrun
  | ok p =>
    obtain ⟨side, hside⟩ := htotal p hp
    obtain ⟨p', s, hp', rfl, hcolors⟩ := hstar side hside
    obtain rfl : p = p' := Except.ok.inj (hp.symm.trans hp')
    exact ⟨hpatterned, hplaces, p, s, rfl, (hsymmetric p hp).2, hside, hcolors⟩

def crossedInputs : Array (Matrix (Expr ℚ)) :=
  #[⟨.ofEntries 3 1 #[(0,0), (1,0)], #[.symbol ⟨0,"x0"⟩, .symbol ⟨1,"x1"⟩]⟩]

def crossedOutputs : Array (Matrix (Expr ℚ)) :=
  #[⟨.ofEntries 3 1 #[(0,0), (2,0)], #[.symbol ⟨1,"x1"⟩, .symbol ⟨0,"x0"⟩]⟩]

/-- One bit for each entry, so that few steps find the pattern. -/
def crossedOptions : Options ℚ := {Options.standard 1 with hierarchicalSparsity := false}

/-- Two entries that change places, the second of them at another element of the output than of the input. -/
def crossed : Definition ℚ :=
  ((Definition.ofExpressions crossedInputs crossedOutputs crossedOptions).run 2).1.toOption.get (by cbv)

/-- Spread over elements, neither is the pattern symmetric nor do neighbours differ in color. -/
theorem not_symmetric_spread :
    (Definition.ofExpressions crossedInputs crossedOutputs crossedOptions).run 2 = (.ok crossed, 3) ∧
    ∃ p s, crossed.jacSparsity 0 0 false true = .ok p ∧ p.isSymmetric = false ∧
      crossed.partition 0 0 false true = .ok (.forward s) ∧ ¬Coloring.StarColoring p s := by
  have hpattern : crossed.jacSparsity 0 0 false true = .ok ⟨3, 3, #[0,1,1,2], #[1,0]⟩ := by cbv
  have hcolors : crossed.partition 0 0 false true = .ok (.forward ⟨2, 3, #[0,2,3], #[0,1,2]⟩) := by cbv
  refine ⟨by cbv, _, _, hpattern, by cbv, hcolors, fun h => h.apart 0 1 0 ⟨?_, by decide⟩ ?_ ?_⟩
  · decide +kernel
  · decide +kernel
  · decide +kernel

end Definition

end Fluxion
