import Fluxion.Proofs.Pattern.Transpose
import Fluxion.Proofs.Tape.Dependence

/-!
The pattern of a block of a tape: an output has an entry for every input symbol that occurs in it.
Propagation through the tape is propagation through this pattern, in both directions.
-/
set_option autoImplicit false

namespace Fluxion

variable {K : Type}

/-- Numbers of the expressions in `ins` that occur in `e` as symbols. -/
def Expr.usedIn (ins : Array (Expr K)) (e : Expr K) : Array Nat :=
  (Array.range ins.size).filter fun c => ins[c]?.any fun d => e.uses d.id

/-- One row for each of `outs`, one column for each of `ins`. -/
def dependence (ins outs : Array (Expr K)) : Pattern := .ofRows ins.size (outs.map (Expr.usedIn ins))

section Pattern

variable {ins outs : Array (Expr K)}

@[simp] theorem nrow_dependence : (dependence ins outs).nrow = outs.size := by
  simp [dependence, Pattern.ofRows]

@[simp] theorem ncol_dependence : (dependence ins outs).ncol = ins.size := rfl

theorem Expr.mem_usedIn {e : Expr K} {c : Nat} :
    c ∈ e.usedIn ins ↔ ∃ d, ins[c]? = some d ∧ e.uses d.id = true := by
  simp only [Expr.usedIn, Array.mem_filter, Array.mem_range]
  constructor
  · rintro ⟨hc, hu⟩
    simp only [Array.getElem?_eq_getElem hc, Option.any_some] at hu
    exact ⟨ins[c], Array.getElem?_eq_getElem hc, hu⟩
  · rintro ⟨d, hd, hu⟩
    exact ⟨(Array.getElem?_eq_some_iff.mp hd).1, by simpa [hd] using hu⟩

theorem row_dependence {r : Nat} {e : Expr K} (he : outs[r]? = some e) :
    (dependence ins outs).row r = e.usedIn ins := by
  obtain ⟨hr, rfl⟩ := Array.getElem?_eq_some_iff.mp he
  have hr' : r < (outs.map (Expr.usedIn ins)).size := by simpa using hr
  rw [dependence, Pattern.row_ofRows ins.size _ hr', Array.getElem_map]

theorem mem_dependence {r c : Nat} :
    (r,c) ∈ (dependence ins outs).entries ↔
      ∃ e d, outs[r]? = some e ∧ ins[c]? = some d ∧ e.uses d.id = true := by
  rw [Pattern.mem_entries, nrow_dependence]
  constructor
  · rintro ⟨hr, hc⟩
    have he : outs[r]? = some outs[r] := Array.getElem?_eq_getElem hr
    rw [row_dependence he] at hc
    obtain ⟨d, hd, hu⟩ := Expr.mem_usedIn.mp hc
    exact ⟨outs[r], d, he, hd, hu⟩
  · rintro ⟨e, d, he, hd, hu⟩
    refine ⟨(Array.getElem?_eq_some_iff.mp he).1, ?_⟩
    rw [row_dependence he]
    exact Expr.mem_usedIn.mpr ⟨d, hd, hu⟩

theorem valid_dependence (ins outs : Array (Expr K)) : (dependence ins outs).Valid := by
  apply Pattern.valid_ofRows
  · intro row hrow c hc
    obtain ⟨e, -, rfl⟩ := Array.mem_map.mp hrow
    obtain ⟨d, hd, -⟩ := Expr.mem_usedIn.mp hc
    exact (Array.getElem?_eq_some_iff.mp hd).1
  · intro row hrow
    obtain ⟨e, -, rfl⟩ := Array.mem_map.mp hrow
    rw [Expr.usedIn, Array.toList_filter, Array.toList_range]
    exact List.pairwise_lt_range.filter _

end Pattern

namespace Block

/-- Words that are zero everywhere but in one place. -/
def seeded (ns : Array Nat) (i : Nat) (seed : Array Word) : Block Word :=
  (filled ns 0).setIfInBounds i seed

variable {ns : Array Nat} {i : Nat}

theorem getD_seeded (hi : i < ns.size) (seed : Array Word) (j k : Nat) :
    ((seeded ns i seed).get? j k).getD 0 = if i = j then seed.getD k 0 else 0 := by
  split
  · next h =>
    subst h
    simp [seeded, get?, filled, hi, Array.getD_eq_getD_getElem?]
  · next h =>
    have hget : (seeded ns i seed).get? j k = (filled ns 0).get? j k := by
      rw [seeded, get?, get?, Array.getElem?_setIfInBounds_ne h]
    rw [hget]
    exact getD_filled ns 0 j k

theorem sizes_seeded {seed : Array Word} (h : seed.size = ns.getD i 0) :
    (seeded ns i seed).sizes = ns := by
  refine Array.ext_getElem? fun j => ?_
  by_cases hij : i = j
  · subst hij
    by_cases hi : i < ns.size
    · simp [seeded, sizes, filled, h, hi, Array.getD_eq_getD_getElem?]
    · simp [seeded, sizes, filled, hi]
  · simp [seeded, sizes, filled, Array.getElem?_setIfInBounds_ne hij, Function.comp_def]

theorem test_valuation {inputs : Array (Matrix (Expr K))} (hd : DistinctSymbols inputs)
    {m : Matrix (Expr K)} (hm : inputs[i]? = some m) {seed : Array Word} (hs : seed.size = m.nnz)
    {s : Symbol} {b : Nat} :
    (Tape.valuation 0 inputs (seeded (inputs.map Matrix.nnz) i seed) s).test b = true ↔
      ∃ c d, m.values[c]? = some d ∧ d.id = s.id ∧ (seed.getD c 0).test b = true := by
  have hi : i < (inputs.map Matrix.nnz).size := by
    simpa using (Array.getElem?_eq_some_iff.mp hm).1
  have hsizes : (seeded (inputs.map Matrix.nnz) i seed).sizes = inputs.map Matrix.nnz :=
    sizes_seeded (by simp [hs, hm, Array.getD_eq_getD_getElem?])
  constructor
  · intro ht
    rw [Tape.valuation] at ht
    split at ht
    · next j c d hfind =>
      rw [getD_seeded hi] at ht
      split at ht
      · next hij =>
        subst hij
        obtain ⟨m', hm', hcd⟩ := Order.mem_targets.mp (List.mem_of_find?_eq_some hfind)
        obtain rfl : m = m' := Option.some.inj (hm.symm.trans hm')
        exact ⟨c, d, hcd, by simpa using List.find?_some hfind, ht⟩
      · simp at ht
    · simp at ht
  · rintro ⟨c, d, hcd, hid, ht⟩
    have hval := Tape.valuation_eq hd 0 hsizes (Order.mem_targets.mpr ⟨m, hm, hcd⟩) hid
    have hg := getD_seeded hi seed i c
    rw [hval, Option.getD_some, if_pos rfl] at hg
    rw [hg]
    exact ht

end Block

namespace Tape

variable [Number K] {inputs outputs : Array (Matrix (Expr K))} {places : Std.HashMap Nat (Nat × Nat)}
  {l : List (Node K)} {slot : Nat → Nat} {t : Tape K} {m n : Matrix (Expr K)} {iind oind : Nat}

theorem sweep_forward (hc : Compiled inputs outputs places l slot t)
    (hu : Expr.Coherent (Matrix.entries outputs))
    (hm : inputs[iind]? = some m) (hn : outputs[oind]? = some n) {seed : Array Word}
    (hs : seed.size = m.nnz) :
    (t.propagateForward (outputs.map Matrix.nnz)
        (Block.seeded (inputs.map Matrix.nnz) iind seed)).reached.getD oind #[] =
      (dependence m.values n.values).push .forward seed := by
  have hsizes : (Block.seeded (inputs.map Matrix.nnz) iind seed).sizes = inputs.map Matrix.nnz :=
    Block.sizes_seeded (by simp [hs, hm, Array.getD_eq_getD_getElem?])
  rw [propagateForward_eq hc hu (brings_valuation hc hsizes), Block.ofEntries]
  have hrow : (outputs.map fun x => x.values.map (Expr.word (valuation 0 inputs
      (Block.seeded (inputs.map Matrix.nnz) iind seed)))).getD oind #[] =
      n.values.map (Expr.word (valuation 0 inputs
        (Block.seeded (inputs.map Matrix.nnz) iind seed))) := by
    simp [Array.getD_eq_getD_getElem?, hn]
  rw [hrow]
  refine Pattern.eq_push (by simp) fun r hr j hj => ?_
  have hrn : r < n.values.size := by simpa using hr
  have he : n.values[r]? = some n.values[r] := Array.getElem?_eq_getElem hrn
  rw [Array.getD_eq_getD_getElem?, Array.getElem?_map, he, Option.map_some, Option.getD_some,
    Expr.test_word hj, row_dependence he]
  constructor
  · rintro ⟨s, hreach, ht⟩
    obtain ⟨c, d, hd, hid, ht⟩ := (Block.test_valuation hc.placed.distinct hm hs).mp ht
    exact ⟨c, Expr.mem_usedIn.mpr ⟨d, hd, Expr.uses_iff.mpr ⟨s, hreach, hid.symm⟩⟩, ht⟩
  · rintro ⟨c, hused, ht⟩
    obtain ⟨d, hd, huse⟩ := Expr.mem_usedIn.mp hused
    obtain ⟨s, hreach, hid⟩ := Expr.uses_iff.mp huse
    exact ⟨s, hreach, (Block.test_valuation hc.placed.distinct hm hs).mpr ⟨c, d, hd, hid.symm, ht⟩⟩

omit [Number K] in
theorem feeds_seeded (hn : outputs[oind]? = some n) {seed : Array Word} {j : Nat} {e : Expr K} :
    Feeds outputs (Block.seeded (outputs.map Matrix.nnz) oind seed) j e ↔
      ∃ r d, n.values[r]? = some d ∧ Expr.Reaches e d ∧ (seed.getD r 0).test j = true := by
  have ho : oind < (outputs.map Matrix.nnz).size := by
    simpa using (Array.getElem?_eq_some_iff.mp hn).1
  constructor
  · rintro ⟨i, r, d, ht, hreach, hbit⟩
    rw [Block.getD_seeded ho] at hbit
    split at hbit
    · next hoi =>
      subst hoi
      obtain ⟨n', hn', hd⟩ := Order.mem_targets.mp ht
      obtain rfl : n = n' := Option.some.inj (hn.symm.trans hn')
      exact ⟨r, d, hd, hreach, hbit⟩
    · simp at hbit
  · rintro ⟨r, d, hd, hreach, hbit⟩
    refine ⟨oind, r, d, Order.mem_targets.mpr ⟨n, hn, hd⟩, hreach, ?_⟩
    rw [Block.getD_seeded ho, if_pos rfl]
    exact hbit

theorem sweep_reverse (hc : Compiled inputs outputs places l slot t)
    (hu : Expr.Coherent (Matrix.entries outputs))
    (hm : inputs[iind]? = some m) (hn : outputs[oind]? = some n) (seed : Array Word) :
    (t.propagateReverse (inputs.map Matrix.nnz)
        (Block.seeded (outputs.map Matrix.nnz) oind seed)).reached.getD iind #[] =
      (dependence m.values n.values).transpose.push .forward seed := by
  have hsizes := (propagateReverse_returning hc hu
    (Block.seeded (outputs.map Matrix.nnz) oind seed)).sizes
  have htest (c : Nat) (d : Expr K) (hd : m.values[c]? = some d) (j : Nat) (hj : j < Word.size) :=
    test_propagateReverse hc hu (Block.seeded (outputs.map Matrix.nnz) oind seed)
      (Order.mem_targets.mpr ⟨m, hm, hd⟩) hj
  generalize (t.propagateReverse (inputs.map Matrix.nnz)
    (Block.seeded (outputs.map Matrix.nnz) oind seed)).reached = reached at hsizes htest ⊢
  have hsize : (reached.getD iind #[]).size = m.values.size := by
    have h := congrArg (fun ns : Array Nat => ns.getD iind 0) hsizes
    simp only [Block.sizes, Array.getD_eq_getD_getElem?, Array.getElem?_map, hm] at h ⊢
    cases hr : reached[iind]? <;> simp_all [Matrix.nnz]
  have hget (c : Nat) : (reached.getD iind #[]).getD c 0 = (reached.get? iind c).getD 0 := by
    cases hr : reached[iind]? <;> simp [Block.get?, Array.getD_eq_getD_getElem?, hr]
  -- An input entry gets a bit exactly from the outputs that use its symbol.
  refine Pattern.eq_push (hsize.trans (by simp)) fun c hcol j hj => ?_
  have hcm : c < m.values.size := by simpa using hcol
  have hd : m.values[c]? = some m.values[c] := Array.getElem?_eq_getElem hcm
  rw [hget, htest c _ hd j hj]
  constructor
  · rintro ⟨y, hid, hfeeds⟩
    obtain ⟨r, e, he, hreach, hbit⟩ := (feeds_seeded hn).mp hfeeds
    have huse : e.uses m.values[c].id = true := Expr.uses_iff.mpr ⟨y, hreach, hid⟩
    exact ⟨r, ((valid_dependence m.values n.values).mem_row_transpose hcm).mpr (mem_dependence.mpr ⟨e, _, he, hd, huse⟩), hbit⟩
  · rintro ⟨r, hr, hbit⟩
    obtain ⟨e, d, he, hd', huse⟩ := mem_dependence.mp (((valid_dependence m.values n.values).mem_row_transpose hcm).mp hr)
    obtain rfl : m.values[c] = d := Option.some.inj (hd.symm.trans hd')
    obtain ⟨y, hreach, hid⟩ := Expr.uses_iff.mp huse
    exact ⟨y, hid, (feeds_seeded hn).mpr ⟨r, e, he, hreach, hbit⟩⟩

/-- Both passes propagate words exactly through the pattern of the block. -/
theorem propagation_through (hc : Compiled inputs outputs places l slot t)
    (hu : Expr.Coherent (Matrix.entries outputs))
    (hm : inputs[iind]? = some m) (hn : outputs[oind]? = some n) :
    (t.propagation (inputs.map Matrix.nnz) (outputs.map Matrix.nnz) iind oind).Through
      (dependence m.values n.values) := by
  have hin : (t.propagation (inputs.map Matrix.nnz) (outputs.map Matrix.nnz) iind oind).nnzIn =
      m.nnz := by
    simp [propagation, hm, Array.getD_eq_getD_getElem?]
  have hout : (t.propagation (inputs.map Matrix.nnz) (outputs.map Matrix.nnz) iind oind).nnzOut =
      n.nnz := by
    simp [propagation, hn, Array.getD_eq_getD_getElem?]
  refine ⟨hin, hout.trans nrow_dependence.symm, fun dir seed st hs => ?_⟩
  cases dir with
  | forward => exact sweep_forward hc hu hm hn (hs.trans hin)
  | reverse =>
    rw [Pattern.push_eq]
    exact sweep_reverse hc hu hm hn seed

/-- Every store is into an entry of the outputs. -/
theorem storesWithin_outputs (hc : Compiled inputs outputs places l slot t)
    (hu : Expr.Coherent (Matrix.entries outputs)) :
    t.storesWithin (outputs.map Matrix.nnz) = true := by
  have hels (free : Nat) : ∀ n ∈ l, (elementAt places slot free n).op ≠ .output ∨
      (elementAt places slot free n).right <
        (outputs.map Matrix.nnz).getD (elementAt places slot free n).result 0 := by
    intro n hn
    cases n with
    | expr e => exact .inl (op_elementAt_expr places slot free (hc.complete.proper hu _ hn))
    | store i k id =>
      obtain ⟨l₁, l₂, hl⟩ := List.append_of_mem hn
      obtain ⟨e, -, ht, -⟩ := hc.complete.store hu hl
      obtain ⟨m, hm, hk⟩ := Order.mem_targets.mp ht
      have hlt := (Array.getElem?_eq_some_iff.mp hk).1
      refine .inr ?_
      simpa [elementAt, Array.getD_eq_getD_getElem?, hm, Matrix.nnz] using hlt
  rw [storesWithin, Array.all_eq_true']
  intro el hel
  rw [← Array.mem_toList_iff, hc.elements] at hel
  obtain ⟨p, hp⟩ := List.mem_iff_getElem?.mp hel
  rw [layout_getElem?] at hp
  obtain ⟨n, hn, rfl⟩ := Option.map_eq_some_iff.mp hp
  have h := hels (freeAmong places (Order.exprs (l.take p))).length n (List.mem_of_getElem? hn)
  simpa using h

end Tape

end Fluxion
