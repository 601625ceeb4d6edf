import Fluxion.Function.Assemble
import Fluxion.Proofs.Function.Recover
import Fluxion.Proofs.Tape.Sensitivities
import Fluxion.Proofs.Tape.Sparsity

/-!
Sweeps of unit seeds. If no two members of a color meet in a row, the derivative of the row along the seed
of the color is its derivative by the one member that it meets; and so it is for colors of rows.
-/
set_option autoImplicit false

namespace Fluxion

variable {K : Type}

theorem DistinctSymbols.target_unique {inputs : Array (Matrix (Expr K))} (h : DistinctSymbols inputs)
    {i k i' k' : Nat} {d d' : Expr K} (ht : (i,k,d) ∈ Order.targets inputs)
    (ht' : (i',k',d') ∈ Order.targets inputs) (hid : d.id = d'.id) : (i,k,d) = (i',k',d') := by
  have hn := h.nodup
  rw [← Order.targets_map, List.map_map] at hn
  exact List.inj_on_of_nodup_map hn ht ht' hid

variable [CommRing K]

theorem Block.dot_congr {x y z : Block K}
    (h : ∀ i k, x.entry i k * y.entry i k = x.entry i k * z.entry i k) : x.dot y = x.dot z :=
  Finset.sum_congr rfl fun i _ => Finset.sum_congr rfl fun k _ => h i k

variable [Number K]

/-- The derivative of entry `e.1` of `outs` along the unit seed of entry `e.2` of `ins`. -/
def jacobianAt (ρ : Symbol → K) (ins outs : Array (Expr K)) (e : Nat × Nat) : K :=
  match outs[e.1]?, ins[e.2]? with
  | some y, some x => y.derivative ρ x.indicator
  | _, _ => 0

/-- Outside of the pattern all derivatives are zero. -/
theorem jacobianAt_eq_zero (ρ : Symbol → K) {ins outs : Array (Expr K)} {e : Nat × Nat}
    (h : e ∉ (dependence ins outs).entries) : jacobianAt ρ ins outs e = 0 := by
  obtain ⟨r, c⟩ := e
  rw [jacobianAt]
  split
  · next y x hy hx =>
    refine Tape.derivative_eq_zero fun s hs => if_neg fun hid => h ?_
    exact mem_dependence.mpr ⟨y, x, hy, hx, Expr.uses_iff.mpr ⟨s, hs, hid⟩⟩
  · rfl

namespace Assemble

variable [ExactRing K]

omit [CommRing K] [ExactRing K] in
theorem ones_eq (members : Array Nat) (v : Array K) :
    members.foldl (fun v i => v.setIfInBounds i Number.one) v =
      Recover.puts (members.toList.map fun i => (i, some Number.one)) v := by
  rw [Recover.puts, List.foldl_map, ← Array.foldl_toList]
  rfl

omit [CommRing K] [ExactRing K] in
theorem sizes_unitSeed (ns : Array Nat) (slot : Nat) (members : Array Nat) :
    (unitSeed ns slot members : Block K).sizes = ns := by
  have hf := Block.sizes_filled ns (Number.zero : K)
  refine Array.ext_getElem? fun i => ?_
  have hi := congrArg (fun a : Array Nat => a[i]?) hf
  simp only [Block.sizes, Array.getElem?_map] at hi
  simp only [unitSeed, Block.sizes, Array.getElem?_map, Array.getElem?_modify]
  split
  · simpa [Option.map_map, Function.comp_def, ones_eq] using hi
  · exact hi

theorem entry_unitSeed {ns : Array Nat} {i k n : Nat} (hi : ns[i]? = some n) (hk : k < n) (slot : Nat)
    (members : Array Nat) :
    (unitSeed ns slot members : Block K).entry i k = if i = slot ∧ k ∈ members then 1 else 0 := by
  have hfilled : (Block.filled ns (Number.zero : K))[i]? = some (.replicate n 0) := by
    simp [Block.filled, hi]
  have hzero : (Array.replicate n (0 : K))[k]? = some 0 := by simp [hk]
  have hget : (unitSeed ns slot members : Block K).get? i k =
      if slot = i then (Recover.puts (members.toList.map fun i => (i, some (Number.one : K)))
        (.replicate n 0))[k]? else some 0 := by
    simp only [unitSeed, ones_eq, Block.get?, Array.getElem?_modify, hfilled]
    split
    · rfl
    · exact hzero
  rw [Block.entry, hget]
  by_cases hs : i = slot
  · rw [if_pos hs.symm]
    by_cases hm : k ∈ members
    · have hput : (Recover.puts (members.toList.map fun i => (i, some (Number.one : K)))
          (.replicate n 0))[k]? = some 1 :=
        Recover.getElem?_puts (by simpa using hk) ⟨(k, some Number.one), by simpa using hm, rfl⟩
          (by simp)
      rw [hput, if_pos ⟨hs, hm⟩, Option.getD_some]
    · have hne : ∀ w ∈ members.toList.map fun i => (i, some (Number.one : K)), w.1 ≠ k := by
        intro w hw
        obtain ⟨j, hj, rfl⟩ := List.mem_map.mp hw
        rintro rfl
        exact hm (by simpa using hj)
      rw [Recover.getElem?_puts_of_ne hne, hzero, if_neg (fun h => hm h.2), Option.getD_some]
  · rw [if_neg (Ne.symm hs), if_neg (fun h => hs h.1), Option.getD_some]

end Assemble

namespace Tape

variable [ExactRing K] {inputs outputs : Array (Matrix (Expr K))} {m n : Matrix (Expr K)} {iind oind : Nat}
  {ρ : Symbol → K} {members : Array Nat} {r c : Nat} {x y : Expr K}

/-- A color of columns, along a row that meets it in one column. -/
theorem tangent_unitSeed (h : Closed inputs outputs) (hm : inputs[iind]? = some m)
    (hn : outputs[oind]? = some n) (hc : c ∈ members) (hy : n.values[r]? = some y) (hx : m.values[c]? = some x)
    (halone : ∀ d ∈ members, (r,d) ∈ (dependence m.values n.values).entries → d = c) :
    ((tangent inputs outputs ρ (Assemble.unitSeed (inputs.map Matrix.nnz) iind members)).getD oind
      #[])[r]? = some (jacobianAt ρ m.values n.values (r,c)) := by
  have hrow : ((tangent inputs outputs ρ
      (Assemble.unitSeed (inputs.map Matrix.nnz) iind members)).getD oind #[])[r]? =
      some (y.derivative ρ (valuation 0 inputs
        (Assemble.unitSeed (inputs.map Matrix.nnz) iind members))) := by
    simp [tangent, Block.ofEntries, Array.getD_eq_getD_getElem?, hn, hy]
  have hat : jacobianAt ρ m.values n.values (r,c) = y.derivative ρ x.indicator := by
    simp [jacobianAt, hy, hx]
  rw [hrow, hat]
  congr 1
  refine Expr.derivative_congr (fun _ _ => rfl) fun s hs => ?_
  have hyroot : y ∈ Matrix.entries outputs := Matrix.mem_entries.mpr ⟨oind, r, n, hn, hy⟩
  obtain ⟨i, k, ht⟩ := h.target (.trans hs (.root hyroot))
  obtain ⟨m', hm', hk⟩ := Order.mem_targets.mp ht
  have hlt := (Array.getElem?_eq_some_iff.mp hk).1
  have hns : (inputs.map Matrix.nnz)[i]? = some m'.nnz := by simp [hm']
  have hval := valuation_eq h.distinct (0 : K) (Assemble.sizes_unitSeed _ iind members) ht
    (show (Expr.symbol s : Expr K).id = s.id from rfl)
  have hentry := Assemble.entry_unitSeed (K := K) hns hlt iind members
  rw [Block.entry, hval, Option.getD_some] at hentry
  rw [hentry, Expr.indicator]
  -- Among the symbols of this row the seed is one at the symbol of `c` and zero at all others.
  have hiff : (i = iind ∧ k ∈ members) ↔ s.id = x.id := by
    constructor
    · rintro ⟨rfl, hkm⟩
      obtain rfl : m = m' := Option.some.inj (hm.symm.trans hm')
      have hused : (r,k) ∈ (dependence m.values n.values).entries :=
        mem_dependence.mpr ⟨y, _, hy, hk, Expr.uses_iff.mpr ⟨s, hs, rfl⟩⟩
      obtain rfl := halone k hkm hused
      rw [Option.some.inj (hx.symm.trans hk)]
      rfl
    · intro hid
      have hsame := h.distinct.target_unique ht (Order.mem_targets.mpr ⟨m, hm, hx⟩) hid
      simp only [Prod.mk.injEq] at hsame
      exact ⟨hsame.1, hsame.2.1 ▸ hc⟩
  simp only [hiff]

omit [Number K] [ExactRing K] in
theorem entry_unit {i k : Nat} {d : Expr K} (ht : (i,k,d) ∈ Order.targets inputs) (j l : Nat) :
    (unit inputs i k : Block K).entry j l = if i = j ∧ k = l then 1 else 0 := by
  have hz : (Block.filled (inputs.map Matrix.nnz) (0 : K)).sizes = inputs.map Matrix.nnz :=
    Block.sizes_filled _ _
  rw [unit, Block.entry_set (Block.target_isSome hz ht), Block.entry_filled, Block.entry_filled, zero_add,
    sub_zero]

/-- A color of rows, along a column that meets it in one row. -/
theorem gradient_unitSeed (hm : inputs[iind]? = some m) (hn : outputs[oind]? = some n)
    (hr : r ∈ members) (hy : n.values[r]? = some y) (hx : m.values[c]? = some x)
    (halone : ∀ d ∈ members, (d,c) ∈ (dependence m.values n.values).entries → d = r) :
    ((gradient inputs outputs ρ (Assemble.unitSeed (outputs.map Matrix.nnz) oind members)).getD iind
      #[])[c]? = some (jacobianAt ρ m.values n.values (r,c)) := by
  have ht : (oind,r,y) ∈ Order.targets outputs := Order.mem_targets.mpr ⟨n, hn, hy⟩
  have hcol : ((gradient inputs outputs ρ
      (Assemble.unitSeed (outputs.map Matrix.nnz) oind members)).getD iind #[])[c]? =
      some ((Assemble.unitSeed (outputs.map Matrix.nnz) oind members).dot
        (Block.ofEntries (Expr.derivative ρ x.indicator) outputs)) := by
    rw [gradient, Block.ofEntries, Array.getD_eq_getD_getElem?, Array.getElem?_map, hm]
    simp [hx]
  have hat : jacobianAt ρ m.values n.values (r,c) = y.derivative ρ x.indicator := by
    simp [jacobianAt, hy, hx]
  have hsizes : (Block.ofEntries (Expr.derivative ρ x.indicator) outputs).sizes =
      outputs.map Matrix.nnz := Block.sizes_ofEntries _ _
  have hget : (Block.ofEntries (Expr.derivative ρ x.indicator) outputs).entry oind r =
      y.derivative ρ x.indicator := by
    rw [Block.entry, (Block.get?_ofEntries _ _).mpr ⟨y, ht, rfl⟩, Option.getD_some]
  rw [hcol, hat, ← hget, ← dot_unit hsizes ht,
    Block.dot_comm ((Assemble.sizes_unitSeed _ oind members).trans hsizes.symm)]
  congr 1
  -- The other members of the color do not depend on the column.
  refine Block.dot_congr fun i k => ?_
  cases hz : (Block.ofEntries (Expr.derivative ρ x.indicator) outputs).get? i k with
  | none => rw [Block.entry, hz, Option.getD_none, zero_mul, zero_mul]
  | some z =>
    obtain ⟨d, hd, rfl⟩ := (Block.get?_ofEntries _ _).mp hz
    obtain ⟨n', hn', hdk⟩ := Order.mem_targets.mp hd
    have hns : (outputs.map Matrix.nnz)[i]? = some n'.nnz := by simp [hn']
    have hlt := (Array.getElem?_eq_some_iff.mp hdk).1
    rw [Assemble.entry_unitSeed hns hlt, entry_unit ht, Block.entry, hz, Option.getD_some]
    by_cases hik : oind = i ∧ r = k
    · obtain ⟨rfl, rfl⟩ := hik
      simp [hr]
    · rw [if_neg hik]
      split
      · next hmem =>
        obtain ⟨rfl, hk⟩ := hmem
        obtain rfl : n = n' := Option.some.inj (hn.symm.trans hn')
        have hzero : d.derivative ρ x.indicator = 0 := by
          refine derivative_eq_zero fun s hs => if_neg fun hid => hik ⟨rfl, ?_⟩
          exact (halone k hk (mem_dependence.mpr ⟨d, x, hdk, hx, Expr.uses_iff.mpr ⟨s, hs, hid⟩⟩)).symm
        rw [hzero, zero_mul, zero_mul]
      · rfl

end Tape

end Fluxion
