import Fluxion.Proofs.Function.Assemble
import Fluxion.Proofs.Function.SymmetricRecovery

/-!
Recovery from one sweep for each color. Along a color of columns a row has the sum of its derivatives by the
members. Where no two of them meet, or where a star coloring lets one side or the other be read off, all
derivatives are recovered.
-/
set_option autoImplicit false

namespace Fluxion

variable {K : Type} [CommRing K] [Number K]

namespace Expr

variable {ρ : Symbol → K}

theorem derivative_add (e : Expr K) (δ δ' : Symbol → K) :
    e.derivative ρ (fun s => δ s + δ' s) = e.derivative ρ δ + e.derivative ρ δ' := by
  induction e with
  | symbol s => rfl
  | const i v => exact (add_zero 0).symm
  | unary i op a ih =>
    rw [derivative, derivative, derivative, ih, mul_add]
  | binary i op a b iha ihb =>
    rw [derivative, derivative, derivative, iha, ihb]
    ring

theorem derivative_sum {ι : Type} (e : Expr K) (xs : List ι) (δ : ι → Symbol → K) :
    e.derivative ρ (fun s => (xs.map fun i => δ i s).sum) = (xs.map fun i => e.derivative ρ (δ i)).sum := by
  induction xs with
  | nil => exact Tape.derivative_eq_zero fun _ _ => rfl
  | cons i xs ih =>
    simp only [List.map_cons, List.sum_cons]
    rw [derivative_add, ih]

/-- The direction of one entry. -/
def direction (ins : Array (Expr K)) (c : Nat) (s : Symbol) : K :=
  ins[c]?.elim 0 fun x => x.indicator s

theorem jacobianAt_eq {ins outs : Array (Expr K)} {r : Nat} {y : Expr K} (hy : outs[r]? = some y) (c : Nat) :
    jacobianAt ρ ins outs (r,c) = y.derivative ρ (direction ins c) := by
  cases hx : ins[c]? with
  | none =>
    have hzero : y.derivative ρ (direction ins c) = 0 := Tape.derivative_eq_zero fun s _ => by
      simp [direction, hx]
    simp [jacobianAt, hy, hx, hzero]
  | some x =>
    have hdirection : direction ins c = x.indicator := funext fun s => by simp [direction, hx]
    simp [jacobianAt, hy, hx, hdirection]

end Expr

namespace Tape

variable [ExactRing K] {inputs outputs : Array (Matrix (Expr K))} {m n : Matrix (Expr K)} {iind oind : Nat}
  {ρ : Symbol → K} {members : Array Nat}

/-- The seed of a color is the sum of the directions of its members. -/
theorem valuation_unitSeed (h : Closed inputs outputs) (hm : inputs[iind]? = some m)
    (hnodup : members.toList.Nodup) {s : Symbol}
    (hs : Expr.ReachedFrom (Matrix.entries outputs) (.symbol s)) :
    valuation 0 inputs (Assemble.unitSeed (inputs.map Matrix.nnz) iind members) s =
      (members.toList.map fun c => Expr.direction m.values c s).sum := by
  obtain ⟨i, k, ht⟩ := h.target hs
  obtain ⟨m', hm', hk⟩ := Order.mem_targets.mp ht
  have hlt := (Array.getElem?_eq_some_iff.mp hk).1
  have hns : (inputs.map Matrix.nnz)[i]? = some m'.nnz := by simp [hm']
  have hval := valuation_eq h.distinct (0 : K) (Assemble.sizes_unitSeed _ iind members) ht
    (show (Expr.symbol s : Expr K).id = s.id from rfl)
  have hentry := Assemble.entry_unitSeed (K := K) hns hlt iind members
  rw [Block.entry, hval, Option.getD_some] at hentry
  -- Only the place of the symbol itself has a direction that is not zero.
  have hdirection (c : Nat) : Expr.direction m.values c s = if i = iind ∧ k = c then 1 else 0 := by
    cases hx : m.values[c]? with
    | none =>
      have hne : ¬(i = iind ∧ k = c) := by
        rintro ⟨rfl, rfl⟩
        obtain rfl : m = m' := Option.some.inj (hm.symm.trans hm')
        rw [hk] at hx
        cases hx
      simp [Expr.direction, hx, hne]
    | some x =>
      have hiff : s.id = x.id ↔ i = iind ∧ k = c := by
        constructor
        · intro hid
          have hsame := h.distinct.target_unique ht (Order.mem_targets.mpr ⟨m, hm, hx⟩) hid
          simp only [Prod.mk.injEq] at hsame
          exact ⟨hsame.1, hsame.2.1⟩
        · rintro ⟨rfl, rfl⟩
          obtain rfl : m = m' := Option.some.inj (hm.symm.trans hm')
          obtain rfl := Option.some.inj (hx.symm.trans hk)
          rfl
      simp [Expr.direction, hx, Expr.indicator, hiff]
  rw [hentry]
  simp only [hdirection]
  by_cases hi : i = iind
  · have hsum : (members.toList.map fun c => if k = c then (1 : K) else 0).sum =
        members.toList.count k • 1 :=
      List.sum_map_eq_nsmul_single k _ (fun c hck _ => if_neg hck.symm) |>.trans (by rw [if_pos rfl])
    simp only [hi, true_and, hsum, hnodup.count, Array.mem_toList_iff]
    split <;> simp
  · simp [hi]

end Tape

namespace Symbolic

variable [ExactRing K] {inputs outputs : Array (Matrix (Expr K))} {iind oind : Nat} {p : Pattern}
  {side : Partition} {symmetric : Bool} {m n : Matrix (Expr K)} {ρ : Symbol → K}

/-- What is recovered from the sweeps of all colors. -/
def recovered (inputs outputs : Array (Matrix (Expr K))) (ρ : Symbol → K) (p : Pattern) (side : Partition)
    (iind oind : Nat) (symmetric : Bool) : Array K :=
  ((List.range side.colors).foldl (fun s k => (Assemble.Job.of iind oind p side symmetric).recover k
    (Assemble.sweepOf inputs outputs ρ side iind oind k) s) (.replicate p.nrow 0, .replicate p.nnz 0)).2

/-- A sweep along columns has sums in its rows. -/
theorem sweepOf_forward (h : Tape.Closed inputs outputs) (hm : inputs[iind]? = some m)
    (hn : outputs[oind]? = some n) {s : Pattern} {k : Nat} (hnodup : (s.row k).toList.Nodup) :
    Assemble.sweepOf inputs outputs ρ (.forward s) iind oind k =
      Recover.rowSums (fun r c => jacobianAt ρ m.values n.values (r,c)) n.values.size (s.row k) := by
  have hcolumn : Assemble.sweepOf inputs outputs ρ (.forward s) iind oind k =
      n.values.map (Expr.derivative ρ (Tape.valuation 0 inputs
        (Assemble.unitSeed (inputs.map Matrix.nnz) iind (s.row k)))) := by
    simp [Assemble.sweepOf, Tape.tangent, Block.ofEntries, Array.getD_eq_getD_getElem?, hn]
  rw [hcolumn]
  refine Array.ext (by simp [Recover.rowSums]) fun r hr _ => ?_
  rw [Array.size_map] at hr
  have hy : n.values[r]? = some n.values[r] := Array.getElem?_eq_getElem hr
  have hroot : n.values[r] ∈ Matrix.entries outputs := Matrix.mem_entries.mpr ⟨oind, r, n, hn, hy⟩
  simp only [Recover.rowSums, Array.getElem_map, Array.getElem_range, Expr.jacobianAt_eq hy]
  rw [← Expr.derivative_sum]
  exact Expr.derivative_congr (fun _ _ => rfl) fun s hs =>
    Tape.valuation_unitSeed h hm hnodup (.trans hs (.root hroot))

/-- Without symmetry, sweeps along a coloring of the columns or of the rows give the block. -/
theorem recovered_eq (h : Tape.Closed inputs outputs) (hm : inputs[iind]? = some m)
    (hn : outputs[oind]? = some n) (hside : side.Fills (dependence m.values n.values) p) :
    recovered inputs outputs ρ p side iind oind false =
      p.entries.map (jacobianAt ρ m.values n.values) := by
  have hstart : Assemble.Recovered p side (jacobianAt ρ m.values n.values) 0
      ((Array.replicate p.nrow 0, Array.replicate p.nnz (0 : K)) : Array Nat × Array K).2 :=
    ⟨by simp, fun _ _ _ ⟨k, hk, _⟩ => absurd hk (Nat.not_lt_zero k)⟩
  have hend : Assemble.Recovered p side (jacobianAt ρ m.values n.values) (0+side.colors)
      ((List.range side.colors).foldl (fun s k => (Assemble.Job.of iind oind p side false).recover (0+k)
        (Assemble.sweepOf inputs outputs ρ side iind oind k) s) (.replicate p.nrow 0, .replicate p.nnz 0)).2 :=
    hstart.foldl hside (by simp) fun d hd e he ht => by
      rw [Nat.zero_add] at ht
      exact Assemble.getElem?_sweepOf h hm hn hside hd he ht
  simp only [Nat.zero_add] at hend
  exact hend.finish hside

/-- A symmetric block is given by sweeps along a star coloring of a symmetric pattern, if all entries outside
of the pattern are zero. -/
theorem recovered_symmetric_eq (h : Tape.Closed inputs outputs) (hm : inputs[iind]? = some m)
    (hn : outputs[oind]? = some n) {s : Pattern} (hp : p.Valid) (hsquare : p.nrow = p.ncol)
    (hrows : p.nrow = n.values.size) (hsymm : ∀ r c, (r,c) ∈ p.entries → (c,r) ∈ p.entries)
    (hs : Coloring.Star p s)
    (hM : ∀ r c, jacobianAt ρ m.values n.values (r,c) = jacobianAt ρ m.values n.values (c,r))
    (hzero : ∀ r c, (r,c) ∉ p.entries → jacobianAt ρ m.values n.values (r,c) = 0) :
    recovered inputs outputs ρ p (.forward s) iind oind true =
      p.entries.map (jacobianAt ρ m.values n.values) := by
  have hstart : Recover.Filled p s (jacobianAt ρ m.values n.values) [] (.replicate p.nnz 0) :=
    ⟨by simp, fun _ _ _ _ _ hl => by simp at hl⟩
  have hlt (l : Nat) (hl : l ∈ List.range s.nrow) : l < s.nrow := List.mem_range.mp hl
  have hsens : ∀ l ∈ List.range s.nrow, ∀ r c, (r,c) ∈ p.entries → Recover.Gives p s l r c →
      (Assemble.sweepOf inputs outputs ρ (.forward s) iind oind l)[r]? =
        some (jacobianAt ρ m.values n.values (r,c)) := by
    intro l hl r c hrc hg
    rw [sweepOf_forward h hm hn ((hs.valid.strict l (hlt l hl)).imp Nat.ne_of_lt), ← hrows]
    exact Recover.getElem?_rowSums hs.valid hzero (hlt l hl) (hp.entry_lt hrc).1 hg
  obtain ⟨values, hrun, hfilled⟩ := hstart.foldl hp hs hsymm hM hlt hsens
  simp only [recovered, Assemble.recover_symmetric, Partition.colors]
  exact (congrArg Prod.snd hrun).trans (hfilled.eq_map hp hs hsquare fun l hl => by simpa using hl)

end Symbolic

end Fluxion
