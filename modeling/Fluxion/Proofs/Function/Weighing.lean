import Mathlib.Data.Rat.Init
import Fluxion.Function.Sparsity
import Fluxion.Proofs.Detect.Finish

/-!
Weighing forward sweeps against reverse ones. The costs are small numbers, and only their product with the penalty
may pass the bound of a word. It is then less than it should be, so a sweep that goes forward is right to do so, and a
sweep that goes in reverse may be wrong.
-/
set_option autoImplicit false

namespace Fluxion

/-- No forward sweep is made against the weights, and where the product is one word no reverse sweep is either. -/
theorem forwardWins_iff {penalty f r : Nat} :
    (forwardWins penalty f r = true → f ≤ penalty*r) ∧
      (penalty*r < UInt64.size → (forwardWins penalty f r = true ↔ f ≤ penalty*r)) := by
  unfold forwardWins
  refine ⟨fun h => ?_, fun h => ?_⟩
  · exact (of_decide_eq_true h).trans (Nat.mod_le _ _)
  · rw [Count.wrap_of_lt h, decide_eq_true_iff]

namespace Detect

variable {σ : Type} {s : Propagation σ}

/-- There are no more colors than blocks, so a sweep for each index would cost at most twice the indices. -/
theorem sweepCost_le {q : Pattern} {bounds : List Nat} {n k : Nat} (hq : q.ncol+1 = bounds.length) (hn : 0 < n)
    (hb : bounds = subdivide^[k] [0,n]) : sweepCost (Coloring.columns q) bounds ≤ 2*n := by
  have hall := length_mul_maxBlock_le hn k
  have hcolors := (Coloring.seeds_columns q).nrow_le
  rw [← hb] at hall
  exact (Nat.mul_le_mul (by omega) (Nat.min_le_left _ _)).trans hall

theorem roundDirection_automatic (hf : s.can .forward = true) (hr : s.can .reverse = true) (penalty : Nat) (g : Grid) :
    roundDirection s .automatic penalty g = .forward ↔ forwardWins penalty
      (sweepCost (Coloring.columns g.pattern) g.cols) (sweepCost (Coloring.rows g.pattern) g.rows) = true := by
  simp only [roundDirection, Propagation.choose, hf, hr]
  split
  · next h => simp [h]
  · next h => simp [h]

end Detect

/-- What the decision about a partition comes to. -/
theorem Definition.partition_automatic {K : Type} {d : Definition K} (hauto : d.sig.options.adMode = .automatic)
    {iind oind : Nat} {compact : Bool} {side : Partition} (h : d.partition iind oind compact false = .ok side) :
    ∃ p, d.jacSparsity iind oind compact false = .ok p ∧
      (forwardWins d.sig.options.adjointPenalty (Coloring.columns p).nrow (Coloring.rows p).nrow = true ∧
          side = .forward (Coloring.columns p) ∨
        ¬forwardWins d.sig.options.adjointPenalty (Coloring.columns p).nrow (Coloring.rows p).nrow = true ∧
          side = .adjoint (Coloring.rows p)) := by
  rw [partition] at h
  obtain ⟨p, hp, h⟩ := exists_of_bind_eq_ok h
  refine ⟨p, hp, ?_⟩
  have hchoice : (if forwardWins d.sig.options.adjointPenalty (Coloring.columns p).nrow (Coloring.rows p).nrow then
      .ok (.forward (Coloring.columns p)) else .ok (.adjoint (Coloring.rows p)) : Except Fault Partition) =
        .ok side := by
    cases compact with
    | true =>
      simp only [Bool.false_eq_true, if_false, Bool.not_true, hauto] at h
      exact h
    | false =>
      simp only [Bool.false_eq_true, if_false, Bool.not_false, if_true, hauto] at h
      obtain ⟨-, -, h⟩ := exists_of_bind_eq_ok h
      exact h
  split at hchoice
  · next hw => exact .inl ⟨hw, (Except.ok.inj hchoice).symm⟩
  · next hw => exact .inr ⟨hw, (Except.ok.inj hchoice).symm⟩

open Detect

/-- Both decisions between forward and reverse sweeps, that of a partition and that of a round of detection. A decision
for forward sweeps is right. One for reverse sweeps is right too, wherever the product of the penalty and the reverse
cost is less than 2^64. The costs themselves are at most twice the entries of a side. -/
theorem directions_weighed {K σ : Type} (d : Definition K) (hauto : d.sig.options.adMode = .automatic)
    (s : Propagation σ) (hf : s.can .forward = true) (hr : s.can .reverse = true) (hin : 0 < s.nnzIn)
    (hout : 0 < s.nnzOut) (penalty : Nat) (st : σ) :
    (∀ iind oind compact side, d.partition iind oind compact false = .ok side →
      ∃ p, d.jacSparsity iind oind compact false = .ok p ∧
        (side = .forward (Coloring.columns p) ∨ side = .adjoint (Coloring.rows p)) ∧
        (side.direction = .forward →
          (Coloring.columns p).nrow ≤ d.sig.options.adjointPenalty * (Coloring.rows p).nrow) ∧
        (d.sig.options.adjointPenalty * (Coloring.rows p).nrow < UInt64.size → (side.direction = .forward ↔
          (Coloring.columns p).nrow ≤ d.sig.options.adjointPenalty * (Coloring.rows p).nrow))) ∧
    ∀ k, ∃ g st', (rounds (fun g => refineGrid s (roundDirection s .automatic penalty g) g) k
        (.start s.nnzOut s.nnzIn)).run st = (.ok g, st') ∧
      ∃ f r, f = sweepCost (Coloring.columns g.pattern) g.cols ∧ r = sweepCost (Coloring.rows g.pattern) g.rows ∧
        f ≤ 2*s.nnzIn ∧ r ≤ 2*s.nnzOut ∧
        (roundDirection s .automatic penalty g = .forward → f ≤ penalty*r) ∧
        (penalty*r < UInt64.size → (roundDirection s .automatic penalty g = .forward ↔ f ≤ penalty*r)) := by
  constructor
  · intro iind oind compact side h
    obtain ⟨p, hp, ⟨hw, rfl⟩ | ⟨hw, rfl⟩⟩ := Definition.partition_automatic hauto h
    · have hle := forwardWins_iff.1 hw
      exact ⟨p, hp, .inl rfl, fun _ => hle, fun _ => iff_of_true rfl hle⟩
    · have hback : Partition.direction (.adjoint (Coloring.rows p)) ≠ .forward := by simp [Partition.direction]
      refine ⟨p, hp, .inr rfl, fun hside => absurd hside hback, fun hlt => iff_of_false hback fun hle => ?_⟩
      exact hw ((forwardWins_iff.2 hlt).mpr hle)
  · intro k
    obtain ⟨q, st', hrun, hover⟩ := rounds_run (splits_refineGrid s (roundDirection s .automatic penalty))
      (over_start hout hin) k st
    refine ⟨_, st', hrun, _, _, rfl, rfl, ?_, ?_, ?_, ?_⟩
    · exact sweepCost_le hover.ncol hin rfl
    · exact sweepCost_le hover.nrow hout rfl
    · rw [roundDirection_automatic hf hr]
      exact forwardWins_iff.1
    · rw [roundDirection_automatic hf hr]
      exact forwardWins_iff.2

/-- A function of two numbers whose block is dense as far as is known. -/
def opaquePair (penalty : Nat) : Definition ℚ :=
  .external ⟨0, {Options.standard 1 with adjointPenalty := penalty}, #[.dense 2 1], #[.dense 2 1]⟩
    ⟨#[.dense 2 1], #[.dense 2 1], fun x => .ok x, fun _ _ => none, fun _ _ => none⟩

theorem colors_pair : (Coloring.columns (.dense 2 2)).nrow = 2 ∧ (Coloring.rows (.dense 2 2)).nrow = 2 := by
  constructor <;> cbv

theorem costs_pair :
    sweepCost (Coloring.columns (.dense 1 1)) [0,2] = 2 ∧ sweepCost (Coloring.rows (.dense 1 1)) [0,2] = 2 := by
  constructor <;> cbv

theorem jacSparsity_opaquePair (penalty : Nat) :
    (opaquePair penalty).jacSparsity 0 0 true false = .ok (.dense 2 2) := by
  have hunfold : (opaquePair penalty).jacSparsity 0 0 true false =
      .ok (.dense (Pattern.dense 2 1).nnz (Pattern.dense 2 1).nnz) := rfl
  rw [hunfold, Pattern.nnz_dense]

theorem partition_opaquePair (penalty : Nat) : (opaquePair penalty).partition 0 0 true false =
    if forwardWins penalty 2 2 then .ok (.forward (Coloring.columns (.dense 2 2)))
    else .ok (.adjoint (Coloring.rows (.dense 2 2))) := by
  have hchoice : (opaquePair penalty).partition 0 0 true false =
      if forwardWins penalty (Coloring.columns (.dense 2 2)).nrow (Coloring.rows (.dense 2 2)).nrow then
        .ok (.forward (Coloring.columns (.dense 2 2)))
      else .ok (.adjoint (Coloring.rows (.dense 2 2))) := by
    rw [Definition.partition, jacSparsity_opaquePair, ok_bind]
    rfl
  rw [hchoice, colors_pair.1, colors_pair.2]

theorem directions_weighed_pair :
    ((opaquePair 2).sig.options.adMode = .automatic ∧ (floodSweeps 2 2).can .forward = true ∧
      (floodSweeps 2 2).can .reverse = true ∧ 0 < (floodSweeps 2 2).nnzIn ∧ 0 < (floodSweeps 2 2).nnzOut) ∧
    (∃ side, (opaquePair 2).partition 0 0 true false = .ok side ∧ side.direction = .forward) ∧
    roundDirection (floodSweeps 2 2) .automatic 2 (.start 2 2) = .forward := by
  have hpattern := jacSparsity_opaquePair 2
  obtain ⟨hpartition, hrounds⟩ := directions_weighed (opaquePair 2) rfl (floodSweeps 2 2) rfl rfl (by decide)
    (by decide) 2 ()
  refine ⟨⟨rfl, rfl, rfl, by decide, by decide⟩, ?_, ?_⟩
  · obtain ⟨side, hside⟩ : ∃ side, (opaquePair 2).partition 0 0 true false = .ok side :=
      ⟨_, (partition_opaquePair 2).trans (if_pos (by decide))⟩
    obtain ⟨p, hp, -, -, hiff⟩ := hpartition 0 0 true side hside
    obtain rfl := Except.ok.inj (hpattern.symm.trans hp)
    rw [colors_pair.1, colors_pair.2] at hiff
    exact ⟨side, hside, (hiff (by decide)).mpr (by decide)⟩
  · obtain ⟨g, st', hrun, f, r, hf, hr, -, -, -, hiff⟩ := hrounds 0
    obtain rfl : Grid.start 2 2 = g := Except.ok.inj (congrArg Prod.fst hrun)
    obtain rfl := hf.trans costs_pair.1
    obtain rfl := hr.trans costs_pair.2
    exact (hiff (by decide)).mpr (by decide)

/-- With a penalty of half a word both products are zero, and both decisions are for reverse sweeps although the
forward ones cost less by far. -/
theorem directions_not_weighed :
    9223372036854775808 < UInt64.size ∧
    (roundDirection (floodSweeps 2 2) .automatic 9223372036854775808 (.start 2 2) = .reverse ∧
      sweepCost (Coloring.columns (.dense 1 1)) [0,2] ≤
        9223372036854775808 * sweepCost (Coloring.rows (.dense 1 1)) [0,2]) ∧
    ((opaquePair 9223372036854775808).partition 0 0 true false = .ok (.adjoint (Coloring.rows (.dense 2 2))) ∧
      (Coloring.columns (.dense 2 2)).nrow ≤ 9223372036854775808 * (Coloring.rows (.dense 2 2)).nrow) := by
  refine ⟨by decide, ⟨by cbv, by rw [costs_pair.1, costs_pair.2]; decide⟩, ?_, by rw [colors_pair.1, colors_pair.2]; decide⟩
  exact (partition_opaquePair _).trans (if_neg (by decide))

end Fluxion
