import Mathlib.Order.Bounds.Basic
import Fluxion.Proofs.Detect.BlockSize
import Fluxion.Proofs.Detect.Splits

/-!
Refinement comes to an end, whatever the sweeps answer. A round divides the size of the largest block on both sides,
so the number of rounds is known from the two sizes alone.
-/
set_option autoImplicit false

namespace Fluxion.Detect

variable {σ : Type}

theorem Grid.Over.isFine {nrow ncol : Nat} {g : Grid} (h : g.Over nrow ncol) :
    g.isFine nrow ncol = true ↔ maxBlock g.rows ≤ 1 ∧ maxBlock g.cols ≤ 1 := by
  rw [← h.rows.length_eq_iff, ← h.cols.length_eq_iff]
  simp [Grid.isFine]

section Loop

variable {P : Grid → Prop} {round : Grid → ExceptT Fault (StateM σ) Grid} {nrow ncol : Nat} {g : Grid}

/-- The given number of rounds, whatever they leave. -/
def rounds (round : Grid → ExceptT Fault (StateM σ) Grid) : Nat → Grid → ExceptT Fault (StateM σ) Grid
  | 0, g => pure g
  | k+1, g => do rounds round k (← round g)

/-- Rounds until the grid is fine. -/
def untilFine (round : Grid → ExceptT Fault (StateM σ) Grid) (nrow ncol : Nat) :
    Nat → Grid → ExceptT Fault (StateM σ) Grid
  | 0, g => pure g
  | fuel+1, g => do
    let g ← round g
    if g.isFine nrow ncol then return g else untilFine round nrow ncol fuel g

theorem rounds_run (h : Splits P round) (hg : P g) (k : Nat) (st : σ) :
    ∃ q st', (rounds round k g).run st = (.ok ⟨subdivide^[k] g.rows, subdivide^[k] g.cols, q⟩, st') ∧
      P ⟨subdivide^[k] g.rows, subdivide^[k] g.cols, q⟩ := by
  induction k generalizing g st with
  | zero => exact ⟨g.pattern, st, rfl, hg⟩
  | succ k ih =>
    obtain ⟨q, st', hrun, hq⟩ := h g hg st
    obtain ⟨q', st'', hrun', hq'⟩ := ih hq st'
    rw [rounds, run_bind_ok hrun]
    exact ⟨q', st'', hrun', hq'⟩

/-- Rounds until the grid is fine are as many as it takes for the largest blocks to become single indices. -/
theorem untilFine_run (h : Splits P round) (hover : ∀ g, P g → g.Over nrow ncol) (hg : P g) {k fuel : Nat}
    (hfuel : k < fuel)
    (hlast : shrink^[k+1] (maxBlock g.rows) ≤ 1 ∧ shrink^[k+1] (maxBlock g.cols) ≤ 1)
    (hfirst : ∀ j < k, ¬(shrink^[j+1] (maxBlock g.rows) ≤ 1 ∧ shrink^[j+1] (maxBlock g.cols) ≤ 1)) (st : σ) :
    (untilFine round nrow ncol fuel g).run st = (rounds round (k+1) g).run st := by
  induction k generalizing g fuel st with
  | zero =>
    obtain ⟨fuel, rfl⟩ := Nat.exists_eq_succ_of_ne_zero (Nat.ne_of_gt hfuel)
    obtain ⟨q, st', hrun, hq⟩ := h g hg st
    have hfine := (hover _ hq).isFine.mpr (by
      rw [maxBlock_subdivide (hover g hg).rows.strict, maxBlock_subdivide (hover g hg).cols.strict]
      exact hlast)
    rw [untilFine, rounds, run_bind_ok hrun, run_bind_ok hrun, if_pos hfine]
    rfl
  | succ k ih =>
    obtain ⟨fuel, rfl⟩ := Nat.exists_eq_succ_of_ne_zero (Nat.ne_zero_of_lt hfuel)
    obtain ⟨q, st', hrun, hq⟩ := h g hg st
    have hrows := maxBlock_subdivide (hover g hg).rows.strict
    have hcols := maxBlock_subdivide (hover g hg).cols.strict
    have hcoarse := mt (hover _ hq).isFine.mp (by
      rw [hrows, hcols]
      exact hfirst 0 (Nat.succ_pos k))
    rw [untilFine, rounds, run_bind_ok hrun, run_bind_ok hrun, if_neg hcoarse]
    refine ih hq (by omega) ?_ (fun j hj => ?_) st'
    · rw [hrows, hcols]
      exact hlast
    · rw [hrows, hcols]
      exact hfirst (j+1) (by omega)

end Loop

theorem hierarchicalRounds_eq (s : Propagation σ) (mode : AdMode) (penalty fuel : Nat) (g : Grid) :
    hierarchicalRounds s mode penalty fuel g =
      untilFine (fun g => refineGrid s (roundDirection s mode penalty g) g) s.nnzOut s.nnzIn fuel g := by
  induction fuel generalizing g with
  | zero => rfl
  | succ fuel ih =>
    rw [hierarchicalRounds, untilFine]
    simp only [ih]

theorem symmetricRounds_run (s : Propagation σ) (fuel : Nat) {bounds : List Nat} {pattern : Pattern}
    (h : Grid.Over ⟨bounds, bounds, pattern⟩ s.nnzIn s.nnzIn) (st : σ) :
    (symmetricRounds s fuel bounds pattern).run st =
      (do return (← untilFine (refineMirrored s) s.nnzIn s.nnzIn fuel ⟨bounds, bounds, pattern⟩).pattern :
        ExceptT Fault (StateM σ) Pattern).run st := by
  induction fuel generalizing bounds pattern st with
  | zero => rfl
  | succ fuel ih =>
    obtain ⟨found, sweeps, q, st', hrun, hok, hround, hover⟩ := h.refineMirrored s st
    rw [symmetricRounds, run_bind_ok (by rw [run_liftState, hrun])]
    dsimp only
    rw [hok, run_bind_ok (run_liftExcept (.ok q)), untilFine, bind_assoc, run_bind_ok hround]
    by_cases hfine : (subdivide bounds).length = s.nnzIn+1
    · rw [if_pos hfine, if_pos (by simp [Grid.isFine, hfine])]
      rfl
    · rw [if_neg hfine, if_neg (by simp [Grid.isFine, hfine])]
      exact ih hover st'

theorem over_start {nrow ncol : Nat} (hr : 0 < nrow) (hc : 0 < ncol) : (Grid.start nrow ncol).Over nrow ncol where
  rows := Bounds.two hr
  cols := Bounds.two hc
  valid := Pattern.valid_dense 1 1
  nrow := by simp [Grid.start]
  ncol := by simp [Grid.start]

section Count

variable {nrow ncol : Nat}

/-- Some number of divisions brings both sizes to a single index, and the least one is below both. -/
theorem exists_isLeast_shrink (hr : 0 < nrow) (hc : 0 < ncol) :
    ∃ t, IsLeast {t | shrink^[t] ncol ≤ 1 ∧ shrink^[t] nrow ≤ 1} t ∧ t < max nrow ncol := by
  have hex : shrink^[max nrow ncol - 1] ncol ≤ 1 ∧ shrink^[max nrow ncol - 1] nrow ≤ 1 := by
    have hcol := iterate_shrink_le ncol (max nrow ncol - 1)
    have hrow := iterate_shrink_le nrow (max nrow ncol - 1)
    omega
  have hne : ∃ t, shrink^[t] ncol ≤ 1 ∧ shrink^[t] nrow ≤ 1 := ⟨_, hex⟩
  refine ⟨Nat.find hne, ⟨Nat.find_spec hne, fun u hu => Nat.find_min' hne hu⟩, ?_⟩
  have hle := Nat.find_min' hne hex
  omega

/-- At least one round is made, and otherwise as many as there are divisions. -/
theorem rounds_of_isLeast {t : Nat} (h : IsLeast {t | shrink^[t] ncol ≤ 1 ∧ shrink^[t] nrow ≤ 1} t) :
    ∃ k, max 1 t = k+1 ∧ (shrink^[k+1] nrow ≤ 1 ∧ shrink^[k+1] ncol ≤ 1) ∧
      ∀ j < k, ¬(shrink^[j+1] nrow ≤ 1 ∧ shrink^[j+1] ncol ≤ 1) := by
  obtain ⟨hmem, hleast⟩ := h
  cases t with
  | zero => exact ⟨0, rfl, ⟨shrink_le_one hmem.2, shrink_le_one hmem.1⟩, by omega⟩
  | succ k =>
    refine ⟨k, by omega, hmem.symm, fun j hj hfine => ?_⟩
    have hle := hleast hfine.symm
    omega

/-- Rounds that split all blocks end with a pattern of the single indices. -/
theorem untilFine_start {P : Grid → Prop} {round : Grid → ExceptT Fault (StateM σ) Grid} (h : Splits P round)
    (hover : ∀ g, P g → g.Over nrow ncol) (hstart : P (.start nrow ncol)) {t : Nat}
    (ht : IsLeast {t | shrink^[t] ncol ≤ 1 ∧ shrink^[t] nrow ≤ 1} t) (st : σ) :
    ∃ g st', (rounds round (max 1 t) (.start nrow ncol)).run st = (.ok g, st') ∧
      (∀ fuel, max 1 t ≤ fuel → (untilFine round nrow ncol fuel (.start nrow ncol)).run st = (.ok g, st')) ∧
      g.pattern.Valid ∧ g.pattern.nrow = nrow ∧ g.pattern.ncol = ncol := by
  obtain ⟨k, hk, hlast, hfirst⟩ := rounds_of_isLeast ht
  have hrows : maxBlock (Grid.start nrow ncol).rows = nrow := maxBlock_two nrow
  have hcols : maxBlock (Grid.start nrow ncol).cols = ncol := maxBlock_two ncol
  rw [← hrows, ← hcols] at hlast hfirst
  obtain ⟨q, st', hrun, hq⟩ := rounds_run h hstart (k+1) st
  have hend := hover _ hq
  have hnrow := hend.nrow
  have hncol := hend.ncol
  rw [hend.rows.length_eq_iff.mpr ((hover _ hstart).rows.maxBlock_iterate (k+1) ▸ hlast.1)] at hnrow
  rw [hend.cols.length_eq_iff.mpr ((hover _ hstart).cols.maxBlock_iterate (k+1) ▸ hlast.2)] at hncol
  rw [hk]
  refine ⟨_, st', hrun, fun fuel hfuel => ?_, hend.valid, Nat.succ.inj hnrow, Nat.succ.inj hncol⟩
  exact (untilFine_run h hover hstart (Nat.lt_of_succ_le hfuel) hlast hfirst st).trans hrun

end Count

section Detectors

variable {s : Propagation σ} {t : Nat} (hin : 0 < s.nnzIn) (hout : 0 < s.nnzOut)
  (ht : IsLeast {t | shrink^[t] s.nnzIn ≤ 1 ∧ shrink^[t] s.nnzOut ≤ 1} t) (hlt : t < max s.nnzOut s.nnzIn)
include hin hout ht hlt

theorem hierarchical_ends (mode : AdMode) (penalty : Nat) (st : σ) :
    ∃ g st', (rounds (fun g => refineGrid s (roundDirection s mode penalty g) g) (max 1 t)
        (.start s.nnzOut s.nnzIn)).run st = (.ok g, st') ∧
      (∀ fuel, max 1 t ≤ fuel →
        (hierarchicalRounds s mode penalty fuel (.start s.nnzOut s.nnzIn)).run st = (.ok g, st')) ∧
      (hierarchical s mode penalty).run st = (.ok g.pattern, st') ∧
      g.pattern.Valid ∧ g.pattern.nrow = s.nnzOut ∧ g.pattern.ncol = s.nnzIn := by
  obtain ⟨g, st', hrounds, huntil, hg⟩ := untilFine_start (splits_refineGrid s (roundDirection s mode penalty))
    (fun _ h => h) (over_start hout hin) ht st
  have hloop (fuel : Nat) (hfuel : max 1 t ≤ fuel) :
      (hierarchicalRounds s mode penalty fuel (.start s.nnzOut s.nnzIn)).run st = (.ok g, st') := by
    rw [hierarchicalRounds_eq]
    exact huntil fuel hfuel
  refine ⟨g, st', hrounds, hloop, ?_, hg⟩
  rw [hierarchical, if_neg (by simp; omega), run_bind_ok (hloop _ (by omega))]
  rfl

theorem hierarchicalSymmetric_ends (hsquare : s.nnzIn = s.nnzOut) (st : σ) :
    ∃ g st', (rounds (refineMirrored s) (max 1 t) (.start s.nnzOut s.nnzIn)).run st = (.ok g, st') ∧
      (∀ fuel, max 1 t ≤ fuel →
        (symmetricRounds s fuel [0,s.nnzIn] (.dense 1 1)).run st = (.ok g.pattern, st')) ∧
      (hierarchicalSymmetric s).run st = (.ok g.pattern, st') ∧
      g.pattern.Valid ∧ g.pattern.nrow = s.nnzOut ∧ g.pattern.ncol = s.nnzIn := by
  have hstart := over_start hout hin
  rw [← hsquare] at hstart ht hlt ⊢
  obtain ⟨g, st', hrounds, huntil, hg⟩ := untilFine_start (splits_refineMirrored s) (fun _ h => h.1) ⟨hstart, rfl⟩
    ht st
  have hloop (fuel : Nat) (hfuel : max 1 t ≤ fuel) :
      (symmetricRounds s fuel [0,s.nnzIn] (.dense 1 1)).run st = (.ok g.pattern, st') :=
    (symmetricRounds_run s fuel hstart st).trans (run_bind_ok (huntil fuel hfuel))
  refine ⟨g, st', hrounds, hloop, ?_, hg⟩
  rw [hierarchicalSymmetric, if_neg (fun h => h hsquare), if_neg (by omega)]
  exact hloop _ (by omega)

end Detectors

/-- Both detectors end after as many rounds as the sizes take to be divided down to single indices, and at least
one, whatever their sweeps answer; a bound on the rounds is not met before. They return patterns of the right shape,
and no round looks up what is not there. -/
theorem detectors_finish (s : Propagation σ) (mode : AdMode) (penalty : Nat) (hin : 0 < s.nnzIn)
    (hout : 0 < s.nnzOut) (st : σ) :
    ∃ t, IsLeast {t | shrink^[t] s.nnzIn ≤ 1 ∧ shrink^[t] s.nnzOut ≤ 1} t ∧
      (∃ g st', (rounds (fun g => refineGrid s (roundDirection s mode penalty g) g) (max 1 t)
          (.start s.nnzOut s.nnzIn)).run st = (.ok g, st') ∧
        (∀ fuel, max 1 t ≤ fuel →
          (hierarchicalRounds s mode penalty fuel (.start s.nnzOut s.nnzIn)).run st = (.ok g, st')) ∧
        (hierarchical s mode penalty).run st = (.ok g.pattern, st') ∧
        g.pattern.Valid ∧ g.pattern.nrow = s.nnzOut ∧ g.pattern.ncol = s.nnzIn) ∧
      (∀ k < max 1 t, ∃ g st', (rounds (fun g => refineGrid s (roundDirection s mode penalty g) g) k
          (.start s.nnzOut s.nnzIn)).run st = (.ok g, st') ∧ Safe s (roundDirection s mode penalty g) g) ∧
      (s.nnzIn = s.nnzOut →
        (∃ g st', (rounds (refineMirrored s) (max 1 t) (.start s.nnzOut s.nnzIn)).run st = (.ok g, st') ∧
          (∀ fuel, max 1 t ≤ fuel →
            (symmetricRounds s fuel [0,s.nnzIn] (.dense 1 1)).run st = (.ok g.pattern, st')) ∧
          (hierarchicalSymmetric s).run st = (.ok g.pattern, st') ∧
          g.pattern.Valid ∧ g.pattern.nrow = s.nnzOut ∧ g.pattern.ncol = s.nnzIn) ∧
        ∀ k < max 1 t, ∃ g st', (rounds (refineMirrored s) k (.start s.nnzOut s.nnzIn)).run st = (.ok g, st') ∧
          (Split.of g.cols g.rows).Inside g.pattern (starSeeds g.pattern) s.nnzIn s.nnzOut) := by
  obtain ⟨t, ht, hlt⟩ := exists_isLeast_shrink hout hin
  have hstart := over_start hout hin
  refine ⟨t, ht, hierarchical_ends hin hout ht hlt mode penalty st, fun k hk => ?_,
    fun hsquare => ⟨hierarchicalSymmetric_ends hin hout ht hlt hsquare st, fun k hk => ?_⟩⟩
  · obtain ⟨q, st', hrun, hover⟩ := rounds_run (splits_refineGrid s (roundDirection s mode penalty)) hstart k st
    exact ⟨_, st', hrun, hover.safe _⟩
  · rw [← hsquare] at hstart ⊢
    obtain ⟨q, st', hrun, hover, hsame⟩ := rounds_run (splits_refineMirrored s) ⟨hstart, rfl⟩ k st
    exact ⟨_, st', hrun, inside_of hover.cols hover.rows hover.ncol hover.nrow (seeds_starSeeds _)⟩

/-- Blocks of 65 indices are divided twice. -/
theorem detectors_finish_sample :
    ∃ g g' : Grid, (hierarchical (floodSweeps 65 65) .automatic 2).run () = (.ok g.pattern, ()) ∧
      (rounds (fun g => refineGrid (floodSweeps 65 65) (roundDirection (floodSweeps 65 65) .automatic 2 g) g) 2
        (.start 65 65)).run () = (.ok g, ()) ∧
      (hierarchicalSymmetric (floodSweeps 65 65)).run () = (.ok g'.pattern, ()) ∧
      (rounds (refineMirrored (floodSweeps 65 65)) 2 (.start 65 65)).run () = (.ok g', ()) := by
  have hin : 0 < (floodSweeps 65 65).nnzIn := by decide
  have hout : 0 < (floodSweeps 65 65).nnzOut := by decide
  obtain ⟨t, ht, ⟨g, ⟨⟩, hrounds, -, hrun, -⟩, -, hsymm⟩ :=
    detectors_finish (floodSweeps 65 65) .automatic 2 hin hout ()
  obtain ⟨⟨g', ⟨⟩, hrounds', -, hrun', -⟩, -⟩ := hsymm rfl
  have htwo : IsLeast {t | shrink^[t] 65 ≤ 1 ∧ shrink^[t] 65 ≤ 1} 2 := by
    refine ⟨by decide, fun u hu => ?_⟩
    by_contra hlt
    have hcases : u = 0 ∨ u = 1 := by omega
    rcases hcases with rfl | rfl
    · exact absurd hu.1 (by decide)
    · exact absurd hu.1 (by decide)
  obtain rfl := ht.unique htwo
  exact ⟨g, g', hrun, hrounds, hrun', hrounds'⟩

end Fluxion.Detect
