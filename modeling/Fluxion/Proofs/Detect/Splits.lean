import Fluxion.Proofs.Detect.Recovery

/-!
Rounds whatever the sweeps answer. A round splits all blocks on both sides and returns a pattern of the parts. No
lookup on the way is out of range, and no block depends on two owners of a lane.
-/
set_option autoImplicit false

namespace Fluxion.Detect

variable {σ : Type} {nrow ncol : Nat}

/-- Blocks of all rows and of all columns, with a pattern of the blocks. -/
structure Grid.Over (g : Grid) (nrow ncol : Nat) : Prop where
  rows : Bounds nrow g.rows
  cols : Bounds ncol g.cols
  valid : g.pattern.Valid
  nrow : g.pattern.nrow+1 = g.rows.length
  ncol : g.pattern.ncol+1 = g.cols.length

/-! ### One round -/

/-- Every lookup of a step is inside its array: of the coarse blocks in the splits, of the members of a color among
the coarse blocks, of the fine blocks in their boundaries, and of the boundaries in the words of a sweep. -/
structure Split.Inside (s : Split) (coarse seeds : Pattern) (nseed nsens : Nat) : Prop where
  firstSeed : s.firstSeed.size = coarse.ncol+1
  firstSens : s.firstSens.size = coarse.nrow+1
  member : ∀ k m, (k,m) ∈ seeds.entries → m < coarse.ncol
  seed : ∀ m x, m < coarse.ncol → s.firstSeed.getD m 0 ≤ x → x < s.firstSeed.getD (m+1) 0 →
    x+1 < s.fineSeed.size ∧ s.fineSeed.getD (x+1) 0 ≤ nseed
  sens : ∀ a x, a < coarse.nrow → s.firstSens.getD a 0 ≤ x → x < s.firstSens.getD (a+1) 0 →
    x+1 < s.fineSens.size ∧ s.fineSens.getD x 0 < s.fineSens.getD (x+1) 0 ∧ s.fineSens.getD (x+1) 0 ≤ nsens

section Step

variable {coarse seeds : Pattern} {seedBounds sensBounds : List Nat} {nseed nsens : Nat}

theorem inside_of (hseed : Bounds nseed seedBounds) (hsens : Bounds nsens sensBounds)
    (hncol : coarse.ncol+1 = seedBounds.length) (hnrow : coarse.nrow+1 = sensBounds.length)
    (hs : Coloring.Seeds coarse.ncol seeds) :
    (Split.of seedBounds sensBounds).Inside coarse seeds nseed nsens := by
  have hfirst := refines_firstFine (sublist_subdivide seedBounds)
  have hlast := refines_firstFine (sublist_subdivide sensBounds)
  refine ⟨?_, ?_, fun k m hm => hs.ncol ▸ (hs.valid.entry_lt hm).2, fun m x hm _ hx => ?_, fun a x ha _ hx => ?_⟩
  · simp [Split.of, hfirst.length, hncol]
  · simp [Split.of, hlast.length, hnrow]
  · rw [Split.firstSeed_of] at hx
    have hlt := hfirst.part_lt (by omega) hx
    rw [Split.fineSeed_of]
    exact ⟨by simpa [Split.of] using hlt, (bounds_subdivide hseed).le_last⟩
  · rw [Split.firstSens_of] at hx
    have hlt := hlast.part_lt (by omega) hx
    rw [Split.fineSens_of, Split.fineSens_of]
    exact ⟨by simpa [Split.of] using hlt, (bounds_subdivide hsens).lt (Nat.lt_add_one x) hlt,
      (bounds_subdivide hsens).le_last⟩

/-- A pair of a fine sensitivity block and a fine seed block. -/
def FinePair (seedBounds sensBounds : List Nat) (f k : Nat) : Prop :=
  f+1 < (subdivide sensBounds).length ∧ k+1 < (subdivide seedBounds).length

theorem lasting_finePair (p : Propagation σ) (dir : Direction) (symmetric : Bool) (sensBounds : List Nat)
    (hc : coarse.Valid) (hn : coarse.ncol+1 = seedBounds.length) (n : Nat) :
    Lasting p dir symmetric coarse seedBounds sensBounds n fun _ found _ => ∀ f k, (f,k) ∈ found →
      FinePair seedBounds sensBounds f k ∨ symmetric = true ∧ FinePair seedBounds sensBounds k f := by
  intro sent jobs l st hf _ hfound f k hfk
  have hdecodes (f k : Nat) (h : l.Decodes (Split.of seedBounds sensBounds) (p.sweep dir l.seed st).1 f k) :
      FinePair seedBounds sensBounds f k := by
    obtain ⟨a, i, lane, ha, hi, rfl, -, -, howner⟩ := h
    rw [Split.size_firstSens_of] at ha
    rw [Split.firstSens_of, Split.firstSens_of] at hi
    rw [Split.firstSens_of]
    -- The owner of a lane is one of those who claimed it.
    rw [hf.packing.owner a lane] at howner
    obtain ⟨hne, hall⟩ := ownerOf_eq_some.mp howner
    obtain ⟨x, hx⟩ := List.exists_mem_of_ne_nil _ hne
    obtain ⟨m, j, hm, he, hpart⟩ := mem_claimants.mp hx
    have hlt := (hc.entry_lt he).2
    refine ⟨part_lt (by omega) hi, ?_⟩
    rw [← hall x hx, hpart]
    exact part_lt (by omega) hm.2.2
  rcases Array.mem_append.mp hfk with hold | hnew
  · exact hfound f k hold
  · exact (Lanes.mem_decode.mp hnew).imp (hdecodes f k) fun h => ⟨h.1, hdecodes k f h.2⟩

/-- Whatever the sweeps answer, a step returns, with pairs of fine blocks. -/
theorem refine_finePair (p : Propagation σ) (dir : Direction) (symmetric : Bool) (sensBounds : List Nat)
    (hb : seedBounds.Pairwise (· < ·)) (hc : coarse.Valid) (hn : coarse.ncol+1 = seedBounds.length)
    (hs : Coloring.Seeds coarse.ncol seeds) (st : σ) :
    ∃ found sweeps st', refine p dir symmetric coarse seeds seedBounds sensBounds st =
        (⟨subdivide seedBounds, subdivide sensBounds, found, sweeps⟩, st') ∧
      ∀ f k, (f,k) ∈ found →
        FinePair seedBounds sensBounds f k ∨ symmetric = true ∧ FinePair seedBounds sensBounds k f := by
  obtain ⟨found, st', hrun, hfound⟩ := refine_run hb hc hn hs.valid hs.ncol
    (lasting_finePair p dir symmetric sensBounds hc hn _) st (by simp)
  exact ⟨found, _, st', hrun, hfound⟩

end Step

theorem over_ofEntries {rows cols : List Nat} {entries : Array (Nat × Nat)} (hr : Bounds nrow rows)
    (hc : Bounds ncol cols) (h : ∀ a m, (a,m) ∈ entries → FinePair cols rows a m) :
    Pattern.ofEntries? ((subdivide rows).length - 1) ((subdivide cols).length - 1) entries =
        .ok (.ofEntries ((subdivide rows).length - 1) ((subdivide cols).length - 1) entries) ∧
      Grid.Over ⟨subdivide rows, subdivide cols,
        .ofEntries ((subdivide rows).length - 1) ((subdivide cols).length - 1) entries⟩ nrow ncol := by
  have inside (a m : Nat) (he : (a,m) ∈ entries) :
      a < (subdivide rows).length - 1 ∧ m < (subdivide cols).length - 1 := by
    obtain ⟨ha, hm⟩ := h a m he
    omega
  have hrows := (bounds_subdivide hr).length_pos
  have hcols := (bounds_subdivide hc).length_pos
  refine ⟨Pattern.ofEntries?_eq inside, bounds_subdivide hr, bounds_subdivide hc,
    Pattern.valid_ofEntries fun a m he => (inside a m he).2, ?_, ?_⟩
  · simp
    omega
  · simp
    omega

/-- A reverse sweep finds pairs the other way round. -/
theorem mem_swapped {found : Array (Nat × Nat)} {a m : Nat} :
    (a,m) ∈ found.map (fun (a,b) => (b,a)) ↔ (m,a) ∈ found := by
  simp

theorem Grid.Over.facing {g : Grid} (h : g.Over nrow ncol) (dir : Direction) :
    (g.pattern.facing dir).Valid ∧ (g.pattern.facing dir).ncol+1 = (g.seedBounds dir).length ∧
      (g.pattern.facing dir).nrow+1 = (g.sensBounds dir).length := by
  cases dir with
  | forward => exact ⟨h.valid, h.ncol, h.nrow⟩
  | reverse => exact ⟨h.valid.transpose, h.nrow, (congrArg (·+1) (Pattern.nrow_transpose _)).trans h.ncol⟩

theorem Grid.Over.bounds {g : Grid} (h : g.Over nrow ncol) (dir : Direction) :
    Bounds (match dir with | .forward => ncol | .reverse => nrow) (g.seedBounds dir) ∧
      Bounds (match dir with | .forward => nrow | .reverse => ncol) (g.sensBounds dir) := by
  cases dir with
  | forward => exact ⟨h.cols, h.rows⟩
  | reverse => exact ⟨h.rows, h.cols⟩

/-- A round splits all blocks, and `P` holds again. -/
def Splits (P : Grid → Prop) (round : Grid → ExceptT Fault (StateM σ) Grid) : Prop :=
  ∀ g, P g → ∀ st, ∃ q st', (round g).run st = (.ok ⟨subdivide g.rows, subdivide g.cols, q⟩, st') ∧
    P ⟨subdivide g.rows, subdivide g.cols, q⟩

theorem splits_refineGrid (s : Propagation σ) (dir : Grid → Direction) :
    Splits (·.Over nrow ncol) fun g => refineGrid s (dir g) g := by
  intro g h st
  dsimp only
  generalize dir g = dir
  obtain ⟨hv, hncol, -⟩ := h.facing dir
  obtain ⟨found, sweeps, st', hrun, hfound⟩ := refine_finePair s dir false (g.sensBounds dir) (h.bounds dir).1.strict
    hv hncol (Coloring.columns_separates hv).toSeeds st
  have hpair (f k : Nat) (hfk : (f,k) ∈ found) : FinePair (g.seedBounds dir) (g.sensBounds dir) f k :=
    (hfound f k hfk).resolve_right fun h => Bool.false_ne_true h.1
  rw [refineGrid_eq, run_bind_ok (by rw [run_liftState, hrun])]
  cases dir with
  | forward =>
    obtain ⟨hok, hover⟩ := over_ofEntries h.rows h.cols hpair
    exact ⟨_, st', congrArg (·, st') (Grid.ofRefinement_forward hok), hover⟩
  | reverse =>
    obtain ⟨hok, hover⟩ := over_ofEntries h.rows h.cols fun a m hm => (hpair m a (mem_swapped.mp hm)).symm
    exact ⟨_, st', congrArg (·, st') (Grid.ofRefinement_reverse hok), hover⟩

/-- A round of the symmetric detector, over a grid with the same blocks on both sides. -/
def refineMirrored (s : Propagation σ) (g : Grid) : ExceptT Fault (StateM σ) Grid := do
  let r ← refine s .forward true g.pattern (starSeeds g.pattern) g.cols g.rows
  Grid.ofRefinement .forward r

theorem seeds_starSeeds (p : Pattern) : Coloring.Seeds p.ncol (starSeeds p) := by
  unfold starSeeds
  cases h : Coloring.star p with
  | error e => exact Coloring.seeds_columns p
  | ok seeds => exact Coloring.seeds_star h

theorem Grid.Over.refineMirrored {bounds : List Nat} {pattern : Pattern}
    (h : Grid.Over ⟨bounds, bounds, pattern⟩ ncol ncol) (s : Propagation σ) (st : σ) :
    ∃ found sweeps q st', refine s .forward true pattern (starSeeds pattern) bounds bounds st =
        (⟨subdivide bounds, subdivide bounds, found, sweeps⟩, st') ∧
      Pattern.ofEntries? ((subdivide bounds).length - 1) ((subdivide bounds).length - 1) found = .ok q ∧
      (Detect.refineMirrored s ⟨bounds, bounds, pattern⟩).run st =
        (.ok ⟨subdivide bounds, subdivide bounds, q⟩, st') ∧
      Grid.Over ⟨subdivide bounds, subdivide bounds, q⟩ ncol ncol := by
  obtain ⟨found, sweeps, st', hrun, hfound⟩ := refine_finePair s .forward true bounds h.cols.strict h.valid h.ncol
    (seeds_starSeeds pattern) st
  obtain ⟨hok, hover⟩ := over_ofEntries h.rows h.cols fun f k hfk => (hfound f k hfk).elim id fun h => h.2.symm
  refine ⟨found, sweeps, _, st', hrun, hok, ?_, hover⟩
  rw [Detect.refineMirrored, run_bind_ok (by rw [run_liftState, hrun])]
  exact congrArg (·, st') (Grid.ofRefinement_forward hok)

theorem splits_refineMirrored (s : Propagation σ) :
    Splits (fun g => g.Over ncol ncol ∧ g.rows = g.cols) (refineMirrored s) := by
  rintro ⟨rows, cols, pattern⟩ ⟨h, hsame⟩ st
  obtain rfl : rows = cols := hsame
  obtain ⟨found, sweeps, q, st', -, -, hround, hover⟩ := h.refineMirrored s st
  exact ⟨q, st', hround, hover, rfl⟩

/-! ### Lookups of a round -/

/-- A round looks up what is there, and no block ever depends on two owners of a lane. -/
structure Safe (s : Propagation σ) (dir : Direction) (g : Grid) : Prop where
  inside : (Split.of (g.seedBounds dir) (g.sensBounds dir)).Inside (g.pattern.facing dir)
    (Coloring.columns (g.pattern.facing dir)) (s.seedSize dir) (s.sensSize dir)
  owner : ∀ done rest, roundLanes g dir = done ++ rest → ∀ st (a lane : Nat),
    (lanesAfter s dir g done st).1.owner[(a,lane)]? ≠ some none

theorem Grid.Over.safe {s : Propagation σ} {g : Grid} (h : g.Over s.nnzOut s.nnzIn) (dir : Direction) :
    Safe s dir g := by
  obtain ⟨hv, hncol, hnrow⟩ := h.facing dir
  obtain ⟨hseed, hsens⟩ := h.bounds dir
  have hseeds := Coloring.columns_separates hv
  refine ⟨?_, fun done rest hd st a lane => ?_⟩
  · have hinside := inside_of hseed hsens hncol hnrow hseeds.toSeeds
    cases dir with
    | forward => exact hinside
    | reverse => exact hinside
  · have hlasting : Lasting s dir false (g.pattern.facing dir) (g.seedBounds dir) (g.sensBounds dir)
        ((g.seedBounds dir).getLastD 0) fun _ _ _ => True := fun _ _ _ _ _ _ _ => trivial
    have hmem (job : Array Nat × Nat) (hj : job ∈ done) : job ∈ roundLanes g dir := by
      rw [hd]
      exact List.mem_append_left rest hj
    exact (Taken.run hseed.strict hv hncol hlasting hseeds.valid hseeds.ncol trivial hmem).owner_ne hseeds hmem a lane

end Fluxion.Detect
