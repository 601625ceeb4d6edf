import Fluxion.Detect.Hierarchical
import Fluxion.Proofs.Detect.Refine
import Fluxion.Proofs.Run

/-!
Rounds of refinement. Every round leaves the pattern of its blocks, whatever direction it took, and makes
a block smaller, so the rounds end with every block a single index.
-/
set_option autoImplicit false

namespace Fluxion.Detect

variable {σ : Type}

namespace Grid

/-- Blocks on the side that a sweep starts from. -/
def seedBounds (g : Grid) : Direction → List Nat
  | .forward => g.cols
  | .reverse => g.rows

def sensBounds (g : Grid) : Direction → List Nat
  | .forward => g.rows
  | .reverse => g.cols

end Grid

/-- Sensitivity blocks as rows, seed blocks as columns. -/
theorem refineGrid_eq (s : Propagation σ) (dir : Direction) (g : Grid) :
    refineGrid s dir g = (do
      let r ← refine s dir false (g.pattern.facing dir) (Coloring.columns (g.pattern.facing dir))
        (g.seedBounds dir) (g.sensBounds dir)
      Grid.ofRefinement dir r : ExceptT Fault (StateM σ) Grid) := by
  cases dir <;> rfl

theorem Linked.transpose {q : Pattern} (hq : q.Valid) {sensBounds seedBounds : List Nat} {a m : Nat} :
    Linked q.transpose seedBounds sensBounds m a ↔ Linked q sensBounds seedBounds a m := by
  constructor
  · rintro ⟨c, r, he, hc, hr⟩
    exact ⟨r, c, hq.mem_transpose.mp he, hr, hc⟩
  · rintro ⟨r, c, he, hr, hc⟩
    exact ⟨c, r, hq.mem_transpose.mpr he, hc, hr⟩

theorem Covering.transpose {q coarse : Pattern} {seedBounds sensBounds : List Nat} (hq : q.Valid)
    (h : Covering q coarse seedBounds sensBounds) :
    Covering q.transpose coarse.transpose sensBounds seedBounds where
  seed := h.sens
  sens := by
    rw [Pattern.nrow_transpose]
    exact h.seed
  valid := h.valid.transpose
  nrow := by
    rw [Pattern.nrow_transpose]
    exact h.ncol
  ncol := h.nrow
  covers a m hl := h.valid.mem_transpose.mpr (h.covers m a ((Linked.transpose hq).mp hl))

/-- The blocks cover the pattern, and only linked blocks are an entry. -/
structure Quotient (p : Pattern) (g : Grid) : Prop where
  covering : Covering p g.pattern g.cols g.rows
  linked : ∀ a m, (a,m) ∈ g.pattern.entries → Linked p g.rows g.cols a m

theorem Covering.facing {p : Pattern} {g : Grid} (hp : p.Valid)
    (h : Covering p g.pattern g.cols g.rows) (dir : Direction) :
    Covering (p.facing dir) (g.pattern.facing dir) (g.seedBounds dir) (g.sensBounds dir) := by
  cases dir with
  | forward => exact h
  | reverse => exact h.transpose hp

theorem Linked.inside {q : Pattern} {sensBounds seedBounds : List Nat} {a m : Nat}
    (h : Linked q sensBounds seedBounds a m) :
    a < sensBounds.length - 1 ∧ m < seedBounds.length - 1 := by
  obtain ⟨r, c, -, hr, hc⟩ := h
  have ha := hr.lt_length
  have hm := hc.lt_length
  omega

theorem quotient_ofEntries {p : Pattern} {rows cols : List Nat} {entries : Array (Nat × Nat)}
    (hr : Bounds p.nrow rows) (hc : Bounds p.ncol cols)
    (h : ∀ a m, (a,m) ∈ entries ↔ Linked p rows cols a m) :
    Pattern.ofEntries? (rows.length-1) (cols.length-1) entries =
        .ok (.ofEntries (rows.length-1) (cols.length-1) entries) ∧
      Quotient p ⟨rows, cols, .ofEntries (rows.length-1) (cols.length-1) entries⟩ := by
  have inside (a m : Nat) (he : (a,m) ∈ entries) : a < rows.length - 1 ∧ m < cols.length - 1 :=
    ((h a m).mp he).inside
  have hrows := hr.length_pos
  have hcols := hc.length_pos
  refine ⟨Pattern.ofEntries?_eq inside, ⟨⟨hc, hr, ?_, ?_, ?_⟩, ?_⟩, ?_⟩
  · exact Pattern.valid_ofEntries fun a m he => (inside a m he).2
  · simp
    omega
  · simp
    omega
  · intro a m hl
    exact (Pattern.mem_ofEntries_of_inside inside).mpr ((h a m).mpr hl)
  · intro a m he
    exact (h a m).mp ((Pattern.mem_ofEntries_of_inside inside).mp he)

theorem Grid.ofRefinement_forward {seed sens : List Nat} {found : Array (Nat × Nat)} {sweeps : Nat}
    {q : Pattern} (h : Pattern.ofEntries? (sens.length-1) (seed.length-1) found = .ok q) :
    Grid.ofRefinement .forward ⟨seed, sens, found, sweeps⟩ = .ok ⟨sens, seed, q⟩ := by
  simp only [Grid.ofRefinement, h]
  rfl

theorem Grid.ofRefinement_reverse {seed sens : List Nat} {found : Array (Nat × Nat)} {sweeps : Nat}
    {q : Pattern} (h : Pattern.ofEntries? (seed.length-1) (sens.length-1)
      (found.map fun (a,b) => (b,a)) = .ok q) :
    Grid.ofRefinement .reverse ⟨seed, sens, found, sweeps⟩ = .ok ⟨seed, sens, q⟩ := by
  simp only [Grid.ofRefinement, h]
  rfl

theorem refineGrid_quotient {s : Propagation σ} {p : Pattern} {g : Grid} (hp : p.Valid)
    (exact : ExactBoth s p) (h : Covering p g.pattern g.cols g.rows) (dir : Direction) (st : σ) :
    ∃ g' st', (refineGrid s dir g).run st = (.ok g', st') ∧ Quotient p g' ∧
      g'.rows = subdivide g.rows ∧ g'.cols = subdivide g.cols := by
  have hf := h.facing hp dir
  have hv : (p.facing dir).Valid := by
    cases dir with
    | forward => exact hp
    | reverse => exact hp.transpose
  obtain ⟨found, sweeps, st', he, hfound⟩ := refine_found hv hf (Coloring.columns_separates hf.valid)
    (exact dir) st
  have hrows := bounds_subdivide h.sens
  have hcols := bounds_subdivide h.seed
  have hrun : (refineGrid s dir g).run st =
      (Grid.ofRefinement dir
        ⟨subdivide (g.seedBounds dir), subdivide (g.sensBounds dir), found, sweeps⟩, st') := by
    rw [refineGrid_eq, run_bind_ok (by rw [run_liftState, he])]
    exact run_liftExcept _
  cases dir with
  | forward =>
    obtain ⟨hok, hquot⟩ := quotient_ofEntries hrows hcols hfound
    refine ⟨_, st', ?_, hquot, rfl, rfl⟩
    rw [hrun]
    exact congrArg (·, st') (Grid.ofRefinement_forward hok)
  | reverse =>
    -- A reverse sweep finds the pairs of the transpose.
    have hswap (a m : Nat) : (a,m) ∈ found.map (fun (a,b) => (b,a)) ↔
        Linked p (subdivide g.rows) (subdivide g.cols) a m := by
      have hm : (m,a) ∈ found ↔ Linked p.transpose (subdivide g.cols) (subdivide g.rows) m a :=
        hfound m a
      rw [← Linked.transpose hp, ← hm]
      simp
    obtain ⟨hok, hquot⟩ := quotient_ofEntries hrows hcols hswap
    refine ⟨_, st', ?_, hquot, rfl, rfl⟩
    rw [hrun]
    exact congrArg (·, st') (Grid.ofRefinement_reverse hok)

theorem Covering.isFine {p : Pattern} {g : Grid} (h : Covering p g.pattern g.cols g.rows) :
    g.isFine p.nrow p.ncol = true ↔ p.nrow+p.ncol+2 ≤ g.rows.length+g.cols.length := by
  have hr := h.sens.length_le
  have hc := h.seed.length_le
  simp [Grid.isFine]
  omega

/-- A round that does not end with single indices makes the blocks more. -/
theorem Covering.length_lt {p : Pattern} {g g' : Grid} (h : Covering p g.pattern g.cols g.rows)
    (hrows : g'.rows = subdivide g.rows) (hcols : g'.cols = subdivide g.cols)
    (hn : ¬p.nrow+p.ncol+2 ≤ g'.rows.length+g'.cols.length) :
    g.rows.length+g.cols.length < g'.rows.length+g'.cols.length := by
  have hr := (sublist_subdivide g.rows).length_le
  have hc := (sublist_subdivide g.cols).length_le
  rw [hrows, hcols] at hn ⊢
  by_cases hfr : g.rows.length = p.nrow+1
  · by_cases hfc : g.cols.length = p.ncol+1
    · omega
    · have hlt := h.seed.length_lt_subdivide hfc
      omega
  · have hlt := h.sens.length_lt_subdivide hfr
    omega

section Rounds

variable {s : Propagation σ} {p : Pattern}

/-- Whatever the fuel, the rounds end with blocks that cover the pattern; one round makes the pattern of
the blocks exact, and enough of them make it fine. -/
theorem hierarchicalRounds_quotient (hp : p.Valid) (exact : ExactBoth s p) (hin : s.nnzIn = p.ncol)
    (hout : s.nnzOut = p.nrow) (mode : AdMode) (penalty fuel : Nat) {g : Grid}
    (h : Covering p g.pattern g.cols g.rows) (st : σ) :
    ∃ g' st', (hierarchicalRounds s mode penalty fuel g).run st = (.ok g', st') ∧
      Covering p g'.pattern g'.cols g'.rows ∧ (0 < fuel ∨ Quotient p g → Quotient p g') ∧
      (0 < fuel → p.nrow+p.ncol+2 ≤ g.rows.length+g.cols.length+fuel →
        g'.isFine p.nrow p.ncol = true) := by
  induction fuel generalizing g st with
  | zero => exact ⟨g, st, rfl, h, by simp, by omega⟩
  | succ fuel ih =>
    obtain ⟨g', st', he, hq, hrows, hcols⟩ :=
      refineGrid_quotient hp exact h (roundDirection s mode penalty g) st
    rw [hierarchicalRounds, run_bind_ok he, hin, hout]
    by_cases hfine : g'.isFine p.nrow p.ncol = true
    · rw [if_pos hfine]
      exact ⟨g', st', rfl, hq.covering, fun _ => hq, fun _ _ => hfine⟩
    · rw [if_neg hfine]
      obtain ⟨g'', st'', he', hc, hquot, hend⟩ := ih hq.covering st'
      have hshort := mt hq.covering.isFine.mpr hfine
      have hgrow := h.length_lt hrows hcols hshort
      refine ⟨g'', st'', he', hc, fun _ => hquot (.inr hq), ?_⟩
      intro _ hle
      exact hend (by omega) (by omega)

theorem Quotient.eq_of_isFine {g : Grid} (hp : p.Valid) (h : Quotient p g)
    (hfine : g.isFine p.nrow p.ncol = true) : g.pattern = p := by
  obtain ⟨hr, hc⟩ : g.rows.length = p.nrow+1 ∧ g.cols.length = p.ncol+1 := by
    simpa [Grid.isFine] using hfine
  have hnrow := h.covering.nrow
  have hncol := h.covering.ncol
  apply h.covering.valid.ext hp (by omega) (by omega)
  intro a m
  constructor
  · intro he
    obtain ⟨r, c, he, ha, hm⟩ := h.linked a m he
    have hrc := hp.entry_lt he
    rw [h.covering.sens.inBlock_of_length hr hrc.1] at ha
    rw [h.covering.seed.inBlock_of_length hc hrc.2] at hm
    rw [ha, hm]
    exact he
  · intro he
    have hrc := hp.entry_lt he
    exact h.covering.covers a m ⟨a, m, he, (h.covering.sens.inBlock_of_length hr hrc.1).mpr rfl,
      (h.covering.seed.inBlock_of_length hc hrc.2).mpr rfl⟩

theorem covering_start (hr : 0 < p.nrow) (hc : 0 < p.ncol) :
    Covering p (Grid.start p.nrow p.ncol).pattern (Grid.start p.nrow p.ncol).cols
      (Grid.start p.nrow p.ncol).rows where
  seed := Bounds.two hc
  sens := Bounds.two hr
  valid := Pattern.valid_dense 1 1
  nrow := by simp [Grid.start]
  ncol := by simp [Grid.start]
  covers a m hl := by
    have hin := hl.inside
    obtain rfl : a = 0 := by simpa [Grid.start] using hin.1
    obtain rfl : m = 0 := by simpa [Grid.start] using hin.2
    exact Pattern.mem_dense.mpr ⟨Nat.one_pos, Nat.one_pos⟩

theorem empty_eq (hp : p.Valid) (h : p.nrow = 0 ∨ p.ncol = 0) : Pattern.empty p.nrow p.ncol = p := by
  have hv : (Pattern.empty p.nrow p.ncol).Valid := Pattern.valid_ofRows (by simp) (by simp)
  apply hv.ext hp (by simp [Pattern.empty, Pattern.ofRows]) rfl
  intro r c
  have hn : (r,c) ∉ p.entries := fun he => by
    have hlt := hp.entry_lt he
    omega
  have hn' : (r,c) ∉ (Pattern.empty p.nrow p.ncol).entries := fun he => by
    have hlt := hv.entry_lt he
    simp only [Pattern.empty, Pattern.ofRows, Array.size_replicate] at hlt
    omega
  simp [hn, hn']

/-- Refined detection finds exactly the pattern that the sweeps propagate through. -/
theorem hierarchical_run (hp : p.Valid) (exact : ExactBoth s p) (hin : s.nnzIn = p.ncol)
    (hout : s.nnzOut = p.nrow) (mode : AdMode) (penalty : Nat) (st : σ) :
    ∃ st', (hierarchical s mode penalty).run st = (.ok p, st') := by
  unfold hierarchical
  rw [hin, hout]
  by_cases h0 : p.nrow = 0 ∨ p.ncol = 0
  · have hb : (p.ncol = 0 || p.nrow = 0) = true := by
      simp only [Bool.or_eq_true, decide_eq_true_eq]
      omega
    rw [if_pos hb, empty_eq hp h0]
    exact ⟨st, rfl⟩
  · have hb : ¬(p.ncol = 0 || p.nrow = 0) = true := by
      simp only [Bool.or_eq_true, decide_eq_true_eq]
      omega
    obtain ⟨g, st', he, -, hq, hfine⟩ := hierarchicalRounds_quotient hp exact hin hout mode penalty
      (p.ncol+p.nrow) (covering_start (p := p) (by omega) (by omega)) st
    have hlen : p.nrow+p.ncol+2 ≤ (Grid.start p.nrow p.ncol).rows.length +
        (Grid.start p.nrow p.ncol).cols.length + (p.ncol+p.nrow) := by
      simp only [Grid.start, List.length_cons, List.length_nil]
      omega
    have hg := (hq (.inl (by omega))).eq_of_isFine hp (hfine (by omega) hlen)
    rw [if_neg hb, run_bind_ok he, hg]
    exact ⟨st', rfl⟩

end Rounds

end Fluxion.Detect
