import Fluxion.Proofs.Detect.Plain
import Fluxion.Proofs.Detect.Rounds
import Fluxion.Proofs.Detect.Symmetric

/-!
Both detectors recover the pattern behind exact sweeps, and so agree. On the way, no lane has two owners
in the eyes of one block. The symmetric detector recovers a symmetric pattern, and of any other square
pattern at least what is symmetric in it.
-/
set_option autoImplicit false

namespace Fluxion.Detect

variable {σ : Type}

/-- The lanes of a round after the listed ones were taken, each sweep on the way sent out. -/
def lanesAfter (s : Propagation σ) (dir : Direction) (g : Grid) (done : List (Array Nat × Nat)) :
    StateM σ Lanes :=
  done.foldlM (fun l job => l.takeLane s dir (Split.of (g.seedBounds dir) (g.sensBounds dir)) false
    (g.pattern.facing dir).transpose job.1 job.2) (Lanes.start ((g.seedBounds dir).getLastD 0))

/-- The lanes that a round takes. -/
def roundLanes (g : Grid) (dir : Direction) : List (Array Nat × Nat) :=
  lanesOf (Split.of (g.seedBounds dir) (g.sensBounds dir)) (Coloring.columns (g.pattern.facing dir))

/-- A round takes all its lanes and sends out the rest. -/
theorem refineGrid_lanes (s : Propagation σ) (dir : Direction) (g : Grid) :
    refineGrid s dir g = (do
      let l ← lanesAfter s dir g (roundLanes g dir)
      let l ← l.flush s dir (Split.of (g.seedBounds dir) (g.sensBounds dir)) false
      Grid.ofRefinement dir
        ⟨subdivide (g.seedBounds dir), subdivide (g.sensBounds dir), l.found, l.sweeps⟩ :
          ExceptT Fault (StateM σ) Grid) := by
  rw [refineGrid_eq, refine_eq]
  rfl

theorem owner_lanesAfter {s : Propagation σ} {p : Pattern} {g : Grid} (hp : p.Valid)
    (exact : ExactBoth s p) (h : Covering p g.pattern g.cols g.rows) (dir : Direction)
    {done rest : List (Array Nat × Nat)} (hd : roundLanes g dir = done ++ rest) (st : σ)
    (a lane : Nat) : (lanesAfter s dir g done st).1.owner[(a,lane)]? ≠ some none := by
  have hf := h.facing hp dir
  have hv : (p.facing dir).Valid := by
    cases dir with
    | forward => exact hp
    | reverse => exact hp.transpose
  have hn : (g.seedBounds dir).getLastD 0 = (p.facing dir).ncol := by
    rw [List.getLastD_eq_getLast?, hf.seed.last]
    rfl
  unfold lanesAfter
  rw [hn]
  have hseeds := Coloring.columns_separates hf.valid
  have hmem (job : Array Nat × Nat) (hj : job ∈ done) : job ∈ roundLanes g dir := by
    rw [hd]
    exact List.mem_append_left rest hj
  exact (Taken.run hf.seed.strict hf.valid hf.ncol (lasting_finds hv hf.toCut (exact dir) false) hseeds.valid
    hseeds.ncol (by simp) hmem).owner_ne hseeds hmem a lane

/-- Whatever the mode, the penalty and the available directions, both detectors return the pattern that
the sweeps propagate through. In no round, of whatever direction, is a lane ever left without an owner,
which is what a second claim by another seed block would do until the lane is sent out. -/
theorem detectors_recover {s : Propagation σ} {p : Pattern} (hp : p.Valid) (hs : s.Through p)
    (mode : AdMode) (penalty : Nat) (st : σ) :
    ((hierarchical s mode penalty).run st).1 = .ok p ∧ ((plain s mode).run st).1 = .ok p ∧
    (0 < p.nrow → 0 < p.ncol → ∀ rounds g,
      ((hierarchicalRounds s mode penalty rounds (.start s.nnzOut s.nnzIn)).run st).1 = .ok g →
      ∀ dir done rest, roundLanes g dir = done ++ rest → ∀ st (a lane : Nat),
        (lanesAfter s dir g done st).1.owner[(a,lane)]? ≠ some none) := by
  refine ⟨?_, ?_, ?_⟩
  · obtain ⟨st', he⟩ := hierarchical_run hp hs.exactBoth hs.nnzIn hs.nnzOut mode penalty st
    rw [he]
  · obtain ⟨st', he⟩ := plain_run hp hs.exactBoth hs.nnzIn hs.nnzOut mode st
    rw [he]
  · intro hr hc rounds g hg dir done rest hd st' a lane
    obtain ⟨g', st'', he, hcov, -⟩ := hierarchicalRounds_quotient hp hs.exactBoth hs.nnzIn hs.nnzOut
      mode penalty rounds (covering_start hr hc) st
    rw [hs.nnzIn, hs.nnzOut, he] at hg
    cases hg
    exact owner_lanesAfter hp hs.exactBoth hcov dir hd st' a lane

/-- Three results and two seeds, the middle result depending on both. -/
def samplePattern : Pattern := .ofRows 2 #[#[0], #[0,1], #[1]]

def sampleSweeps : Propagation Unit := ⟨2, 3, fun _ => true, fun dir seed => pure (samplePattern.push dir seed)⟩

theorem detectors_recover_sample : (samplePattern.Valid ∧ sampleSweeps.Through samplePattern) ∧
    ((hierarchical sampleSweeps .automatic 2).run ()).1 = .ok samplePattern ∧
    ((plain sampleSweeps .automatic).run ()).1 = .ok samplePattern := by
  have hp : samplePattern.Valid := Pattern.valid_ofRows (by simp) (by simp)
  have hs : sampleSweeps.Through samplePattern := ⟨rfl, rfl, fun _ _ _ _ => rfl⟩
  obtain ⟨hh, hpl, -⟩ := detectors_recover hp hs .automatic 2 ()
  exact ⟨⟨hp, hs⟩, hh, hpl⟩

/-- Whatever square pattern the forward sweeps propagate through, the symmetric detector ends with a symmetric
one over every symmetric relation inside; lanes that two blocks claim are lost on one side only. -/
theorem hierarchicalSymmetric_recovers {s : Propagation σ} {p : Pattern} (hp : p.Valid)
    (hsquare : p.nrow = p.ncol) (hin : s.nnzIn = p.ncol) (hout : s.nnzOut = p.nrow)
    (exact : Exact s .forward p) (st : σ) :
    ∃ q, ((hierarchicalSymmetric s).run st).1 = .ok q ∧
      (q.Valid ∧ q.nrow = p.nrow ∧ q.ncol = p.ncol ∧ q.isSymmetric = true) ∧
      (∀ S : Nat → Nat → Prop, (∀ r c, S r c → S c r) → (∀ r c, S r c → (r,c) ∈ p.entries) →
        ∀ r c, S r c → (r,c) ∈ q.entries) ∧
      (p.isSymmetric = true → q = p) := by
  -- The largest symmetric relation inside serves for all of them.
  obtain ⟨q, st', hrun, hover, heq⟩ := hierarchicalSymmetric_run hp hsquare hin hout exact
    (S := fun r c => (r,c) ∈ p.entries ∧ (c,r) ∈ p.entries) (fun _ _ h => h.1) (fun _ _ h => ⟨h.2, h.1⟩) st
  refine ⟨q, by rw [hrun], ⟨hover.valid, hover.nrow.trans hsquare.symm, hover.ncol, hover.isSymmetric⟩, ?_, ?_⟩
  · intro S hsymm hS r c hrc
    exact hover.covers r c ⟨hS r c hrc, hS c r (hsymm r c hrc)⟩
  · intro h
    obtain ⟨-, hmirror⟩ := (Pattern.isSymmetric_iff hp).mp h
    exact heq fun r c he => ⟨he, hmirror r c he⟩

/-- Only the first two indices depend on each other both ways. -/
def skewPattern : Pattern := .ofRows 3 #[#[0,1,2], #[0], #[1]]

def arrowPattern : Pattern := .ofRows 3 #[#[0,1,2], #[0,1], #[0,2]]

def squareSweeps (p : Pattern) : Propagation Unit := ⟨3, 3, fun _ => true, fun dir seed => pure (p.push dir seed)⟩

theorem hierarchicalSymmetric_recovers_sample :
    ((skewPattern.Valid ∧ skewPattern.nrow = skewPattern.ncol ∧
        Exact (squareSweeps skewPattern) .forward skewPattern) ∧
      ∃ q, ((hierarchicalSymmetric (squareSweeps skewPattern)).run ()).1 = .ok q ∧ q.isSymmetric = true ∧
        (0,1) ∈ q.entries ∧ (1,0) ∈ q.entries) ∧
    (arrowPattern.Valid ∧ arrowPattern.isSymmetric = true ∧
        Exact (squareSweeps arrowPattern) .forward arrowPattern) ∧
      ((hierarchicalSymmetric (squareSweeps arrowPattern)).run ()).1 = .ok arrowPattern := by
  have hskew : skewPattern.Valid := Pattern.valid_ofRows (by simp) (by simp)
  have harrow : arrowPattern.Valid := Pattern.valid_ofRows (by simp) (by simp)
  have hsymm : arrowPattern.isSymmetric = true := by cbv
  have exact (p : Pattern) : Exact (squareSweeps p) .forward p := fun _ _ _ => rfl
  obtain ⟨q, hrun, ⟨-, -, -, hq⟩, hover, -⟩ :=
    hierarchicalSymmetric_recovers hskew rfl rfl rfl (exact skewPattern) ()
  have hentries : skewPattern.entries = #[(0,0),(0,1),(0,2),(1,0),(2,1)] := by cbv
  have hcovers := hover (fun r c => r+c = 1) (by intros; omega) fun r c hrc => by
    rw [hentries]
    simp only [List.mem_toArray, List.mem_cons, Prod.mk.injEq]
    omega
  obtain ⟨q', hrun', -, -, heq⟩ := hierarchicalSymmetric_recovers harrow rfl rfl rfl (exact arrowPattern) ()
  rw [heq hsymm] at hrun'
  exact ⟨⟨⟨hskew, rfl, exact skewPattern⟩, q, hrun, hq, hcovers 0 1 rfl, hcovers 1 0 rfl⟩,
    ⟨harrow, hsymm, exact arrowPattern⟩, hrun'⟩

end Fluxion.Detect
