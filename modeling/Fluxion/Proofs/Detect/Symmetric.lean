import Fluxion.Detect.Jacobian
import Fluxion.Proofs.Coloring.Star
import Fluxion.Proofs.Detect.Plain
import Fluxion.Proofs.Detect.Rounds
import Fluxion.Proofs.Pattern.Entries

/-!
Detection of a symmetric pattern. Of the sweeps behind it nothing is asked but that they carry at least some
symmetric relation. A star coloring lets each pair of related blocks be read off from one side or the other,
so the coarse patterns stay symmetric and cover the relation, though lanes may be lost on the way. Where the
relation is all of the pattern, nothing else is read off.
-/
set_option autoImplicit false

namespace Fluxion.Detect

variable {σ : Type} {p coarse : Pattern} {bounds : List Nat} {S : Nat → Nat → Prop}

/-- Both sides have the same blocks, and the coarse pattern is symmetric and has all pairs of blocks that
`S` relates. -/
structure Mirrored (p coarse : Pattern) (bounds : List Nat) (S : Nat → Nat → Prop) : Prop
    extends Cut p coarse bounds bounds where
  symm : ∀ a m, (a,m) ∈ coarse.entries → (m,a) ∈ coarse.entries
  covers : ∀ r c a m, S r c → InBlock bounds a r → InBlock bounds m c → (a,m) ∈ coarse.entries

theorem Mirrored.square (h : Mirrored p coarse bounds S) : coarse.nrow = coarse.ncol := by
  have hrow := h.nrow
  have hcol := h.ncol
  omega

/-- Over all of the pattern the coarse one covers. -/
theorem Mirrored.covering (h : Mirrored p coarse bounds S) (hall : ∀ r c, (r,c) ∈ p.entries → S r c) :
    Covering p coarse bounds bounds :=
  ⟨h.toCut, fun a m ⟨r, c, he, hr, hc⟩ => h.covers r c a m (hall r c he) hr hc⟩

theorem Linked.symm (h : ∀ r c, (r,c) ∈ p.entries → (c,r) ∈ p.entries) {a m : Nat}
    (hl : Linked p bounds bounds a m) : Linked p bounds bounds m a := by
  obtain ⟨r, c, he, hr, hc⟩ := hl
  exact ⟨c, r, h r c he, hc, hr⟩

theorem starSeeds_isStar (hv : coarse.Valid) (hsquare : coarse.nrow = coarse.ncol)
    (hsymm : ∀ a m, (a,m) ∈ coarse.entries → (m,a) ∈ coarse.entries) :
    Coloring.Star coarse (starSeeds coarse) := by
  obtain ⟨seeds, hstar, h⟩ := Coloring.star_isStar hv ((Pattern.isSymmetric_iff hv).mpr ⟨hsquare, hsymm⟩)
  rwa [starSeeds, hstar]

theorem Reads.lt {seeds : Pattern} {job : Array Nat × Nat} {f k : Nat}
    (h : Reads p coarse bounds bounds job f k) (hcut : Cut p coarse bounds bounds)
    (hseeds : Coloring.Seeds coarse.ncol seeds) (hjob : job ∈ lanesOf (Split.of bounds bounds) seeds) :
    f < (subdivide bounds).length - 1 ∧ k < (subdivide bounds).length - 1 := by
  obtain ⟨a, ha, howner, -⟩ := h
  obtain ⟨hne, hall⟩ := ownerOf_eq_some.mp howner
  obtain ⟨x, hx⟩ := List.exists_mem_of_ne_nil _ hne
  obtain ⟨m, j, hm, -, he⟩ := mem_claimants.mp hx
  obtain ⟨i, hi, hrow⟩ := mem_lanesOf hjob
  have hlt : m < coarse.ncol := by
    rw [← hseeds.ncol]
    exact hseeds.valid.bound i hi m (hrow ▸ hm.1)
  have hncol := hcut.ncol
  have hf := (refines_firstFine (sublist_subdivide bounds)).part_lt ha.1 ha.2.2
  have hk : part bounds m j + 1 < (subdivide bounds).length := part_lt (by omega) hm.2.2
  rw [← he, hall x hx] at hk
  omega

/-- Where one block of a color is the only one that `a` depends on, its parts are read off. -/
theorem reads_of_sole {seeds : Pattern} {i a f m j : Nat} (hm : (i,m) ∈ seeds.entries)
    (hj : j < partCount bounds m) (ha : PartOf bounds a f) (ham : (a,m) ∈ coarse.entries)
    (hsole : ∀ d, (i,d) ∈ seeds.entries → (a,d) ∈ coarse.entries → d = m)
    (hl : Linked p (subdivide bounds) (subdivide bounds) f (part bounds m j)) :
    Reads p coarse bounds bounds (seeds.row i, j) f (part bounds m j) := by
  obtain ⟨hi, hrow⟩ := Pattern.mem_entries.mp hm
  have hmem : part bounds m j ∈ claimants coarse bounds (seeds.row i, j) a :=
    mem_claimants.mpr ⟨m, j, ⟨hrow, rfl, hj⟩, ham, rfl⟩
  refine ⟨a, ha, ownerOf_eq_some.mpr ⟨List.ne_nil_of_mem hmem, fun x hx => ?_⟩, m, j, ⟨hrow, rfl, hj⟩, hl⟩
  obtain ⟨d, j', ⟨hd, rfl, -⟩, had, rfl⟩ := mem_claimants.mp hx
  rw [hsole d (Pattern.mem_entries.mpr ⟨hi, hd⟩) had]

theorem partOf_part {a i : Nat} (ha : a+1 < bounds.length) (hi : i < partCount bounds a) :
    PartOf bounds a (part bounds a i) := by
  unfold part
  unfold partCount at hi
  exact ⟨ha, by omega, by omega⟩

/-- The blocks around related indices are related, and one of them is alone with its color in the eyes of the
other: there the pair of parts is read off. -/
theorem Mirrored.exists_finds {seeds : Pattern} (h : Mirrored p coarse bounds S)
    (hstar : Coloring.Star coarse seeds) (hS : ∀ r c, S r c → (r,c) ∈ p.entries)
    (hsymm : ∀ r c, S r c → S c r) {r c f k : Nat} (hrc : S r c) (hf : InBlock (subdivide bounds) f r)
    (hk : InBlock (subdivide bounds) k c) :
    ∃ job ∈ lanesOf (Split.of bounds bounds) seeds, Finds p coarse bounds bounds true job f k := by
  obtain ⟨a, i, ha, hi, rfl⟩ := exists_part h.sens.strict hf.lt_length
  obtain ⟨m, j, hm, hj, rfl⟩ := exists_part h.seed.strict hk.lt_length
  have ham := h.covers r c a m hrc (inBlock_of_part h.sens.strict ha hi hf) (inBlock_of_part h.seed.strict hm hj hk)
  have hnrow := h.nrow
  have hncol := h.ncol
  obtain ⟨x, hx⟩ := hstar.covered m (by omega)
  obtain ⟨y, hy⟩ := hstar.covered a (by omega)
  -- If it is not the block of `r` that is alone with its color, it is the block of `c`, and the sweep of that
  -- color gives the mirrored entry.
  rcases hstar.sole a m x y ham hx hy with hsole | hsole
  · refine ⟨_, part_mem_lanesOf hx (by rwa [Split.width_of]), .inl ?_⟩
    exact reads_of_sole hx hj (partOf_part ha hi) ham hsole ⟨r, c, hS r c hrc, hf, hk⟩
  · refine ⟨_, part_mem_lanesOf hy (by rwa [Split.width_of]), .inr ⟨rfl, ?_⟩⟩
    exact reads_of_sole hy hi (partOf_part hm hj) (h.symm a m ham) hsole ⟨c, r, hS c r (hsymm r c hrc), hk, hf⟩

/-- A step keeps the coarse pattern symmetric and over the relation; over all of the pattern it ends with the
pattern of the fine blocks. -/
theorem Mirrored.refine {s : Propagation σ} (h : Mirrored p coarse bounds S) (hp : p.Valid)
    (exact : Exact s .forward p) (hS : ∀ r c, S r c → (r,c) ∈ p.entries) (hsymm : ∀ r c, S r c → S c r)
    (st : σ) :
    ∃ found sweeps q st', Detect.refine s .forward true coarse (starSeeds coarse) bounds bounds st =
        (⟨subdivide bounds, subdivide bounds, found, sweeps⟩, st') ∧
      Pattern.ofEntries? ((subdivide bounds).length - 1) ((subdivide bounds).length - 1) found = .ok q ∧
      Mirrored p q (subdivide bounds) S ∧
      ((∀ r c, (r,c) ∈ p.entries → S r c) → Quotient p ⟨subdivide bounds, subdivide bounds, q⟩) := by
  have hstar := starSeeds_isStar h.valid h.square h.symm
  obtain ⟨found, sweeps, st', hrun, hfound⟩ := refine_finds hp h.toCut hstar.toSeeds exact true st
  have hfine := bounds_subdivide h.sens
  have hinside (f k : Nat) (hfk : (f,k) ∈ found) :
      f < (subdivide bounds).length - 1 ∧ k < (subdivide bounds).length - 1 := by
    obtain ⟨job, hjob, hr | ⟨-, hr⟩⟩ := (hfound f k).mp hfk
    · exact hr.lt h.toCut hstar.toSeeds hjob
    · exact (hr.lt h.toCut hstar.toSeeds hjob).symm
  have hentry (f k : Nat) := Pattern.mem_ofEntries_of_inside hinside (r := f) (c := k)
  -- What a lane gives is entered on both sides.
  have hmirror (f k : Nat) (hfk : (f,k) ∈ found) : (k,f) ∈ found := by
    obtain ⟨job, hjob, hr | ⟨-, hr⟩⟩ := (hfound f k).mp hfk
    · exact (hfound k f).mpr ⟨job, hjob, .inr ⟨rfl, hr⟩⟩
    · exact (hfound k f).mpr ⟨job, hjob, .inl hr⟩
  have hpos := hfine.length_pos
  have hmirrored : Mirrored p (.ofEntries ((subdivide bounds).length - 1) ((subdivide bounds).length - 1) found)
      (subdivide bounds) S := by
    refine ⟨⟨bounds_subdivide h.seed, hfine, Pattern.valid_ofEntries fun f k hfk => (hinside f k hfk).2, ?_, ?_⟩,
      fun f k hfk => (hentry k f).mpr (hmirror f k ((hentry f k).mp hfk)),
      fun r c f k hrc hf hk => (hentry f k).mpr ((hfound f k).mpr (h.exists_finds hstar hS hsymm hrc hf hk))⟩
    · simp only [Pattern.nrow_ofEntries]
      omega
    · simp only [Pattern.ncol_ofEntries]
      omega
  refine ⟨found, sweeps, _, st', hrun, Pattern.ofEntries?_eq hinside, hmirrored, fun hall =>
    ⟨hmirrored.covering hall, fun f k hfk => ?_⟩⟩
  obtain ⟨job, hjob, hr | ⟨-, hr⟩⟩ := (hfound f k).mp ((hentry f k).mp hfk)
  · exact hr.linked (h.covering hall) hstar.toSeeds hjob
  · exact (hr.linked (h.covering hall) hstar.toSeeds hjob).symm
      fun r c he => hS c r (hsymm r c (hall r c he))

/-- Enough rounds end with single indices, and over all of the pattern one round makes the pattern of the
blocks exact. -/
theorem Mirrored.symmetricRounds {s : Propagation σ} (hp : p.Valid) (hin : s.nnzIn = p.ncol)
    (exact : Exact s .forward p) (hS : ∀ r c, S r c → (r,c) ∈ p.entries) (hsymm : ∀ r c, S r c → S c r)
    (fuel : Nat) {coarse : Pattern} {bounds : List Nat} (h : Mirrored p coarse bounds S) (st : σ) :
    ∃ q bounds' st', (Detect.symmetricRounds s fuel bounds coarse).run st = (.ok q, st') ∧
      Mirrored p q bounds' S ∧
      (0 < fuel → p.ncol+1 ≤ bounds.length+fuel → bounds'.length = p.ncol+1) ∧
      ((∀ r c, (r,c) ∈ p.entries → S r c) → 0 < fuel ∨ Quotient p ⟨bounds, bounds, coarse⟩ →
        Quotient p ⟨bounds', bounds', q⟩) := by
  -- Each round keeps `Mirrored`, and as long as some block has two indices it makes more blocks.
  induction fuel generalizing coarse bounds st with
  | zero => exact ⟨coarse, bounds, st, rfl, h, fun h => absurd h (Nat.lt_irrefl 0), fun _ => by simp⟩
  | succ fuel ih =>
    obtain ⟨found, sweeps, q, st', hrun, hq, hmirrored, hquot⟩ := h.refine hp exact hS hsymm st
    rw [Detect.symmetricRounds, run_bind_ok (by rw [run_liftState, hrun])]
    dsimp only
    rw [hq, run_bind_ok (run_liftExcept (.ok q))]
    by_cases hfine : (subdivide bounds).length = s.nnzIn+1
    · rw [if_pos hfine]
      exact ⟨q, _, st', rfl, hmirrored, fun _ _ => by rw [hfine, hin], fun hall _ => hquot hall⟩
    · rw [if_neg hfine]
      obtain ⟨q', bounds', st'', hrun', hmirrored', hend, hquot'⟩ := ih hmirrored st'
      refine ⟨q', bounds', st'', hrun', hmirrored', fun _ hlen => ?_,
        fun hall _ => hquot' hall (.inr (hquot hall))⟩
      rw [hin] at hfine
      have hcoarse : bounds.length ≠ p.ncol+1 := by
        intro he
        have hle := (sublist_subdivide bounds).length_le
        have hmax := (bounds_subdivide h.seed).length_le
        omega
      have hgrow := h.seed.length_lt_subdivide hcoarse
      have hmax := (bounds_subdivide h.seed).length_le
      exact hend (by omega) (by omega)

/-- A symmetric pattern over `S`. -/
structure SymmetricOver (n : Nat) (S : Nat → Nat → Prop) (q : Pattern) : Prop where
  valid : q.Valid
  nrow : q.nrow = n
  ncol : q.ncol = n
  symm : ∀ r c, (r,c) ∈ q.entries → (c,r) ∈ q.entries
  covers : ∀ r c, S r c → (r,c) ∈ q.entries

theorem SymmetricOver.isSymmetric {n : Nat} {q : Pattern} (h : SymmetricOver n S q) : q.isSymmetric = true :=
  (Pattern.isSymmetric_iff h.valid).mpr ⟨h.nrow.trans h.ncol.symm, h.symm⟩

/-- The result is symmetric and over the relation, and it is the pattern where the relation is all of it. -/
theorem hierarchicalSymmetric_run {s : Propagation σ} (hp : p.Valid) (hsquare : p.nrow = p.ncol)
    (hin : s.nnzIn = p.ncol) (hout : s.nnzOut = p.nrow) (exact : Exact s .forward p)
    (hS : ∀ r c, S r c → (r,c) ∈ p.entries) (hsymm : ∀ r c, S r c → S c r) (st : σ) :
    ∃ q st', (hierarchicalSymmetric s).run st = (.ok q, st') ∧ SymmetricOver p.ncol S q ∧
      ((∀ r c, (r,c) ∈ p.entries → S r c) → q = p) := by
  unfold hierarchicalSymmetric
  rw [hin, hout, if_neg (by omega)]
  by_cases h0 : p.ncol = 0
  · rw [if_pos h0]
    refine ⟨_, st, rfl, ⟨Pattern.valid_ofRows (by simp) (by simp), ?_, h0.symm, ?_, fun r c hrc => ?_⟩,
      fun _ => ?_⟩
    · simp [Pattern.empty, Pattern.ofRows, h0]
    · simp [Pattern.mem_entries, Pattern.empty, Pattern.ofRows]
    · have hlt := hp.entry_lt (hS r c hrc)
      omega
    · rw [← empty_eq hp (.inr h0), hsquare, h0]
  · rw [if_neg h0]
    -- One block around all indices is related to itself.
    have hstart : Mirrored p (.dense 1 1) [0,p.ncol] S :=
      ⟨⟨Bounds.two (by omega), hsquare ▸ Bounds.two (by omega), Pattern.valid_dense 1 1, by simp, by simp⟩,
        by simp [Pattern.mem_dense], fun r c a m _ ha hm => by
          have ha := ha.lt_length
          have hm := hm.lt_length
          simp only [List.length_cons, List.length_nil] at ha hm
          exact Pattern.mem_dense.mpr ⟨by omega, by omega⟩⟩
    obtain ⟨q, bounds, st', hrun, h, hend, hquot⟩ := Mirrored.symmetricRounds hp hin exact hS hsymm p.ncol hstart st
    have hlen := hend (by omega) (by simp only [List.length_cons, List.length_nil]; omega)
    have hnrow := h.nrow
    have hncol := h.ncol
    refine ⟨q, st', hrun, ⟨h.valid, by omega, by omega, h.symm, fun r c hrc => ?_⟩, fun hall => ?_⟩
    · obtain ⟨hr, hc⟩ := hp.entry_lt (hS r c hrc)
      exact h.covers r c r c hrc ((h.sens.inBlock_of_length (by omega) hr).mpr rfl)
        ((h.seed.inBlock_of_length hlen hc).mpr rfl)
    · exact (hquot hall (.inl (by omega))).eq_of_isFine hp (by simp [Grid.isFine, hlen, hsquare])

/-- The least symmetric pattern over a square one is over every symmetric relation in it. -/
theorem symmetrize_over (hp : p.Valid) (hsquare : p.nrow = p.ncol) (hS : ∀ r c, S r c → (r,c) ∈ p.entries) :
    ∃ q, p.symmetrize = .ok q ∧ SymmetricOver p.ncol S q := by
  obtain ⟨q, hq, hhas, hsymm⟩ := hp.symmetrize hsquare
  exact ⟨q, hq, hhas.valid, hhas.nrow.trans hsquare, hhas.ncol, ((Pattern.isSymmetric_iff hhas.valid).mp hsymm).2,
    fun r c h => (hhas.mem r c).mpr (.inl (hS r c h))⟩

theorem exact_run {s : Propagation σ} (hp : p.Valid) (hs : s.Through p) (o : Settings) (st : σ) :
    ∃ st', (if o.hierarchical && 1 < s.nnzIn && 1 < s.nnzOut then hierarchical s o.mode o.penalty
      else plain s o.mode).run st = (.ok p, st') := by
  split
  · exact hierarchical_run hp hs.exactBoth hs.nnzIn hs.nnzOut o.mode o.penalty st
  · exact plain_run hp hs.exactBoth hs.nnzIn hs.nnzOut o.mode st

/-- Without symmetry the pattern is the one behind the sweeps. -/
theorem jacobian_run {s : Propagation σ} (hp : p.Valid) (hs : s.Through p)
    (hcan : s.can .forward = true) (o : Settings) (st : σ) :
    ∃ st', (Detect.jacobian s o false).run st = (.ok p, st') := by
  obtain ⟨st', he⟩ := exact_run hp hs o st
  refine ⟨st', ?_⟩
  rw [Detect.jacobian, hcan]
  simp only [Bool.not_true, Bool.false_and, Bool.and_false, Bool.false_eq_true, if_false]
  split at he
  · next h =>
    rw [if_pos h, run_bind_ok he]
    rfl
  · next h =>
    rw [if_neg h, run_bind_ok he]
    rfl

/-- Whatever the settings, a symmetric block gets a symmetric pattern over every symmetric relation that the
sweeps carry. -/
theorem jacobian_symmetric_run {s : Propagation σ} (hp : p.Valid) (hsquare : p.nrow = p.ncol)
    (hs : s.Through p) (hcan : s.can .forward = true) (hS : ∀ r c, S r c → (r,c) ∈ p.entries)
    (hsymm : ∀ r c, S r c → S c r) (o : Settings) (st : σ) :
    ∃ q st', (Detect.jacobian s o true).run st = (.ok q, st') ∧ SymmetricOver p.ncol S q := by
  have hsize : (s.nnzIn == s.nnzOut) = true := by simp [hs.nnzIn, hs.nnzOut, hsquare]
  rw [Detect.jacobian, hcan]
  simp only [hsize, Bool.not_true, Bool.false_and, Bool.and_true, Bool.false_eq_true, if_false, if_true]
  split
  · obtain ⟨q, st', hrun, hover, -⟩ :=
      hierarchicalSymmetric_run hp hsquare hs.nnzIn hs.nnzOut (hs.exactBoth .forward) hS hsymm st
    exact ⟨q, st', hrun, hover⟩
  · obtain ⟨q, hq, hover⟩ := symmetrize_over hp hsquare hS
    obtain ⟨st', he⟩ := exact_run hp hs o st
    refine ⟨q, st', ?_, hover⟩
    split at he
    · next h =>
      rw [if_pos h, run_bind_ok he, hq]
      rfl
    · next h =>
      rw [if_neg h, run_bind_ok he, hq]
      rfl

end Fluxion.Detect
