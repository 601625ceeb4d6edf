import Fluxion.Proofs.Detect.Filling

/-!
One refinement step. Whatever is in the lanes is read off by the sweep that sends them out, and every part of
every seed block gets a lane. If no sensitivity block depends on two blocks of a color, the step ends with
the pattern of the fine blocks.
-/
set_option autoImplicit false

namespace Fluxion.Detect

variable {σ : Type} {q coarse : Pattern} {seedBounds sensBounds : List Nat}

/-- A lane reached fine block `f`, and in the eyes of the block around it its owner is `k`. -/
def Lanes.Decodes (l : Lanes) (s : Split) (sens : Array Word) (f k : Nat) : Prop :=
  ∃ a i lane, a < s.firstSens.size - 1 ∧ i < s.firstSens.getD (a+1) 0 - s.firstSens.getD a 0 ∧
    f = s.firstSens.getD a 0 + i ∧ lane < Word.size ∧
    (Word.sup (sens.extract (s.fineSens.getD f 0) (s.fineSens.getD (f+1) 0))).test lane = true ∧
    l.owner[(a,lane)]? = some (some k)

theorem Lanes.mem_decode {l : Lanes} {s : Split} {symmetric : Bool} {sens : Array Word} {f k : Nat} :
    (f,k) ∈ l.decode s symmetric sens ↔
      l.Decodes s sens f k ∨ symmetric = true ∧ l.Decodes s sens k f := by
  have hpair (fine seed : Nat) :
      (f,k) ∈ (if symmetric = true then [(fine,seed), (seed,fine)] else [(fine,seed)]) ↔
        (f = fine ∧ k = seed) ∨ symmetric = true ∧ (f = seed ∧ k = fine) := by
    split
    · next h => simp [h]
    · next h => simp [h]
  simp only [decode, Decodes, Array.mem_flatMap, Array.mem_range, List.mem_toArray, List.mem_flatMap,
    Word.mem_bits]
  constructor
  · rintro ⟨a, ha, i, hi, lane, ⟨hl, ht⟩, hm⟩
    split at hm
    · next seed ho =>
      rcases (hpair _ _).mp hm with ⟨hf, hk⟩ | ⟨hs, hf, hk⟩
      · subst hf hk
        exact .inl ⟨a, i, lane, ha, hi, rfl, hl, ht, ho⟩
      · subst hf hk
        exact .inr ⟨hs, a, i, lane, ha, hi, rfl, hl, ht, ho⟩
    · cases hm
  · rintro (⟨a, i, lane, ha, hi, hf, hl, ht, ho⟩ | ⟨hs, a, i, lane, ha, hi, hk, hl, ht, ho⟩)
    · subst hf
      refine ⟨a, ha, i, hi, lane, ⟨hl, ht⟩, ?_⟩
      rw [ho]
      exact (hpair _ _).mpr (.inl ⟨rfl, rfl⟩)
    · subst hk
      refine ⟨a, ha, i, hi, lane, ⟨hl, ht⟩, ?_⟩
      rw [ho]
      exact (hpair _ _).mpr (.inr ⟨hs, rfl, rfl⟩)

/-- Fine block `f` is a part of block `a`. -/
def PartOf (bounds : List Nat) (a f : Nat) : Prop :=
  a+1 < bounds.length ∧ (firstFine bounds (subdivide bounds)).getD a 0 ≤ f ∧
    f < (firstFine bounds (subdivide bounds)).getD (a+1) 0

theorem Linked.of_parts {a f m j : Nat}
    (h : Linked q (subdivide sensBounds) (subdivide seedBounds) f (part seedBounds m j))
    (hseed : Bounds q.ncol seedBounds) (hsens : Bounds q.nrow sensBounds) (ha : PartOf sensBounds a f)
    (hm : m+1 < seedBounds.length) (hj : j < partCount seedBounds m) :
    Linked q sensBounds seedBounds a m := by
  obtain ⟨r, c, he, hin, hb⟩ := h
  have hr := refines_firstFine (sublist_subdivide sensBounds)
  exact ⟨r, c, he, (hr.inBlock_iff (subdivide_strict hsens.strict) ha.1 hin).mpr ha.2,
    inBlock_of_part hseed.strict hm hj hb⟩

/-- A sweep with this lane reads the pair off: the lane reaches `f`, and in the eyes of the block around
`f` its owner is `k`. -/
def Reads (q coarse : Pattern) (seedBounds sensBounds : List Nat) (job : Array Nat × Nat) (f k : Nat) :
    Prop :=
  ∃ a, PartOf sensBounds a f ∧ ownerOf (claimants coarse seedBounds job a) = some (some k) ∧
    ∃ m j, Holds seedBounds job m j ∧
      Linked q (subdivide sensBounds) (subdivide seedBounds) f (part seedBounds m j)

/-- What is read off, with its mirror if the pattern is symmetric. -/
def Finds (q coarse : Pattern) (seedBounds sensBounds : List Nat) (symmetric : Bool)
    (job : Array Nat × Nat) (f k : Nat) : Prop :=
  Reads q coarse seedBounds sensBounds job f k ∨
    symmetric = true ∧ Reads q coarse seedBounds sensBounds job k f

namespace Packing

variable {l : Lanes} {jobs : List (Array Nat × Nat)}

/-- Bit `lane` reaches a fine sensitivity block exactly if it depends on a part in that lane. -/
theorem test_sup_extract (h : Packing coarse seedBounds q.ncol l jobs) (hq : q.Valid)
    (hs : Bounds q.nrow (subdivide sensBounds)) {f lane : Nat} (hlane : lane < Word.size) :
    (Word.sup ((q.push .forward l.seed).extract ((subdivide sensBounds).getD f 0)
      ((subdivide sensBounds).getD (f+1) 0))).test lane = true ↔
    ∃ m j, Holds seedBounds (jobs.getD lane (#[],0)) m j ∧
      Linked q (subdivide sensBounds) (subdivide seedBounds) f (part seedBounds m j) := by
  have hle : (subdivide sensBounds).getD (f+1) 0 ≤ (q.push .forward l.seed).size := by
    rw [Pattern.size_push]
    exact hs.le_last
  rw [Word.test_sup_extract hle hlane]
  constructor
  · rintro ⟨r, h₁, h₂, ht⟩
    have hin : InBlock (subdivide sensBounds) f r := ⟨h₁, h₂⟩
    have hr := hs.inBlock_lt hin
    obtain ⟨c, hc, htc⟩ := (Pattern.test_push hr hlane).mp ht
    have he : (r,c) ∈ q.entries := Pattern.mem_entries.mpr ⟨hr, hc⟩
    obtain ⟨m, j, hm, hb⟩ := (h.seed c lane (hq.entry_lt he).2 hlane).mp htc
    exact ⟨m, j, hm, r, c, he, hin, hb⟩
  · rintro ⟨m, j, hm, r, c, he, hin, hb⟩
    obtain ⟨hr, hc⟩ := Pattern.mem_entries.mp he
    have htc := (h.seed c lane (hq.entry_lt he).2 hlane).mpr ⟨m, j, hm, hb⟩
    exact ⟨r, hin.1, hin.2, (Pattern.test_push hr hlane).mpr ⟨c, hc, htc⟩⟩

/-- A sweep reads off what its lanes carry. -/
theorem mem_decode (h : Packing coarse seedBounds q.ncol l jobs) (hv : q.Valid)
    (hq : Cut q coarse seedBounds sensBounds) (hsize : jobs.length ≤ Word.size) (symmetric : Bool)
    {f k : Nat} :
    (f,k) ∈ l.decode (Split.of seedBounds sensBounds) symmetric (q.push .forward l.seed) ↔
      ∃ job ∈ jobs, Finds q coarse seedBounds sensBounds symmetric job f k := by
  have hfine := bounds_subdivide hq.sens
  have hreads (f k : Nat) : l.Decodes (Split.of seedBounds sensBounds) (q.push .forward l.seed) f k ↔
      ∃ job ∈ jobs, Reads q coarse seedBounds sensBounds job f k := by
    simp only [Lanes.Decodes, Split.size_firstSens_of, Split.firstSens_of, Split.fineSens_of]
    constructor
    · rintro ⟨a, i, lane, ha, hi, hf, hlane, ht, ho⟩
      have hlinked := (h.test_sup_extract hv hfine hlane).mp ht
      rw [h.owner a lane] at ho
      refine ⟨jobs.getD lane (#[],0), ?_, a, ⟨by omega, by omega, by omega⟩, ho, hlinked⟩
      obtain ⟨m, j, hm, -⟩ := hlinked
      -- A lane that nobody uses carries nothing.
      by_cases hlt : lane < jobs.length
      · rw [List.getD_eq_getElem?_getD, List.getElem?_eq_getElem hlt]
        exact List.getElem_mem hlt
      · rw [List.getD_eq_getElem?_getD, List.getElem?_eq_none (by omega)] at hm
        exact absurd hm.1 (by simp)
    · rintro ⟨job, hjob, a, ⟨ha, hlo, hhi⟩, ho, hlinked⟩
      obtain ⟨lane, hlt, hget⟩ := List.mem_iff_getElem.mp hjob
      have hlane : jobs.getD lane (#[],0) = job := by
        rw [List.getD_eq_getElem?_getD, List.getElem?_eq_getElem hlt, hget, Option.getD_some]
      have hword : lane < Word.size := by omega
      rw [← hlane] at ho hlinked
      exact ⟨a, f - (firstFine sensBounds (subdivide sensBounds)).getD a 0, lane, by omega, by omega,
        by omega, hword, (h.test_sup_extract hv hfine hword).mpr hlinked, by rw [h.owner a lane, ho]⟩
  rw [Lanes.mem_decode, hreads f k, hreads k f]
  simp only [Finds, and_or_left, exists_or, ← exists_and_left]
  exact or_congr_right (exists_congr fun _ => and_left_comm)

end Packing

section Run

variable {p : Propagation σ} {dir : Direction} {seeds : Pattern} {symmetric : Bool}

/-- A sweep over exact propagation finds what its lanes read off. -/
theorem lasting_finds (hv : q.Valid) (hq : Cut q coarse seedBounds sensBounds) (exact : Exact p dir q)
    (symmetric : Bool) : Lasting p dir symmetric coarse seedBounds sensBounds q.ncol fun sent found _ =>
      ∀ f k, (f,k) ∈ found ↔ ∃ job ∈ sent, Finds q coarse seedBounds sensBounds symmetric job f k := by
  intro sent jobs l st hf _ hfound f k
  rw [exact l.seed st hf.packing.size, Array.mem_append, hfound, hf.packing.mem_decode hv hq hf.room]
  simp only [List.mem_append, or_and_right, exists_or]

/-- A step finds what the lanes of its colors read off. -/
theorem refine_finds (hv : q.Valid) (hq : Cut q coarse seedBounds sensBounds)
    (hs : Coloring.Seeds coarse.ncol seeds) (exact : Exact p dir q) (symmetric : Bool) (st : σ) :
    ∃ found sweeps st', refine p dir symmetric coarse seeds seedBounds sensBounds st =
        (⟨subdivide seedBounds, subdivide sensBounds, found, sweeps⟩, st') ∧
      ∀ f k, (f,k) ∈ found ↔ ∃ job ∈ lanesOf (Split.of seedBounds sensBounds) seeds,
        Finds q coarse seedBounds sensBounds symmetric job f k := by
  have hn : seedBounds.getLastD 0 = q.ncol := by
    rw [List.getLastD_eq_getLast?, hq.seed.last]
    rfl
  obtain ⟨found, st', hrun, hfound⟩ := refine_run hq.seed.strict hq.valid hq.ncol hs.valid hs.ncol
    (hn ▸ lasting_finds hv hq exact symmetric) st (by simp)
  exact ⟨found, _, st', hrun, hfound⟩

/-- Of the parts of a color, no block depends on two. -/
theorem claimants_unique (hs : Coloring.Separates coarse seeds) {job : Array Nat × Nat}
    (hjob : job ∈ lanesOf (Split.of seedBounds sensBounds) seeds) (a : Nat) :
    ∀ x ∈ claimants coarse seedBounds job a, ∀ y ∈ claimants coarse seedBounds job a, x = y := by
  obtain ⟨i, hi, hrow⟩ := mem_lanesOf hjob
  intro x hx y hy
  obtain ⟨m, j, ⟨hm, rfl, -⟩, he, rfl⟩ := mem_claimants.mp hx
  obtain ⟨m', j', ⟨hm', rfl, -⟩, he', rfl⟩ := mem_claimants.mp hy
  rw [hs.apart i a m m' (Pattern.mem_entries.mpr ⟨hi, hrow ▸ hm⟩)
    (Pattern.mem_entries.mpr ⟨hi, hrow ▸ hm'⟩) he he']

/-- Whatever the sweeps answer, no lane is ever claimed by two blocks of a color. -/
theorem Taken.owner_ne {K : List (Array Nat × Nat) → Array (Nat × Nat) → σ → Prop} {n : Nat} {l : Lanes}
    {done : List (Array Nat × Nat)} {st : σ} (h : Taken coarse seedBounds n K done l st)
    (hs : Coloring.Separates coarse seeds)
    (hd : ∀ job ∈ done, job ∈ lanesOf (Split.of seedBounds sensBounds) seeds) (a lane : Nat) :
    l.owner[(a,lane)]? ≠ some none := by
  obtain ⟨sent, jobs, rfl, hf, -⟩ := h
  rw [hf.packing.owner a lane]
  by_cases hlt : lane < jobs.length
  · rw [List.getD_eq_getElem?_getD, List.getElem?_eq_getElem hlt, Option.getD_some]
    exact ownerOf_ne (claimants_unique hs (hd _ (List.mem_append_right _ (List.getElem_mem hlt))) a)
  · rw [List.getD_eq_getElem?_getD, List.getElem?_eq_none (by omega), Option.getD_none]
    simp [claimants, ownerOf]

/-- A fine block that depends on a part is in a block that claims the lane of the part. -/
theorem Covering.mem_claimants (hq : Covering q coarse seedBounds sensBounds) {job : Array Nat × Nat}
    {a f m j : Nat} (ha : PartOf sensBounds a f) (hm : Holds seedBounds job m j)
    (hl : Linked q (subdivide sensBounds) (subdivide seedBounds) f (part seedBounds m j))
    (hlen : m+1 < seedBounds.length) : part seedBounds m j ∈ claimants coarse seedBounds job a :=
  Detect.mem_claimants.mpr ⟨m, j, hm, hq.covers a m (hl.of_parts hq.seed hq.sens ha hlen hm.2.2), rfl⟩

/-- What is read off over a coarse pattern that covers depends: the part that lit the lane is its owner. -/
theorem Reads.linked (hq : Covering q coarse seedBounds sensBounds) (hs : Coloring.Seeds coarse.ncol seeds)
    {job : Array Nat × Nat} (hjob : job ∈ lanesOf (Split.of seedBounds sensBounds) seeds) {f k : Nat}
    (h : Reads q coarse seedBounds sensBounds job f k) :
    Linked q (subdivide sensBounds) (subdivide seedBounds) f k := by
  obtain ⟨a, ha, howner, m, j, hm, hl⟩ := h
  obtain ⟨i, hi, hrow⟩ := mem_lanesOf hjob
  have hlt : m < coarse.ncol := by
    rw [← hs.ncol]
    exact hs.valid.bound i hi m (hrow ▸ hm.1)
  have hncol := hq.ncol
  rw [← (ownerOf_eq_some.mp howner).2 _ (hq.mem_claimants ha hm hl (by omega))]
  exact hl

/-- A step finds exactly the dependent pairs of fine blocks. -/
theorem refine_found (hv : q.Valid) (hq : Covering q coarse seedBounds sensBounds)
    (hs : Coloring.Separates coarse seeds) (exact : Exact p dir q) (st : σ) :
    ∃ found sweeps st', refine p dir false coarse seeds seedBounds sensBounds st =
        (⟨subdivide seedBounds, subdivide sensBounds, found, sweeps⟩, st') ∧
      ∀ f k, (f,k) ∈ found ↔ Linked q (subdivide sensBounds) (subdivide seedBounds) f k := by
  obtain ⟨found, sweeps, st', hrun, hfound⟩ := refine_finds hv hq.toCut hs.toSeeds exact false st
  refine ⟨found, sweeps, st', hrun, fun f k => (hfound f k).trans ?_⟩
  constructor
  · rintro ⟨job, hjob, hr | ⟨hsymm, -⟩⟩
    · exact hr.linked hq hs.toSeeds hjob
    · cases hsymm
  · intro hl
    obtain ⟨r, c, -, hin, hb⟩ := id hl
    obtain ⟨m, j, hm, hj, rfl⟩ := exists_part hq.seed.strict hb.lt_length
    have hncol := hq.ncol
    obtain ⟨i, hi⟩ := hs.covered m (by omega)
    have hjob : (seeds.row i, j) ∈ lanesOf (Split.of seedBounds sensBounds) seeds :=
      part_mem_lanesOf hi (by rw [Split.width_of]; exact hj)
    obtain ⟨a, ha⟩ := exists_coarse hq.sens.strict hin.lt_length
    have hholds : Holds seedBounds (seeds.row i, j) m j := ⟨(Pattern.mem_entries.mp hi).2, rfl, hj⟩
    have hmem := hq.mem_claimants ha hholds hl hm
    exact ⟨_, hjob, .inl ⟨a, ha, ownerOf_eq_some.mpr ⟨List.ne_nil_of_mem hmem,
      fun x hx => claimants_unique hs hjob a x hx _ hmem⟩, m, j, hholds, hl⟩⟩

end Run

end Fluxion.Detect
