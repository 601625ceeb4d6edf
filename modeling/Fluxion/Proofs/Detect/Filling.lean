import Fluxion.Proofs.Detect.Lanes

/-!
How lanes are filled, whatever the sweeps answer. The colors ask for lanes one after the other, and whole words
of lanes are sent out, so the lanes that are held are the last ones asked for. What each sweep keeps, all sweeps of
a step keep.
-/
set_option autoImplicit false

namespace Fluxion.Detect

variable {σ : Type} {coarse seeds : Pattern} {seedBounds sensBounds : List Nat} {n : Nat} {p : Propagation σ}
  {dir : Direction} {symmetric : Bool}

/-- Part numbers of every color, color by color: each asks for one lane. -/
def lanesOf (s : Split) (seeds : Pattern) : List (Array Nat × Nat) :=
  (List.range seeds.nrow).flatMap fun k =>
    (List.range ((seeds.row k).foldl (fun w m => max w (s.width m)) 0)).map fun j => (seeds.row k, j)

theorem foldlM_flatMap {σ α β γ : Type} (f : β → γ → StateM σ β) (g : α → List γ) (xs : List α)
    (b : β) : (xs.flatMap g).foldlM f b = xs.foldlM (fun b x => (g x).foldlM f b) b := by
  induction xs generalizing b with
  | nil => rfl
  | cons x xs ih =>
    rw [List.flatMap_cons, List.foldlM_append, List.foldlM_cons]
    congr 1
    funext b
    exact ih b

/-- A step takes one lane after the other and sends out what is left. -/
theorem refine_eq (p : Propagation σ) (dir : Direction) (symmetric : Bool) (coarse seeds : Pattern)
    (seedBounds sensBounds : List Nat) :
    refine p dir symmetric coarse seeds seedBounds sensBounds = do
      let l ← (lanesOf (Split.of seedBounds sensBounds) seeds).foldlM
        (fun l job => l.takeLane p dir (Split.of seedBounds sensBounds) symmetric coarse.transpose
          job.1 job.2) (Lanes.start (seedBounds.getLastD 0))
      let l ← l.flush p dir (Split.of seedBounds sensBounds) symmetric
      return ⟨subdivide seedBounds, subdivide sensBounds, l.found, l.sweeps⟩ := by
  unfold lanesOf refine
  rw [foldlM_flatMap]
  simp only [List.foldlM_map]
  rfl

theorem le_foldl_max (f : Nat → Nat) (xs : List Nat) (w : Nat) :
    w ≤ xs.foldl (fun w m => max w (f m)) w ∧
      ∀ m ∈ xs, f m ≤ xs.foldl (fun w m => max w (f m)) w := by
  induction xs generalizing w with
  | nil => simp
  | cons x xs ih =>
    obtain ⟨hw, hxs⟩ := ih (max w (f x))
    rw [List.foldl_cons]
    constructor
    · omega
    · intro m hm
      rcases List.mem_cons.mp hm with rfl | hm
      · omega
      · exact hxs m hm

theorem mem_lanesOf {s : Split} {seeds : Pattern} {job : Array Nat × Nat}
    (h : job ∈ lanesOf s seeds) : ∃ k, k < seeds.nrow ∧ job.1 = seeds.row k := by
  obtain ⟨k, hk, hj⟩ := List.mem_flatMap.mp h
  obtain ⟨j, -, rfl⟩ := List.mem_map.mp hj
  exact ⟨k, List.mem_range.mp hk, rfl⟩

theorem part_mem_lanesOf {s : Split} {seeds : Pattern} {k m j : Nat} (hm : (k,m) ∈ seeds.entries)
    (hj : j < s.width m) : (seeds.row k, j) ∈ lanesOf s seeds := by
  obtain ⟨hk, hm⟩ := Pattern.mem_entries.mp hm
  refine List.mem_flatMap.mpr ⟨k, List.mem_range.mpr hk, List.mem_map.mpr ⟨j, ?_, rfl⟩⟩
  have hle := (le_foldl_max s.width (seeds.row k).toList 0).2 m (Array.mem_toList_iff.mpr hm)
  rw [Array.foldl_toList] at hle
  exact List.mem_range.mpr (Nat.lt_of_lt_of_le hj hle)

namespace Lanes

variable (l : Lanes) (p : Propagation σ) (dir : Direction) (s : Split) (symmetric : Bool) (st : σ)

/-- Lanes that are taken go out in one sweep. -/
theorem flush_run : l.flush p dir s symmetric st =
    if l.used = 0 then (l, st)
    else ({l.clear with
        found := l.found ++ l.decode s symmetric (p.sweep dir l.seed st).1
        sweeps := l.sweeps+1}, (p.sweep dir l.seed st).2) := by
  unfold flush
  split <;> rfl

theorem takeLane_run (dependents : Pattern) (members : Array Nat) (j : Nat) :
    l.takeLane p dir s symmetric dependents members j st =
      let r := if l.used = Word.size then l.flush p dir s symmetric st else (l, st)
      let l' := members.toList.foldl
        (fun l m => if j < s.width m then l.assign s (dependents.row m) m j else l) r.1
      ({l' with used := l'.used+1}, r.2) := by
  unfold takeLane
  simp only [← Array.foldl_toList]
  split <;> rfl

end Lanes

/-- Whole words of lanes were sent out, and the lanes of `jobs` are held. -/
structure Filling (coarse : Pattern) (seedBounds : List Nat) (n : Nat) (l : Lanes)
    (sent jobs : List (Array Nat × Nat)) : Prop where
  packing : Packing coarse seedBounds n l jobs
  used : l.used = jobs.length
  room : jobs.length ≤ Word.size
  sent : sent.length = Word.size*l.sweeps

/-- Sweeps keep `K`, which tells of the lanes sent so far, the pairs found in them and the state. -/
def Lasting (p : Propagation σ) (dir : Direction) (symmetric : Bool) (coarse : Pattern)
    (seedBounds sensBounds : List Nat) (n : Nat)
    (K : List (Array Nat × Nat) → Array (Nat × Nat) → σ → Prop) : Prop :=
  ∀ sent jobs l st, Filling coarse seedBounds n l sent jobs → jobs ≠ [] → K sent l.found st →
    K (sent ++ jobs)
      (l.found ++ l.decode (Split.of seedBounds sensBounds) symmetric (p.sweep dir l.seed st).1)
      (p.sweep dir l.seed st).2

/-- The listed lanes were asked for. -/
def Taken (coarse : Pattern) (seedBounds : List Nat) (n : Nat)
    (K : List (Array Nat × Nat) → Array (Nat × Nat) → σ → Prop) (done : List (Array Nat × Nat)) (l : Lanes)
    (st : σ) : Prop :=
  ∃ sent jobs, done = sent ++ jobs ∧ Filling coarse seedBounds n l sent jobs ∧ K sent l.found st

namespace Taken

variable {K : List (Array Nat × Nat) → Array (Nat × Nat) → σ → Prop} {l : Lanes}
  {done : List (Array Nat × Nat)} {st : σ}

theorem start (h : K [] #[] st) : Taken coarse seedBounds n K [] (Lanes.start n) st :=
  ⟨[], [], rfl, ⟨Packing.start, rfl, Nat.zero_le _, rfl⟩, h⟩

/-- After a sweep no lane is held. -/
theorem flush (h : Taken coarse seedBounds n K done l st)
    (hK : Lasting p dir symmetric coarse seedBounds sensBounds n K) :
    let r := l.flush p dir (Split.of seedBounds sensBounds) symmetric st
    r.1.used = 0 ∧ Packing coarse seedBounds n r.1 [] ∧ r.1.sweeps = ceilDiv done.length Word.size ∧
      K done r.1.found r.2 := by
  obtain ⟨sent, jobs, rfl, hf, hk⟩ := h
  have hused := hf.used
  have hroom := hf.room
  have hsent := hf.sent
  unfold Word.size at hroom hsent
  rw [Lanes.flush_run, List.length_append]
  unfold ceilDiv Word.size
  by_cases h0 : l.used = 0
  · obtain rfl : jobs = [] := List.length_eq_zero_iff.mp (by omega)
    rw [if_pos h0, List.append_nil]
    exact ⟨h0, hf.packing, by simp only [List.length_nil]; omega, hk⟩
  · have hne : jobs ≠ [] := by
      rintro rfl
      exact h0 hused
    rw [if_neg h0]
    refine ⟨rfl, Packing.of_empty (by simpa [Lanes.clear] using hf.packing.size) (fun c => ?_) rfl, ?_,
      hK sent jobs l st hf hne hk⟩
    · by_cases hc : c < l.seed.size <;> simp [Lanes.clear, Array.getD_eq_getD_getElem?, hc]
    · dsimp only
      omega

/-- There is room for one more lane, after a sweep if there was none. -/
theorem makeRoom (h : Taken coarse seedBounds n K done l st)
    (hK : Lasting p dir symmetric coarse seedBounds sensBounds n K) :
    let r := if l.used = Word.size then l.flush p dir (Split.of seedBounds sensBounds) symmetric st else (l, st)
    r.1.used < Word.size ∧ Taken coarse seedBounds n K done r.1 r.2 := by
  dsimp only
  split
  · next hfull =>
    obtain ⟨h0, hp, hsweeps, hk⟩ := h.flush hK
    obtain ⟨sent, jobs, hdone, hf, -⟩ := h
    -- Exactly one word of lanes was held.
    have hlength : done.length = Word.size*(l.sweeps+1) := by
      rw [hdone, List.length_append, hf.sent, ← hf.used, hfull]
      rfl
    refine ⟨by rw [h0]; decide, done, [], (List.append_nil done).symm, ⟨hp, h0, Nat.zero_le _, ?_⟩, hk⟩
    rw [hsweeps, hlength]
    unfold ceilDiv Word.size
    omega
  · next hroom =>
    obtain ⟨sent, jobs, hdone, hf, hk⟩ := h
    have hlt : l.used < Word.size := Nat.lt_of_le_of_ne (hf.used ▸ hf.room) hroom
    exact ⟨hlt, sent, jobs, hdone, hf, hk⟩

variable (hb : seedBounds.Pairwise (· < ·)) (hc : coarse.Valid) (hn : coarse.ncol+1 = seedBounds.length)
  (hK : Lasting p dir symmetric coarse seedBounds sensBounds n K)
include hb hc hn hK

theorem takeLane (h : Taken coarse seedBounds n K done l st) {members : Array Nat}
    (inside : ∀ m ∈ members, m < coarse.ncol) (j : Nat) :
    let r := l.takeLane p dir (Split.of seedBounds sensBounds) symmetric coarse.transpose members j st
    Taken coarse seedBounds n K (done ++ [(members,j)]) r.1 r.2 := by
  obtain ⟨hlt, ht⟩ := h.makeRoom hK
  rw [Lanes.takeLane_run]
  generalize (if l.used = Word.size then l.flush p dir (Split.of seedBounds sensBounds) symmetric st
    else (l, st)) = r at hlt ht
  obtain ⟨sent, jobs, rfl, hf, hk⟩ := ht
  have hp := hf.packing.foldl_assign sensBounds hb hc hn hf.used (hf.used ▸ hlt) inside j
  obtain ⟨seed, owner, he⟩ := r.1.foldl_assign_eq (Split.of seedBounds sensBounds) coarse.transpose j members.toList
  dsimp only
  rw [he] at hp ⊢
  refine ⟨sent, jobs ++ [(members,j)], List.append_assoc _ _ _, ⟨⟨hp.size, hp.seed, hp.owner⟩, ?_, ?_, hf.sent⟩, hk⟩
  · simp [hf.used]
  · have hused := hf.used
    simp only [List.length_append, List.length_singleton]
    omega

/-- After any number of lanes of a coloring. -/
theorem run (hv : seeds.Valid) (hs : seeds.ncol = coarse.ncol) (hstart : K [] #[] st)
    (hd : ∀ job ∈ done, job ∈ lanesOf (Split.of seedBounds sensBounds) seeds) :
    let r := done.foldlM (fun l job => l.takeLane p dir (Split.of seedBounds sensBounds) symmetric
      coarse.transpose job.1 job.2) (Lanes.start n) st
    Taken coarse seedBounds n K done r.1 r.2 := by
  have hrun := foldlM_state (f := fun l (job : Array Nat × Nat) =>
      Lanes.takeLane p dir (Split.of seedBounds sensBounds) symmetric coarse.transpose job.1 l job.2)
    (fun done l st => (∀ job ∈ done, job ∈ lanesOf (Split.of seedBounds sensBounds) seeds) →
      Taken coarse seedBounds n K done l st)
    (by
      intro done job l st h hd
      obtain ⟨k, hk, hrow⟩ := mem_lanesOf (hd job (by simp))
      refine (h fun job hj => hd job (by simp [hj])).takeLane hb hc hn hK (fun m hm => ?_) job.2
      rw [← hs]
      exact hv.bound k hk m (hrow ▸ hm))
    done [] (Lanes.start n) st (fun _ => Taken.start hstart)
  simpa using hrun (by simpa using hd)

end Taken

/-- A step asks for the lanes of all colors and sends each word of them out, so it keeps what its sweeps keep. -/
theorem refine_run {K : List (Array Nat × Nat) → Array (Nat × Nat) → σ → Prop}
    (hb : seedBounds.Pairwise (· < ·)) (hc : coarse.Valid) (hn : coarse.ncol+1 = seedBounds.length)
    (hv : seeds.Valid) (hs : seeds.ncol = coarse.ncol)
    (hK : Lasting p dir symmetric coarse seedBounds sensBounds (seedBounds.getLastD 0) K) (st : σ)
    (hstart : K [] #[] st) :
    ∃ found st', refine p dir symmetric coarse seeds seedBounds sensBounds st =
        (⟨subdivide seedBounds, subdivide sensBounds, found,
          ceilDiv (lanesOf (Split.of seedBounds sensBounds) seeds).length Word.size⟩, st') ∧
      K (lanesOf (Split.of seedBounds sensBounds) seeds) found st' := by
  have ht := Taken.run hb hc hn hK hv hs hstart (fun _ h => h)
  obtain ⟨-, -, hsweeps, hk⟩ := ht.flush hK
  rw [refine_eq, ← hsweeps]
  exact ⟨_, _, rfl, hk⟩

/-- Sweeps that answer all bits. -/
def floodSweeps (nnzIn nnzOut : Nat) : Propagation Unit :=
  ⟨nnzIn, nnzOut, fun _ => true, fun dir _ => pure (.replicate (match dir with
    | .forward => nnzOut
    | .reverse => nnzIn) 18446744073709551615)⟩

end Fluxion.Detect
