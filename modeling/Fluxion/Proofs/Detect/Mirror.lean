import Fluxion.Proofs.Detect.Symmetric

/-!
Symmetric requests. The sweeps may answer anything: the refinement of a symmetric block enters each pair with its
mirror, and the result of any other detector is united with its transpose. So the pattern is symmetric whatever
depends on what.
-/
set_option autoImplicit false

namespace Fluxion

variable {σ : Type}

namespace Pattern

variable {q : Pattern} {n : Nat} {pairs : Array (Nat × Nat)}

/-- Every pair is there with its mirror. -/
def Mirrors (pairs : Array (Nat × Nat)) : Prop := ∀ a b, (a,b) ∈ pairs → (b,a) ∈ pairs

theorem Mirrors.append {xs ys : Array (Nat × Nat)} (hx : Mirrors xs) (hy : Mirrors ys) : Mirrors (xs ++ ys) := by
  intro a b h
  rw [Array.mem_append] at h ⊢
  exact h.imp (hx a b) (hy a b)

theorem valid_of_ofEntries? {nrow ncol : Nat} (h : ofEntries? nrow ncol pairs = .ok q) : q.Valid := by
  obtain ⟨hinside, rfl⟩ := exists_of_ofEntries? h
  exact valid_ofEntries fun r c hrc => (hinside r c hrc).2

/-- Pairs that are mirrored make a symmetric pattern. -/
theorem isSymmetric_of_ofEntries? (h : ofEntries? n n pairs = .ok q) (hm : Mirrors pairs) : q.isSymmetric = true := by
  have hvalid := valid_of_ofEntries? h
  obtain ⟨hinside, rfl⟩ := exists_of_ofEntries? h
  refine (isSymmetric_iff hvalid).mpr ⟨by simp, fun r c hrc => ?_⟩
  rw [mem_ofEntries_of_inside hinside] at hrc ⊢
  exact hm r c hrc

theorem isSymmetric_dense (n : Nat) : (dense n n).isSymmetric = true := by
  refine (isSymmetric_iff (valid_dense n n)).mpr ⟨by simp, fun r c h => ?_⟩
  rw [mem_dense] at h ⊢
  exact h.symm

/-- The union with the transpose is symmetric. -/
theorem isSymmetric_symmetrize {p : Pattern} (hp : p.Valid) (h : p.symmetrize = .ok q) :
    q.Valid ∧ q.isSymmetric = true := by
  have hsquare : p.nrow = p.ncol := by
    rw [symmetrize] at h
    split at h
    · next hsquare => simpa [isSquare] using hsquare
    · cases h
  obtain ⟨r, hr, hhas, hsymm⟩ := hp.symmetrize hsquare
  obtain rfl : r = q := Except.ok.inj (hr.symm.trans h)
  exact ⟨hhas.valid, hsymm⟩

end Pattern

namespace Detect

open Pattern (Mirrors)

/-! ### Refinement with mirrors -/

section Lanes

variable {s : Split} {l : Lanes}

theorem mirrors_decode (l : Lanes) (s : Split) (sens : Array Word) : Mirrors (l.decode s true sens) := by
  intro a b h
  simp only [Lanes.decode, Array.mem_flatMap, List.mem_toArray, List.mem_flatMap] at h ⊢
  obtain ⟨coarse, hcoarse, i, hi, lane, hlane, h⟩ := h
  refine ⟨coarse, hcoarse, i, hi, lane, hlane, ?_⟩
  cases hl : l.owner[(coarse, lane)]? with
  | none => simp [hl] at h
  | some owner =>
    cases owner with
    | none => simp [hl] at h
    | some seed =>
      simp only [hl, if_true, List.mem_cons, List.not_mem_nil, or_false, Prod.mk.injEq] at h ⊢
      exact h.symm.imp And.symm And.symm

theorem mirrors_flush (p : Propagation σ) (dir : Direction) (h : Mirrors l.found) (st : σ) :
    Mirrors (l.flush p dir s true st).1.found := by
  rw [Lanes.flush_run]
  split
  · exact h
  · exact h.append (mirrors_decode l s _)

theorem mirrors_takeLane (p : Propagation σ) (dir : Direction) (dependents : Pattern) (members : Array Nat)
    (h : Mirrors l.found) (j : Nat) (st : σ) :
    Mirrors (l.takeLane p dir s true dependents members j st).1.found := by
  have hroom : Mirrors (if l.used = Word.size then l.flush p dir s true st else (l, st)).1.found := by
    split
    · exact mirrors_flush p dir h st
    · exact h
  rw [Lanes.takeLane_run]
  generalize (if l.used = Word.size then l.flush p dir s true st else (l, st)) = r at hroom ⊢
  obtain ⟨seed, owner, he⟩ := r.1.foldl_assign_eq s dependents j members.toList
  dsimp only
  rw [he]
  exact hroom

end Lanes

variable {s : Propagation σ} {p q : Pattern} {st st' : σ}

/-- Whatever the coloring of the blocks and the answers to the sweeps. -/
theorem mirrors_refine (s : Propagation σ) (dir : Direction) (coarse seeds : Pattern)
    (seedBounds sensBounds : List Nat) (st : σ) :
    Mirrors (refine s dir true coarse seeds seedBounds sensBounds st).1.found := by
  rw [refine_eq]
  refine mirrors_flush s dir ?_ _
  refine foldlM_state (fun _ (l : Lanes) _ => Mirrors l.found) (fun _ job l st h => ?_) _ [] _ st ?_
  · exact mirrors_takeLane s dir coarse.transpose job.1 h job.2 st
  · intro a b h
    simp [Lanes.start] at h

/-- Each round makes the pattern of the pairs that it lists with their mirrors. -/
theorem symmetricRounds_symmetric (fuel : Nat) {bounds : List Nat} (hp : p.Valid ∧ p.isSymmetric = true)
    (h : (symmetricRounds s fuel bounds p).run st = (.ok q, st')) : q.Valid ∧ q.isSymmetric = true := by
  induction fuel generalizing bounds p st with
  | zero =>
    obtain rfl := Except.ok.inj (congrArg Prod.fst h)
    exact hp
  | succ fuel ih =>
    rw [symmetricRounds] at h
    obtain ⟨r, t, hr, h⟩ := exists_of_run_bind h
    obtain rfl : (refine s .forward true p (starSeeds p) bounds bounds st).1 = r := Except.ok.inj (congrArg Prod.fst hr)
    obtain ⟨p', t', hp', h⟩ := exists_of_run_bind h
    have hmade : Pattern.ofEntries? _ _ _ = .ok p' := congrArg Prod.fst hp'
    have hnext : p'.Valid ∧ p'.isSymmetric = true := ⟨Pattern.valid_of_ofEntries? hmade,
      Pattern.isSymmetric_of_ofEntries? hmade (mirrors_refine s .forward p (starSeeds p) bounds bounds st)⟩
    split at h
    · obtain rfl := Except.ok.inj (congrArg Prod.fst h)
      exact hnext
    · exact ih hnext h

theorem hierarchicalSymmetric_symmetric (hsquare : s.nnzIn = s.nnzOut)
    (h : (hierarchicalSymmetric s).run st = (.ok q, st')) : q.Valid ∧ q.isSymmetric = true := by
  unfold hierarchicalSymmetric at h
  rw [if_neg (fun hne => hne hsquare)] at h
  split at h
  · obtain rfl := Except.ok.inj (congrArg Prod.fst h)
    have hempty : Pattern.empty 0 0 = .dense 0 0 := by
      simpa using empty_eq (Pattern.valid_dense 0 0) (.inr rfl)
    rw [hempty]
    exact ⟨Pattern.valid_dense 0 0, Pattern.isSymmetric_dense 0⟩
  · exact symmetricRounds_symmetric s.nnzIn ⟨Pattern.valid_dense 1 1, Pattern.isSymmetric_dense 1⟩ h

/-! ### Detectors without mirrors -/

theorem plain_valid {mode : AdMode} (h : (plain s mode).run st = (.ok q, st')) : q.Valid := by
  unfold plain at h
  obtain ⟨found, t, -, h⟩ := exists_of_run_bind h
  have hmade : Pattern.ofEntries? s.nnzOut s.nnzIn found = .ok q := congrArg Prod.fst h
  exact Pattern.valid_of_ofEntries? hmade

theorem refineGrid_valid {dir : Direction} {g g' : Grid} (h : (refineGrid s dir g).run st = (.ok g', st')) :
    g'.pattern.Valid := by
  cases dir with
  | forward =>
    obtain ⟨r, t, -, h⟩ := exists_of_run_bind h
    have hmade : Grid.ofRefinement .forward r = .ok g' := congrArg Prod.fst h
    obtain ⟨p, hp, hg⟩ := exists_of_bind_eq_ok hmade
    obtain rfl := Except.ok.inj hg
    exact Pattern.valid_of_ofEntries? hp
  | reverse =>
    obtain ⟨r, t, -, h⟩ := exists_of_run_bind h
    have hmade : Grid.ofRefinement .reverse r = .ok g' := congrArg Prod.fst h
    obtain ⟨p, hp, hg⟩ := exists_of_bind_eq_ok hmade
    obtain rfl := Except.ok.inj hg
    exact Pattern.valid_of_ofEntries? hp

theorem hierarchicalRounds_valid {mode : AdMode} {penalty : Nat} (fuel : Nat) {g g' : Grid} (hg : g.pattern.Valid)
    (h : (hierarchicalRounds s mode penalty fuel g).run st = (.ok g', st')) : g'.pattern.Valid := by
  induction fuel generalizing g st with
  | zero =>
    obtain rfl := Except.ok.inj (congrArg Prod.fst h)
    exact hg
  | succ fuel ih =>
    rw [hierarchicalRounds] at h
    obtain ⟨next, t, hnext, h⟩ := exists_of_run_bind h
    split at h
    · obtain rfl := Except.ok.inj (congrArg Prod.fst h)
      exact refineGrid_valid hnext
    · exact ih (refineGrid_valid hnext) h

theorem hierarchical_valid {mode : AdMode} {penalty : Nat} (h : (hierarchical s mode penalty).run st = (.ok q, st')) :
    q.Valid := by
  unfold hierarchical at h
  split at h
  · obtain rfl := Except.ok.inj (congrArg Prod.fst h)
    exact Pattern.valid_ofRows (by simp) (by simp)
  · obtain ⟨g, t, hrounds, h⟩ := exists_of_run_bind h
    obtain rfl := Except.ok.inj (congrArg Prod.fst h)
    exact hierarchicalRounds_valid _ (Pattern.valid_dense 1 1) hrounds

/-- On a square block a symmetric request gives a symmetric pattern, whatever the settings. -/
theorem jacobian_symmetric {o : Settings} (hsquare : s.nnzIn = s.nnzOut)
    (h : (Detect.jacobian s o true).run st = (.ok q, st')) : q.Valid ∧ q.isSymmetric = true := by
  unfold Detect.jacobian at h
  split at h
  · obtain rfl := Except.ok.inj (congrArg Prod.fst h)
    rw [hsquare]
    exact ⟨Pattern.valid_dense _ _, Pattern.isSymmetric_dense _⟩
  · dsimp only at h
    split at h
    · exact hierarchicalSymmetric_symmetric hsquare h
    -- Both other detectors end with the union.
    have hunite {p : Pattern} {t : σ} (hp : p.Valid)
        (h : (if (true && s.nnzIn == s.nnzOut) = true then liftM p.symmetrize else pure p :
          ExceptT Fault (StateM σ) Pattern).run t = (.ok q, st')) : q.Valid ∧ q.isSymmetric = true := by
      rw [if_pos (by simp [hsquare])] at h
      exact Pattern.isSymmetric_symmetrize hp (congrArg Prod.fst h)
    split at h
    · obtain ⟨p, t, hp, h⟩ := exists_of_run_bind h
      exact hunite (hierarchical_valid hp) h
    · obtain ⟨p, t, hp, h⟩ := exists_of_run_bind h
      exact hunite (plain_valid hp) h

end Detect

end Fluxion
