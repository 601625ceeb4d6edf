import Mathlib.Data.List.Induction
import Fluxion.Detect.Refine
import Fluxion.Proofs.Coloring.Columns
import Fluxion.Proofs.Detect.Partition
import Fluxion.Proofs.Detect.Words

/-!
What the lanes hold between two sweeps. A lane carries one part of every block of a color. In the eyes of a
sensitivity block its owner is the part that reaches the block, as long as there is only one.
-/
set_option autoImplicit false

namespace Fluxion.Detect

/-- What the steps of a loop keep, of the value and of the state. -/
theorem foldlM_state {σ α β : Type} {f : β → α → StateM σ β} (I : List α → β → σ → Prop)
    (step : ∀ done x b st, I done b st → I (done ++ [x]) (f b x st).1 (f b x st).2) (xs done : List α) (b : β)
    (st : σ) (h : I done b st) : I (done ++ xs) (xs.foldlM f b st).1 (xs.foldlM f b st).2 := by
  induction xs generalizing done b st with
  | nil =>
    rw [List.append_nil]
    exact h
  | cons x xs ih =>
    have hs := ih (done ++ [x]) (f b x st).1 (f b x st).2 (step done x b st h)
    rw [List.append_assoc] at hs
    exact hs

/-- Some index of block `a` depends on some index of block `m`. -/
def Linked (q : Pattern) (sensBounds seedBounds : List Nat) (a m : Nat) : Prop :=
  ∃ r c, (r,c) ∈ q.entries ∧ InBlock sensBounds a r ∧ InBlock seedBounds m c

/-- The blocks cut both sides, and a coarse pattern is over them. -/
structure Cut (q coarse : Pattern) (seedBounds sensBounds : List Nat) : Prop where
  seed : Bounds q.ncol seedBounds
  sens : Bounds q.nrow sensBounds
  valid : coarse.Valid
  nrow : coarse.nrow+1 = sensBounds.length
  ncol : coarse.ncol+1 = seedBounds.length

/-- Every linked pair of blocks is an entry of the coarse pattern. -/
structure Covering (q coarse : Pattern) (seedBounds sensBounds : List Nat) : Prop
    extends Cut q coarse seedBounds sensBounds where
  covers : ∀ a m, Linked q sensBounds seedBounds a m → (a,m) ∈ coarse.entries

/-- The owner of a lane after one more part has claimed it. -/
def claimed (owner : Option (Option Nat)) (fine : Nat) : Option Nat :=
  match owner with
  | none => some fine
  | some o => if o = some fine then o else none

theorem claimed_claimed (owner : Option (Option Nat)) (fine : Nat) :
    claimed (some (claimed owner fine)) fine = claimed owner fine := by
  obtain - | o := owner
  · simp [claimed]
  · by_cases h : o = some fine <;> simp [claimed, h]

namespace Lanes

/-- No lane is taken. -/
def start (n : Nat) : Lanes := ⟨.replicate n 0, ∅, 0, #[], 0⟩

theorem foldl_claim (l : Lanes) (dependents : List Nat) (fine : Nat) :
    dependents.foldl (fun l a => l.claim a l.used fine) l =
      {l with owner := (dependents.foldl (fun l' a => l'.claim a l.used fine) l).owner} := by
  induction dependents generalizing l with
  | nil => rfl
  | cons a dependents ih =>
    rw [List.foldl_cons, ih]
    rfl

theorem owner_foldl_claim (dependents : List Nat) (l : Lanes) (lane fine a i : Nat) :
    (dependents.foldl (fun l a => l.claim a lane fine) l).owner[(a,i)]? =
      if i = lane ∧ a ∈ dependents then some (claimed l.owner[(a,lane)]? fine)
      else l.owner[(a,i)]? := by
  induction dependents generalizing l with
  | nil => simp
  | cons b dependents ih =>
    have hclaim : (l.claim b lane fine).owner[(a,lane)]? =
        if b = a then some (claimed l.owner[(a,lane)]? fine) else l.owner[(a,lane)]? := by
      rw [claim, Std.HashMap.getElem?_alter]
      by_cases hb : b = a
      · subst hb
        cases l.owner[(b,lane)]? <;> simp [claimed]
      · simp [hb]
    have hother (hi : i ≠ lane) : (l.claim b lane fine).owner[(a,i)]? = l.owner[(a,i)]? := by
      rw [claim, Std.HashMap.getElem?_alter]
      simp [Ne.symm hi]
    rw [List.foldl_cons, ih]
    by_cases hi : i = lane
    · subst hi
      rw [hclaim]
      by_cases hb : b = a
      · by_cases ha : a ∈ dependents <;> simp [hb, ha, claimed_claimed]
      · simp [hb, Ne.symm hb]
    · simp [hi, hother hi]

theorem size_foldl_modify (lo width : Nat) (bit : Word) (seed : Array Word) :
    ((List.range width).foldl (fun seed i => seed.modify (lo+i) (· ||| bit)) seed).size =
      seed.size := by
  induction width with
  | zero => rfl
  | succ width ih => rw [List.range_succ, List.foldl_append]; simpa using ih

theorem getD_foldl_modify (lo width : Nat) (bit : Word) (seed : Array Word) {c : Nat}
    (hc : c < seed.size) :
    ((List.range width).foldl (fun seed i => seed.modify (lo+i) (· ||| bit)) seed).getD c 0 =
      if lo ≤ c ∧ c < lo+width then seed.getD c 0 ||| bit else seed.getD c 0 := by
  induction width with
  | zero =>
    rw [if_neg (by omega)]
    rfl
  | succ width ih =>
    have hs := size_foldl_modify lo width bit seed
    rw [List.range_succ, List.foldl_append, List.foldl_cons, List.foldl_nil]
    generalize (List.range width).foldl (fun seed i => seed.modify (lo+i) (· ||| bit)) seed = next
      at ih hs ⊢
    have hc' : c < next.size := by omega
    by_cases he : lo+width = c
    · subst he
      rw [if_neg (by omega)] at ih
      rw [if_pos (by omega), ← ih]
      simp [Array.getD_eq_getD_getElem?, Array.getElem_modify, hc']
    · have hm : (next.modify (lo+width) (· ||| bit)).getD c 0 = next.getD c 0 := by
        simp [Array.getD_eq_getD_getElem?, Array.getElem?_modify, he]
      rw [hm, ih]
      by_cases hin : lo ≤ c ∧ c < lo+width
      · rw [if_pos hin, if_pos (by omega)]
      · rw [if_neg hin, if_neg (by omega)]

section Assign

variable (l : Lanes) (s : Split) (dependents : Array Nat) (m j : Nat)

theorem assign_eq : ∃ seed owner, l.assign s dependents m j = {l with seed, owner} ∧
    seed = (List.range (s.fineSeed.getD (s.firstSeed.getD m 0 + j + 1) 0 -
      s.fineSeed.getD (s.firstSeed.getD m 0 + j) 0)).foldl
        (fun seed i => seed.modify (s.fineSeed.getD (s.firstSeed.getD m 0 + j) 0 + i)
          (· ||| Word.bit l.used)) l.seed ∧
    owner = (dependents.toList.foldl
      (fun (l' : Lanes) a => l'.claim a l.used (s.firstSeed.getD m 0 + j)) {l with seed}).owner := by
  unfold assign
  dsimp only
  rw [← Array.foldl_toList, foldl_claim]
  exact ⟨_, _, rfl, rfl, rfl⟩

@[simp] theorem size_assign : (l.assign s dependents m j).seed.size = l.seed.size := by
  obtain ⟨seed, owner, he, rfl, -⟩ := l.assign_eq s dependents m j
  rw [he]
  exact size_foldl_modify _ _ _ _

theorem seed_assign {c : Nat} (hc : c < l.seed.size)
    (hle : s.fineSeed.getD (s.firstSeed.getD m 0 + j) 0 ≤
      s.fineSeed.getD (s.firstSeed.getD m 0 + j + 1) 0) :
    (l.assign s dependents m j).seed.getD c 0 =
      if s.fineSeed.getD (s.firstSeed.getD m 0 + j) 0 ≤ c ∧
          c < s.fineSeed.getD (s.firstSeed.getD m 0 + j + 1) 0 then
        l.seed.getD c 0 ||| Word.bit l.used
      else l.seed.getD c 0 := by
  obtain ⟨seed, owner, he, rfl, -⟩ := l.assign_eq s dependents m j
  rw [he]
  dsimp only
  rw [getD_foldl_modify _ _ _ _ hc, Nat.add_sub_cancel' hle]

/-- A seed of the part gets the bit of the lane in use. -/
theorem test_seed_assign {c lane : Nat} (hc : c < l.seed.size) (hu : l.used < Word.size)
    (hlane : lane < Word.size) (hle : s.fineSeed.getD (s.firstSeed.getD m 0 + j) 0 ≤
      s.fineSeed.getD (s.firstSeed.getD m 0 + j + 1) 0) :
    ((l.assign s dependents m j).seed.getD c 0).test lane = true ↔
      (l.seed.getD c 0).test lane = true ∨ lane = l.used ∧
        s.fineSeed.getD (s.firstSeed.getD m 0 + j) 0 ≤ c ∧
          c < s.fineSeed.getD (s.firstSeed.getD m 0 + j + 1) 0 := by
  rw [l.seed_assign s dependents m j hc hle]
  split
  · next hin =>
    rw [Word.test_or _ _ hlane, Bool.or_eq_true, Word.test_bit hu hlane, decide_eq_true_iff,
      and_iff_left hin, eq_comm (a := lane)]
  · next hout => rw [or_iff_left fun h => hout h.2]

theorem owner_assign (a i : Nat) :
    (l.assign s dependents m j).owner[(a,i)]? =
      if i = l.used ∧ a ∈ dependents then
        some (claimed l.owner[(a,l.used)]? (s.firstSeed.getD m 0 + j))
      else l.owner[(a,i)]? := by
  obtain ⟨seed, owner, he, -, rfl⟩ := l.assign_eq s dependents m j
  rw [he]
  dsimp only
  rw [owner_foldl_claim]
  simp only [Array.mem_toList_iff]

end Assign

/-- The parts of the members of a color change nothing but the seed and the owners. -/
theorem foldl_assign_eq (s : Split) (dependents : Pattern) (j : Nat) (members : List Nat) (l : Lanes) :
    ∃ seed owner, members.foldl (fun l m => if j < s.width m then l.assign s (dependents.row m) m j else l) l =
      {l with seed, owner} := by
  induction members generalizing l with
  | nil => exact ⟨l.seed, l.owner, rfl⟩
  | cons m members ih =>
    rw [List.foldl_cons]
    split
    · obtain ⟨seed, owner, he, -, -⟩ := l.assign_eq s (dependents.row m) m j
      rw [he]
      exact ih _
    · exact ih l

end Lanes

section Split

variable (seedBounds sensBounds : List Nat) (i : Nat)

theorem Split.fineSeed_of :
    (Split.of seedBounds sensBounds).fineSeed.getD i 0 = (subdivide seedBounds).getD i 0 := by
  simp [Split.of, List.getD_eq_getElem?_getD]

theorem Split.fineSens_of :
    (Split.of seedBounds sensBounds).fineSens.getD i 0 = (subdivide sensBounds).getD i 0 := by
  simp [Split.of, List.getD_eq_getElem?_getD]

theorem Split.firstSens_of : (Split.of seedBounds sensBounds).firstSens.getD i 0 =
    (firstFine sensBounds (subdivide sensBounds)).getD i 0 := by
  simp [Split.of, List.getD_eq_getElem?_getD]

theorem Split.firstSeed_of : (Split.of seedBounds sensBounds).firstSeed.getD i 0 =
    (firstFine seedBounds (subdivide seedBounds)).getD i 0 := by
  simp [Split.of, List.getD_eq_getElem?_getD]

theorem Split.part_of (j : Nat) :
    (Split.of seedBounds sensBounds).firstSeed.getD i 0 + j = part seedBounds i j := by
  rw [Split.firstSeed_of]
  rfl

theorem Split.width_of : (Split.of seedBounds sensBounds).width i = partCount seedBounds i := by
  rw [Split.width, Split.firstSeed_of, Split.firstSeed_of]
  rfl

@[simp] theorem Split.size_firstSens_of :
    (Split.of seedBounds sensBounds).firstSens.size = sensBounds.length := by
  simp [Split.of, (refines_firstFine (sublist_subdivide sensBounds)).length]

end Split

/-- The parts that share the lane of a color. -/
def Holds (bounds : List Nat) (job : Array Nat × Nat) (m j : Nat) : Prop :=
  m ∈ job.1 ∧ j = job.2 ∧ j < partCount bounds m

/-- One more member shares the lane if it has so many parts. -/
theorem exists_holds_snoc {bounds ms : List Nat} {m j : Nat} {P : Nat → Nat → Prop} :
    (∃ m' j', Holds bounds ((ms ++ [m]).toArray,j) m' j' ∧ P m' j') ↔
      (∃ m' j', Holds bounds (ms.toArray,j) m' j' ∧ P m' j') ∨ j < partCount bounds m ∧ P m j := by
  simp only [Holds, List.mem_toArray, List.mem_append, List.mem_singleton]
  constructor
  · rintro ⟨m', j', ⟨hm | rfl, rfl, hj⟩, hp⟩
    · exact .inl ⟨m', j', ⟨hm, rfl, hj⟩, hp⟩
    · exact .inr ⟨hj, hp⟩
  · rintro (⟨m', j', ⟨hm, hj⟩, hp⟩ | ⟨hj, hp⟩)
    · exact ⟨m', j', ⟨.inl hm, hj⟩, hp⟩
    · exact ⟨m, j, ⟨.inr rfl, rfl, hj⟩, hp⟩

/-- The owner of a lane after all the listed parts have claimed it. -/
def ownerOf (parts : List Nat) : Option (Option Nat) :=
  parts.foldl (fun owner k => some (claimed owner k)) none

/-- The parts in a lane that sensitivity block `a` depends on. -/
def claimants (coarse : Pattern) (bounds : List Nat) (job : Array Nat × Nat) (a : Nat) : List Nat :=
  (job.1.toList.filter fun m => job.2 < partCount bounds m ∧ (a,m) ∈ coarse.entries).map
    (part bounds · job.2)

/-- The one part that all claims are for. -/
theorem ownerOf_eq_some {parts : List Nat} {k : Nat} :
    ownerOf parts = some (some k) ↔ parts ≠ [] ∧ ∀ x ∈ parts, x = k := by
  have hclaimed (o : Option Nat) (x : Nat) : claimed (some o) x = some k ↔ o = some k ∧ x = k := by
    by_cases ho : o = some x
    · simp [claimed, ho]
    · simp only [claimed, if_neg ho, reduceCtorEq, false_iff]
      rintro ⟨rfl, rfl⟩
      exact ho rfl
  have general (xs : List Nat) (o : Option Nat) :
      xs.foldl (fun owner k => some (claimed owner k)) (some o) = some (some k) ↔
        o = some k ∧ ∀ x ∈ xs, x = k := by
    induction xs generalizing o with
    | nil => simp
    | cons x xs ih => rw [List.foldl_cons, ih, hclaimed, List.forall_mem_cons, and_assoc]
  cases parts with
  | nil => simp [ownerOf]
  | cons x xs =>
    have hstart : ownerOf (x :: xs) = xs.foldl (fun owner k => some (claimed owner k)) (some (some x)) := rfl
    simp [hstart, general]

theorem ownerOf_ne {parts : List Nat} (h : ∀ x ∈ parts, ∀ y ∈ parts, x = y) :
    ownerOf parts ≠ some none := by
  cases parts with
  | nil => simp [ownerOf]
  | cons x xs =>
    rw [ownerOf_eq_some.mpr ⟨by simp, fun y hy => h y hy x (by simp)⟩]
    simp

section Claimants

variable {coarse : Pattern} {bounds : List Nat} {a : Nat}

theorem mem_claimants {job : Array Nat × Nat} {k : Nat} : k ∈ claimants coarse bounds job a ↔
    ∃ m j, Holds bounds job m j ∧ (a,m) ∈ coarse.entries ∧ k = part bounds m j := by
  simp only [claimants, Holds, List.mem_map, List.mem_filter, Array.mem_toList_iff, decide_eq_true_eq]
  constructor
  · rintro ⟨m, ⟨hm, hj, he⟩, rfl⟩
    exact ⟨m, job.2, ⟨hm, rfl, hj⟩, he, rfl⟩
  · rintro ⟨m, j, ⟨hm, rfl, hj⟩, he, rfl⟩
    exact ⟨m, ⟨hm, hj, he⟩, rfl⟩

theorem ownerOf_claimants_snoc (ms : List Nat) (m j : Nat) :
    ownerOf (claimants coarse bounds ((ms ++ [m]).toArray, j) a) =
      if j < partCount bounds m ∧ (a,m) ∈ coarse.entries then
        some (claimed (ownerOf (claimants coarse bounds (ms.toArray, j) a)) (part bounds m j))
      else ownerOf (claimants coarse bounds (ms.toArray, j) a) := by
  by_cases h : j < partCount bounds m ∧ (a,m) ∈ coarse.entries
  · simp [claimants, ownerOf, h]
  · simp [claimants, ownerOf, h]

end Claimants

/-- Lane `i` is taken by the `i`-th of the colors. -/
structure Packing (coarse : Pattern) (bounds : List Nat) (n : Nat) (l : Lanes)
    (jobs : List (Array Nat × Nat)) : Prop where
  size : l.seed.size = n
  seed : ∀ c lane, c < n → lane < Word.size → ((l.seed.getD c 0).test lane = true ↔
    ∃ m j, Holds bounds (jobs.getD lane (#[],0)) m j ∧ InBlock (subdivide bounds) (part bounds m j) c)
  owner : ∀ a lane, l.owner[(a,lane)]? = ownerOf (claimants coarse bounds (jobs.getD lane (#[],0)) a)

theorem getD_snoc {α : Type} (xs : List α) (x d : α) (i : Nat) :
    (xs ++ [x]).getD i d = if i = xs.length then x else xs.getD i d := by
  rcases Nat.lt_trichotomy i xs.length with h | rfl | h
  · rw [List.getD_eq_getElem?_getD, List.getElem?_append_left h, if_neg (Nat.ne_of_lt h),
      List.getD_eq_getElem?_getD]
  · simp [List.getD_eq_getElem?_getD]
  · have h₁ : xs[i]? = none := List.getElem?_eq_none (by omega)
    have h₂ : (xs ++ [x])[i]? = none := List.getElem?_eq_none (by simp; omega)
    simp [List.getD_eq_getElem?_getD, h₁, h₂, (Nat.ne_of_lt h).symm]

namespace Packing

variable {coarse : Pattern} {bounds : List Nat} {n : Nat} {l : Lanes} {jobs : List (Array Nat × Nat)}

theorem of_empty (hs : l.seed.size = n) (hz : ∀ c, l.seed.getD c 0 = 0) (ho : l.owner = ∅) :
    Packing coarse bounds n l [] where
  size := hs
  seed c lane _ _ := by simp [hz, Holds]
  owner a lane := by simp [ho, claimants, ownerOf]

theorem start : Packing coarse bounds n (Lanes.start n) [] :=
  of_empty (by simp [Lanes.start])
    (fun c => by by_cases hc : c < n <;> simp [Lanes.start, Array.getD_eq_getD_getElem?, hc]) rfl

theorem snoc_nil (h : Packing coarse bounds n l jobs) (j : Nat) :
    Packing coarse bounds n l (jobs ++ [(#[],j)]) where
  size := h.size
  seed c lane hc hl := by
    rw [h.seed c lane hc hl, getD_snoc]
    split
    · next he => simp [he, Holds]
    · rfl
  owner a lane := by
    rw [h.owner a lane, getD_snoc]
    split
    · next he => simp [he, claimants, ownerOf]
    · rfl

/-- The next member of a color puts its part into the lane of the color, if it has so many parts. -/
theorem assign {ms : List Nat} {m j : Nat} (sensBounds : List Nat)
    (h : Packing coarse bounds n l (jobs ++ [(ms.toArray,j)])) (hb : bounds.Pairwise (· < ·))
    (hc : coarse.Valid) (hn : coarse.ncol+1 = bounds.length) (hu : l.used = jobs.length)
    (hlt : jobs.length < Word.size) (hm : m < coarse.ncol) :
    Packing coarse bounds n
      (if j < (Split.of bounds sensBounds).width m then
        l.assign (Split.of bounds sensBounds) (coarse.transpose.row m) m j else l)
      (jobs ++ [((ms ++ [m]).toArray,j)]) := by
  rw [Split.width_of]
  -- A block with fewer parts takes no lane in this turn, and the claims stay as they were.
  by_cases hj : j < partCount bounds m
  · rw [if_pos hj]
    have hlen : m+1 < bounds.length := by omega
    have hle := getD_lt_getD (subdivide_strict hb) (Nat.lt_add_one _) (part_lt hlen hj)
    rw [← Split.part_of, ← Split.fineSeed_of _ sensBounds, ← Split.fineSeed_of _ sensBounds] at hle
    refine ⟨by rw [Lanes.size_assign, h.size], fun c lane hc hlane => ?_, fun a lane => ?_⟩
    · rw [l.test_seed_assign _ _ m j (by rw [h.size]; exact hc) (by rw [hu]; exact hlt) hlane hle.le,
        h.seed c lane hc hlane, getD_snoc, getD_snoc, hu]
      by_cases hl : lane = jobs.length
      · simp only [hl, if_true, true_and, exists_holds_snoc, hj, Split.part_of, Split.fineSeed_of, InBlock]
      · simp only [hl, if_false, false_and, or_false]
    · rw [l.owner_assign, Split.part_of, hu, h.owner a, h.owner a]
      simp only [getD_snoc, hc.mem_row_transpose hm]
      by_cases hl : lane = jobs.length
      · simp only [hl, if_true, true_and, ownerOf_claimants_snoc, hj]
      · simp only [hl, if_false, false_and]
  · rw [if_neg hj]
    refine ⟨h.size, fun c lane hc hlane => ?_, fun a lane => ?_⟩
    · rw [h.seed c lane hc hlane, getD_snoc, getD_snoc]
      by_cases hl : lane = jobs.length
      · simp only [hl, if_true, exists_holds_snoc, hj, false_and, or_false]
      · simp only [hl, if_false]
    · rw [h.owner a lane, getD_snoc, getD_snoc]
      by_cases hl : lane = jobs.length
      · simp only [hl, if_true, ownerOf_claimants_snoc, hj, false_and, if_false]
      · simp only [hl, if_false]

/-- All members of a color put their parts into its lane. -/
theorem foldl_assign (sensBounds : List Nat) (h : Packing coarse bounds n l jobs) (hb : bounds.Pairwise (· < ·))
    (hc : coarse.Valid) (hn : coarse.ncol+1 = bounds.length) (hu : l.used = jobs.length)
    (hlt : jobs.length < Word.size) {members : Array Nat} (inside : ∀ m ∈ members, m < coarse.ncol) (j : Nat) :
    Packing coarse bounds n
      (members.toList.foldl (fun l m => if j < (Split.of bounds sensBounds).width m then
        l.assign (Split.of bounds sensBounds) (coarse.transpose.row m) m j else l) l)
      (jobs ++ [(members,j)]) := by
  have general (ms : List Nat) (hms : ∀ m ∈ ms, m < coarse.ncol) : Packing coarse bounds n
      (ms.foldl (fun l m => if j < (Split.of bounds sensBounds).width m then
        l.assign (Split.of bounds sensBounds) (coarse.transpose.row m) m j else l) l)
      (jobs ++ [(ms.toArray,j)]) := by
    induction ms using List.reverseRecOn with
    | nil => exact h.snoc_nil j
    | append_singleton ms m ih =>
      obtain ⟨seed, owner, he⟩ := l.foldl_assign_eq (Split.of bounds sensBounds) coarse.transpose j ms
      have hp := ih fun m' hm' => hms m' (List.mem_append_left _ hm')
      rw [List.foldl_append, List.foldl_cons, List.foldl_nil]
      rw [he] at hp ⊢
      exact hp.assign sensBounds hb hc hn hu hlt (hms m (by simp))
  exact general members.toList fun m hm => inside m (Array.mem_toList_iff.mp hm)

end Packing

end Fluxion.Detect
