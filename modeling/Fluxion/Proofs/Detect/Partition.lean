import Mathlib.Data.List.Sort
import Fluxion.Detect.Blocks
import Fluxion.Proofs.Detect.Words

/-!
Blocks partition the indices. Splitting them keeps every boundary, so a block is a run of its parts, and
some block is split as long as one has more than one index.
-/
set_option autoImplicit false

namespace Fluxion.Detect

def InBlock (bounds : List Nat) (i x : Nat) : Prop := bounds.getD i 0 ≤ x ∧ x < bounds.getD (i+1) 0

instance (bounds : List Nat) (i x : Nat) : Decidable (InBlock bounds i x) := inferInstanceAs (Decidable (_ ∧ _))

theorem InBlock.lt_length {bounds : List Nat} {i x : Nat} (h : InBlock bounds i x) :
    i+1 < bounds.length := by
  by_contra hn
  have hx := h.2
  simp [List.getD_eq_getElem?_getD, List.getElem?_eq_none (Nat.le_of_not_lt hn)] at hx

/-- Some block holds an index that lies between two boundaries. -/
theorem exists_inBlock_of_lt {bounds : List Nat} {x : Nat} (h0 : bounds.getD 0 0 ≤ x) (k : Nat)
    (hk : x < bounds.getD k 0) : ∃ i, InBlock bounds i x := by
  induction k with
  | zero => omega
  | succ k ih =>
    by_cases hlt : x < bounds.getD k 0
    · exact ih hlt
    · exact ⟨k, Nat.le_of_not_lt hlt, hk⟩

section Increasing

variable {bounds : List Nat} (h : bounds.Pairwise (· < ·))
include h

theorem getD_lt_getD {i j : Nat} (hij : i < j) (hj : j < bounds.length) : bounds.getD i 0 < bounds.getD j 0 := by
  have hp := List.pairwise_iff_getElem.mp h i j (by omega) hj hij
  have hi : i < bounds.length := by omega
  simpa [List.getD_eq_getElem?_getD, hi, hj] using hp

theorem getD_le_getD {i j : Nat} (hij : i ≤ j) (hj : j < bounds.length) : bounds.getD i 0 ≤ bounds.getD j 0 := by
  rcases Nat.eq_or_lt_of_le hij with rfl | hlt
  · exact Nat.le_refl _
  · exact Nat.le_of_lt (getD_lt_getD h hlt hj)

/-- Blocks do not overlap. -/
theorem InBlock.unique {i j x : Nat} (hi : InBlock bounds i x) (hj : InBlock bounds j x) : i = j := by
  have general (i j : Nat) (hi : InBlock bounds i x) (hj : InBlock bounds j x) : ¬ i < j := by
    intro hij
    have hle := getD_le_getD h (i := i+1) (j := j) hij (Nat.lt_of_succ_lt hj.lt_length)
    have hx := hi.2
    have hy := hj.1
    omega
  have hij := general i j hi hj
  have hji := general j i hj hi
  omega

theorem InBlock.lt_getLastD {i x : Nat} (hi : InBlock bounds i x) : x < bounds.getLastD 0 := by
  have hlength := hi.lt_length
  have hle := getD_le_getD h (i := i+1) (j := bounds.length - 1) (by omega) (by omega)
  have hlast : bounds.getD (bounds.length - 1) 0 = bounds.getLastD 0 := by
    rw [List.getD_eq_getElem?_getD, List.getLastD_eq_getLast?, List.getLast?_eq_getElem?]
  exact Nat.lt_of_lt_of_le hi.2 (hlast ▸ hle)

/-- No block is empty. -/
theorem inBlock_getD {i : Nat} (hi : i+1 < bounds.length) : InBlock bounds i (bounds.getD i 0) :=
  ⟨Nat.le_refl _, getD_lt_getD h (Nat.lt_add_one i) hi⟩

end Increasing

/-- Boundaries of blocks of the indices below `n`. -/
structure Bounds (n : Nat) (bounds : List Nat) : Prop where
  head : bounds.head? = some 0
  last : bounds.getLast? = some n
  strict : bounds.Pairwise (· < ·)

namespace Bounds

variable {n : Nat} {bounds : List Nat}

theorem two (h : 0 < n) : Bounds n [0,n] where
  head := rfl
  last := rfl
  strict := by simpa using h

theorem length_pos (h : Bounds n bounds) : 0 < bounds.length := by
  rcases bounds with - | ⟨b, bounds⟩
  · cases h.head
  · simp

theorem getD_zero (h : Bounds n bounds) : bounds.getD 0 0 = 0 := by
  rcases bounds with - | ⟨b, bounds⟩
  · rfl
  · simpa using h.head

theorem getD_last (h : Bounds n bounds) : bounds.getD (bounds.length - 1) 0 = n := by
  have hl := h.last
  rw [List.getLast?_eq_getElem?] at hl
  simp [List.getD_eq_getElem?_getD, hl]

theorem lt (h : Bounds n bounds) {i j : Nat} (hij : i < j) (hj : j < bounds.length) :
    bounds.getD i 0 < bounds.getD j 0 := getD_lt_getD h.strict hij hj

theorem le (h : Bounds n bounds) {i j : Nat} (hij : i ≤ j) (hj : j < bounds.length) :
    bounds.getD i 0 ≤ bounds.getD j 0 := getD_le_getD h.strict hij hj

theorem le_last (h : Bounds n bounds) {i : Nat} : bounds.getD i 0 ≤ n := by
  by_cases hi : i < bounds.length
  · have hl := h.le (i := i) (j := bounds.length - 1) (by omega) (by omega)
    rwa [h.getD_last] at hl
  · simp [List.getD_eq_getElem?_getD, List.getElem?_eq_none (Nat.le_of_not_lt hi)]

theorem inBlock_lt (h : Bounds n bounds) {i x : Nat} (hx : InBlock bounds i x) : x < n :=
  Nat.lt_of_lt_of_le hx.2 h.le_last

theorem getD_gap (h : Bounds n bounds) {i j : Nat} (hij : i ≤ j) (hj : j < bounds.length) :
    bounds.getD i 0 + (j-i) ≤ bounds.getD j 0 := by
  induction j with
  | zero => simp [Nat.le_zero.mp hij]
  | succ j ih =>
    rcases Nat.eq_or_lt_of_le hij with rfl | hlt
    · simp
    · have hs := ih (by omega) (by omega)
      have hl := h.lt (Nat.lt_add_one j) hj
      omega

theorem length_le (h : Bounds n bounds) : bounds.length ≤ n+1 := by
  have hg := h.getD_gap (i := 0) (j := bounds.length - 1) (by omega) (by have := h.length_pos; omega)
  rw [h.getD_last, h.getD_zero] at hg
  omega

/-- With a boundary at every index, each index is a block of its own. -/
theorem getD_of_length (h : Bounds n bounds) (hl : bounds.length = n+1) {i : Nat} (hi : i ≤ n) :
    bounds.getD i 0 = i := by
  have hlow := h.getD_gap (i := 0) (j := i) (by omega) (by omega)
  have hhigh := h.getD_gap (i := i) (j := bounds.length - 1) (by omega) (by omega)
  rw [h.getD_last] at hhigh
  rw [h.getD_zero] at hlow
  omega

theorem inBlock_of_length (h : Bounds n bounds) (hl : bounds.length = n+1) {i x : Nat} (hx : x < n) :
    InBlock bounds i x ↔ i = x := by
  have hself : InBlock bounds x x := by
    unfold InBlock
    rw [h.getD_of_length hl (by omega), h.getD_of_length hl (by omega)]
    omega
  constructor
  · intro hi
    exact hi.unique h.strict hself
  · rintro rfl
    exact hself

end Bounds

theorem partSize_pos (n : Nat) : 0 < partSize n := by
  simp [partSize]

theorem sub_one_mul_lt {d step : Nat} (hd : 0 < d) (hs : 0 < step) : (ceilDiv d step - 1)*step < d := by
  have hpos : 0 < ceilDiv d step := (lt_ceilDiv_iff hs).mpr (by omega)
  exact (lt_ceilDiv_iff hs).mp (by omega)

/-- The parts of a block end at increasing boundaries after its first index and up to its last. -/
theorem parts_strict {lo hi : Nat} (h : lo < hi) :
    (parts lo hi).Pairwise (· < ·) ∧ ∀ x ∈ parts lo hi, lo < x ∧ x ≤ hi := by
  have hs := partSize_pos (hi-lo)
  have hlt := sub_one_mul_lt (d := hi-lo) (by omega) hs
  unfold parts
  dsimp only
  generalize partSize (hi-lo) = step at hs hlt ⊢
  generalize ceilDiv (hi-lo) step - 1 = k at hlt ⊢
  -- All boundaries but the last are multiples of the step, and below the end.
  have hin (j : Nat) (hj : j < k) : lo < lo+(j+1)*step ∧ lo+(j+1)*step < hi := by
    have hmul : (j+1)*step ≤ k*step := Nat.mul_le_mul_right step hj
    have hpos : 0 < (j+1)*step := Nat.mul_pos (Nat.succ_pos j) hs
    omega
  constructor
  · rw [List.pairwise_append]
    refine ⟨?_, by simp, ?_⟩
    · rw [List.pairwise_map]
      refine List.pairwise_lt_range.imp ?_
      intro i j hij
      have hmul : (i+1)*step < (j+1)*step := Nat.mul_lt_mul_of_pos_right (by omega) hs
      omega
    · intro x hx y hy
      obtain ⟨j, hj, rfl⟩ := List.mem_map.mp hx
      rw [List.mem_singleton.mp hy]
      exact (hin j (List.mem_range.mp hj)).2
  · intro x hx
    rcases List.mem_append.mp hx with hx | hx
    · obtain ⟨j, hj, rfl⟩ := List.mem_map.mp hx
      have hj' := hin j (List.mem_range.mp hj)
      omega
    · rw [List.mem_singleton.mp hx]
      exact ⟨h, Nat.le_refl _⟩

theorem parts_ne_nil (lo hi : Nat) : parts lo hi ≠ [] := by
  simp [parts]

theorem getLast?_parts (lo hi : Nat) : (parts lo hi).getLast? = some hi := by
  simp [parts]

theorem length_parts {lo hi : Nat} (h : lo+1 < hi) : 1 < (parts lo hi).length := by
  have hs := partSize_pos (hi-lo)
  have hsize : partSize (hi-lo) < hi-lo := by
    simp [partSize, ceilDiv, Word.size]
    omega
  have hc : 2 ≤ ceilDiv (hi-lo) (partSize (hi-lo)) := by
    rw [ceilDiv, Nat.le_div_iff_mul_le hs]
    omega
  simp [parts]
  omega

theorem subdivideAfter_strict {lo : Nat} {bounds : List Nat} (h : (lo :: bounds).Pairwise (· < ·)) :
    (lo :: subdivideAfter lo bounds).Pairwise (· < ·) := by
  induction bounds generalizing lo with
  | nil => simp [subdivideAfter]
  | cons hi bounds ih =>
    obtain ⟨hlo, hrest⟩ := List.pairwise_cons.mp h
    obtain ⟨hp, hin⟩ := parts_strict (hlo hi (by simp))
    obtain ⟨hhi, hsub⟩ := List.pairwise_cons.mp (ih hrest)
    rw [subdivideAfter, List.pairwise_cons]
    constructor
    · intro x hx
      rcases List.mem_append.mp hx with hx | hx
      · exact (hin x hx).1
      · exact Nat.lt_trans (hlo hi (by simp)) (hhi x hx)
    · refine List.pairwise_append.mpr ⟨hp, hsub, ?_⟩
      intro x hx y hy
      exact Nat.lt_of_le_of_lt (hin x hx).2 (hhi y hy)

theorem getLast?_subdivideAfter (lo : Nat) (bounds : List Nat) :
    (lo :: subdivideAfter lo bounds).getLast? = (lo :: bounds).getLast? := by
  induction bounds generalizing lo with
  | nil => rfl
  | cons hi bounds ih =>
    have hn := parts_ne_nil lo hi
    have hl := getLast?_parts lo hi
    have hi' := ih hi
    rw [List.getLast?_cons_cons, subdivideAfter, ← hi']
    rw [List.getLast?_cons, List.getLast?_cons, List.getLast?_append, hl]
    cases (subdivideAfter hi bounds).getLast? <;> simp

theorem sublist_subdivideAfter (lo : Nat) (bounds : List Nat) :
    bounds.Sublist (subdivideAfter lo bounds) := by
  induction bounds generalizing lo with
  | nil => exact List.Sublist.refl _
  | cons hi bounds ih =>
    have hp : [hi].Sublist (parts lo hi) := List.sublist_append_right _ _
    exact hp.append (ih hi)

theorem head?_subdivide (bounds : List Nat) : (subdivide bounds).head? = bounds.head? := by
  rcases bounds with - | ⟨lo, bounds⟩
  · rfl
  · rfl

theorem getLast?_subdivide (bounds : List Nat) : (subdivide bounds).getLast? = bounds.getLast? := by
  rcases bounds with - | ⟨lo, bounds⟩
  · rfl
  · exact getLast?_subdivideAfter lo bounds

theorem subdivide_strict {bounds : List Nat} (h : bounds.Pairwise (· < ·)) : (subdivide bounds).Pairwise (· < ·) := by
  rcases bounds with - | ⟨lo, bounds⟩
  · exact h
  · exact subdivideAfter_strict h

theorem bounds_subdivide {n : Nat} {bounds : List Nat} (h : Bounds n bounds) :
    Bounds n (subdivide bounds) :=
  ⟨(head?_subdivide bounds).trans h.head, (getLast?_subdivide bounds).trans h.last, subdivide_strict h.strict⟩

theorem sublist_subdivide (bounds : List Nat) : bounds.Sublist (subdivide bounds) := by
  rcases bounds with - | ⟨lo, bounds⟩
  · exact List.Sublist.refl _
  · exact (sublist_subdivideAfter lo bounds).cons_cons lo

/-- Without a new boundary, no block had more than one index. -/
theorem last_of_length_subdivideAfter {lo : Nat} {bounds : List Nat}
    (h : (lo :: bounds).Pairwise (· < ·))
    (hl : (subdivideAfter lo bounds).length = bounds.length) :
    (lo :: bounds).getLast? = some (lo+bounds.length) := by
  induction bounds generalizing lo with
  | nil => rfl
  | cons hi bounds ih =>
    obtain ⟨hlo, hrest⟩ := List.pairwise_cons.mp h
    have hge := (sublist_subdivideAfter hi bounds).length_le
    have hpos := List.length_pos_of_ne_nil (parts_ne_nil lo hi)
    rw [subdivideAfter, List.length_append, List.length_cons] at hl
    have hstep : hi = lo+1 := by
      by_contra hne
      have hlt := hlo hi (by simp)
      have hp : 1 < (parts lo hi).length := length_parts (by omega)
      omega
    have hi' := ih hrest (by omega)
    rw [List.getLast?_cons_cons, hi', List.length_cons, hstep]
    congr 1
    omega

/-- Blocks become more as long as one of them has more than one index. -/
theorem Bounds.length_lt_subdivide {n : Nat} {bounds : List Nat} (h : Bounds n bounds)
    (hn : bounds.length ≠ n+1) : bounds.length < (subdivide bounds).length := by
  rcases bounds with - | ⟨lo, bounds⟩
  · cases h.head
  · have hle := (sublist_subdivideAfter lo bounds).length_le
    rcases Nat.eq_or_lt_of_le hle with he | hlt
    · have hl := last_of_length_subdivideAfter h.strict he.symm
      rw [h.last] at hl
      have hlo : lo = 0 := by simpa using h.head
      have hl' : n = lo+bounds.length := by simpa using hl
      exact absurd (by simp; omega) hn
    · simpa [subdivide] using hlt

theorem sublist_dropWhile {c : Nat} {cs xs : List Nat} (h : (c :: cs).Sublist xs) :
    ∃ rest, xs.dropWhile (· ≠ c) = c :: rest ∧ cs.Sublist rest := by
  induction xs with
  | nil => cases h
  | cons x xs ih =>
    by_cases hx : x = c
    · subst hx
      exact ⟨xs, by simp, List.Sublist.of_cons_cons h⟩
    · have hs : (c :: cs).Sublist xs := by
        cases h with
        | cons _ h => exact h
        | cons_cons _ h => exact absurd rfl hx
      obtain ⟨rest, he, hr⟩ := ih hs
      exact ⟨rest, by simpa [hx] using he, hr⟩

theorem positions_spec {coarse : List Nat} {fine : List (Nat × Nat)}
    (h : coarse.Sublist (fine.map (·.1))) :
    List.Forall₂ (fun c j => (c,j) ∈ fine) coarse (positions coarse fine) := by
  induction coarse generalizing fine with
  | nil => exact .nil
  | cons c cs ih =>
    obtain ⟨rest, he, hr⟩ := sublist_dropWhile h
    rw [List.dropWhile_map] at he
    change List.map (·.1) (fine.dropWhile fun e => decide (e.1 ≠ c)) = c :: rest at he
    have hsub := List.dropWhile_sublist (fun e : Nat × Nat => decide (e.1 ≠ c)) (l := fine)
    rw [positions]
    cases hd : fine.dropWhile (fun e => decide (e.1 ≠ c)) with
    | nil =>
      rw [hd] at he
      cases he
    | cons e rest' =>
      obtain ⟨b, j⟩ := e
      rw [hd] at he hsub
      obtain ⟨rfl, rfl⟩ := List.cons.inj he
      refine .cons (hsub.mem (by simp)) ?_
      have hmap : cs.Sublist (((b,j) :: rest').map (·.1)) := by simpa using hr.cons b
      have hi := ih hmap
      exact hi.imp fun a k hk => hsub.mem hk

/-- Where the boundaries of the coarse blocks stand among the fine ones. -/
structure Refines (coarse fine first : List Nat) : Prop where
  length : first.length = coarse.length
  lt : ∀ i, i < coarse.length → first.getD i 0 < fine.length
  get : ∀ i, i < coarse.length → fine.getD (first.getD i 0) 0 = coarse.getD i 0

theorem refines_firstFine {coarse fine : List Nat} (h : coarse.Sublist fine) :
    Refines coarse fine (firstFine coarse fine) := by
  have hmap : coarse.Sublist (fine.zipIdx.map (·.1)) := by simpa using h
  have hf := positions_spec hmap
  have hl := hf.length_eq
  have hget (i : Nat) (hi : i < coarse.length) :
      fine[(firstFine coarse fine).getD i 0]? = some (coarse.getD i 0) := by
    have hi' : i < (positions coarse fine.zipIdx).length := by omega
    have hm := List.Forall₂.get hf hi hi'
    rw [List.mem_zipIdx_iff_getElem?] at hm
    simpa [firstFine, List.getD_eq_getElem?_getD, hi, hi'] using hm
  refine ⟨hl.symm, ?_, ?_⟩
  · intro i hi
    exact (List.getElem?_eq_some_iff.mp (hget i hi)).1
  · intro i hi
    rw [List.getD_eq_getElem?_getD, hget i hi]
    rfl

namespace Refines

variable {coarse fine first : List Nat}

theorem getElem? (h : Refines coarse fine first) {i : Nat} (hi : i < coarse.length) :
    fine[first.getD i 0]? = some (coarse.getD i 0) := by
  rw [← h.get i hi, List.getD_eq_getElem?_getD (l := fine), List.getElem?_eq_getElem (h.lt i hi)]
  rfl

/-- A coarse block is the run of fine blocks between its two boundaries. -/
theorem inBlock_iff (h : Refines coarse fine first) (hf : fine.Pairwise (· < ·)) {i k x : Nat}
    (hi : i+1 < coarse.length) (hx : InBlock fine k x) :
    InBlock coarse i x ↔ first.getD i 0 ≤ k ∧ k < first.getD (i+1) 0 := by
  have hlo := h.get i (by omega)
  have hhi := h.get (i+1) hi
  have hb := h.lt (i+1) hi
  have ha := h.lt i (by omega)
  have hk := hx.lt_length
  unfold InBlock
  rw [← hlo, ← hhi]
  constructor
  · rintro ⟨h₁, h₂⟩
    constructor
    · by_contra hlt
      have hle := getD_le_getD hf (i := k+1) (j := first.getD i 0) (by omega) ha
      have hx := hx.2
      omega
    · by_contra hge
      have hle := getD_le_getD hf (i := first.getD (i+1) 0) (j := k) (by omega) (by omega)
      have hx := hx.1
      omega
  · rintro ⟨h₁, h₂⟩
    constructor
    · exact Nat.le_trans (getD_le_getD hf h₁ (by omega)) hx.1
    · exact Nat.lt_of_lt_of_le hx.2 (getD_le_getD hf (i := k+1) h₂ hb)

theorem part_lt (h : Refines coarse fine first) {i k : Nat} (hi : i+1 < coarse.length)
    (hk : k < first.getD (i+1) 0) : k+1 < fine.length := by
  have hl := h.lt (i+1) hi
  omega

end Refines

/-- Part `j` of block `m`, as a fine block. -/
def part (bounds : List Nat) (m j : Nat) : Nat := (firstFine bounds (subdivide bounds)).getD m 0 + j

def partCount (bounds : List Nat) (m : Nat) : Nat :=
  (firstFine bounds (subdivide bounds)).getD (m+1) 0 - (firstFine bounds (subdivide bounds)).getD m 0

section Parts

variable {bounds : List Nat} {m j : Nat}

/-- Every fine block is a part of a coarse one. -/
theorem exists_coarse (h : bounds.Pairwise (· < ·)) {k : Nat} (hk : k+1 < (subdivide bounds).length) :
    ∃ i, i+1 < bounds.length ∧ (firstFine bounds (subdivide bounds)).getD i 0 ≤ k ∧
      k < (firstFine bounds (subdivide bounds)).getD (i+1) 0 := by
  have hf := subdivide_strict h
  have hm := inBlock_getD hf hk
  have hlo := getD_le_getD hf (Nat.zero_le k) (by omega)
  have hhi := getD_lt_getD hf (i := k) (j := (subdivide bounds).length - 1) (by omega) (by omega)
  have hzero : (subdivide bounds).getD 0 0 = bounds.getD 0 0 := by
    simp [List.getD_eq_getElem?_getD, ← List.head?_eq_getElem?, head?_subdivide]
  have hlast : (subdivide bounds).getD ((subdivide bounds).length - 1) 0 = bounds.getD (bounds.length - 1) 0 := by
    simp [List.getD_eq_getElem?_getD, ← List.getLast?_eq_getElem?, getLast?_subdivide]
  rw [hzero] at hlo
  rw [hlast] at hhi
  obtain ⟨i, hi⟩ := exists_inBlock_of_lt hlo _ hhi
  exact ⟨i, hi.lt_length,
    ((refines_firstFine (sublist_subdivide bounds)).inBlock_iff hf hi.lt_length hm).mp hi⟩

theorem part_lt (hm : m+1 < bounds.length) (hj : j < partCount bounds m) :
    part bounds m j + 1 < (subdivide bounds).length := by
  have hr := refines_firstFine (sublist_subdivide bounds)
  apply hr.part_lt hm
  unfold part
  unfold partCount at hj
  omega

theorem inBlock_of_part (h : bounds.Pairwise (· < ·)) (hm : m+1 < bounds.length) (hj : j < partCount bounds m)
    {x : Nat} (hx : InBlock (subdivide bounds) (part bounds m j) x) : InBlock bounds m x := by
  have hr := refines_firstFine (sublist_subdivide bounds)
  apply (hr.inBlock_iff (subdivide_strict h) hm hx).mpr
  unfold part
  unfold partCount at hj
  omega

theorem exists_part (h : bounds.Pairwise (· < ·)) {k : Nat} (hk : k+1 < (subdivide bounds).length) :
    ∃ m j, m+1 < bounds.length ∧ j < partCount bounds m ∧ k = part bounds m j := by
  obtain ⟨m, hm, hlo, hhi⟩ := exists_coarse h hk
  refine ⟨m, k - (firstFine bounds (subdivide bounds)).getD m 0, hm, ?_, ?_⟩
  · unfold partCount
    omega
  · unfold part
    omega

end Parts

end Fluxion.Detect
