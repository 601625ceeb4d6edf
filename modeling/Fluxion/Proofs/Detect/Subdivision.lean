import Mathlib
import Fluxion.Proofs.Detect.BlockSize
import Fluxion.Proofs.Detect.Schedule

/-!
One split of every block. The parts of a block are what a walk over it in equal steps leaves behind, so their number is
the size over the step, rounded up, and only the last one can be shorter than the step.
-/
set_option autoImplicit false

namespace Fluxion.Detect

/-! ### Walks -/

/-- The places below `hi` that a walk from `k` in equal steps comes to, and `hi`. -/
def walk (step hi k : Nat) : List Nat :=
  if 0 < step ∧ k < hi then k :: walk step hi (k+step) else [hi]
termination_by hi - k

section Walk

variable {step lo hi k j : Nat}

theorem ceilDiv_zero (hs : 0 < step) : ceilDiv 0 step = 0 :=
  Nat.eq_zero_of_not_pos fun h => Nat.not_lt_zero _ ((lt_ceilDiv_iff hs).mp h)

theorem ceilDiv_of_pos {d : Nat} (hs : 0 < step) (hd : 0 < d) : ceilDiv d step = ceilDiv (d-step) step + 1 := by
  rcases Nat.lt_or_ge d step with hlt | hge
  · rw [Nat.sub_eq_zero_of_le (Nat.le_of_lt hlt), ceilDiv_zero hs, ceilDiv]
    exact Nat.div_eq_of_lt_le (by omega) (by omega)
  · obtain ⟨e, rfl⟩ := Nat.exists_eq_add_of_le hge
    rw [Nat.add_sub_cancel_left, ceilDiv, ceilDiv, ← Nat.add_div_right _ hs]
    congr 1
    omega

theorem walk_of_lt (hs : 0 < step) (hk : k < hi) : walk step hi k = k :: walk step hi (k+step) := by
  rw [walk, if_pos ⟨hs, hk⟩]

theorem walk_of_le (hk : hi ≤ k) : walk step hi k = [hi] := by
  rw [walk, if_neg (by omega)]

theorem length_walk (hs : 0 < step) (hi k : Nat) : (walk step hi k).length = ceilDiv (hi-k) step + 1 := by
  fun_induction walk step hi k with
  | case1 k h ih => rw [List.length_cons, ih, Nat.sub_add_eq, ← ceilDiv_of_pos hs (by omega)]
  | case2 k h => rw [Nat.sub_eq_zero_of_le (by omega), ceilDiv_zero hs, List.length_singleton]

/-- Place `j` of a walk is `j` steps on, but never past the end. -/
theorem getElem?_walk (hs : 0 < step) (hj : j ≤ ceilDiv (hi-k) step) :
    (walk step hi k)[j]? = some (min (k+j*step) hi) := by
  induction j generalizing k with
  | zero =>
    rcases Nat.lt_or_ge k hi with hk | hk
    · rw [walk_of_lt hs hk]
      simp [Nat.le_of_lt hk]
    · rw [walk_of_le hk]
      simp [hk]
  | succ j ih =>
    have hk : k < hi := by
      by_contra hge
      rw [Nat.sub_eq_zero_of_le (by omega), ceilDiv_zero hs] at hj
      omega
    rw [ceilDiv_of_pos hs (by omega), ← Nat.sub_add_eq] at hj
    rw [walk_of_lt hs hk, List.getElem?_cons_succ, ih (by omega), Nat.succ_mul]
    congr 2
    omega

theorem walk_eq_map (hs : 0 < step) (lo hi : Nat) : walk step hi (lo+step) =
    (List.range (ceilDiv (hi-lo) step - 1)).map (fun j => lo+(j+1)*step) ++ [hi] := by
  generalize hn : ceilDiv (hi-lo) step - 1 = n
  induction n generalizing lo with
  | zero =>
    have hle : hi ≤ lo+step := by
      by_contra hlt
      have htwo : 1 < ceilDiv (hi-lo) step := (lt_ceilDiv_iff hs).mpr (by omega)
      omega
    rw [walk_of_le hle]
    rfl
  | succ n ih =>
    have hlt : 1*step < hi-lo := (lt_ceilDiv_iff hs).mp (by omega)
    rw [ceilDiv_of_pos hs (by omega), ← Nat.sub_add_eq] at hn
    rw [walk_of_lt hs (by omega), ih (lo+step) (by omega), List.range_succ_eq_map, List.map_cons, List.map_map,
      List.cons_append]
    congr 2
    · omega
    · refine List.map_congr_left fun j _ => ?_
      simp only [Function.comp_apply, Nat.succ_eq_add_one, Nat.add_mul]
      omega

/-- The parts of a block are one walk. -/
theorem parts_eq_walk (lo hi : Nat) : parts lo hi = walk (partSize (hi-lo)) hi (lo+partSize (hi-lo)) :=
  (walk_eq_map (partSize_pos _) lo hi).symm

theorem length_parts_eq (h : lo < hi) : (parts lo hi).length = ceilDiv (hi-lo) (partSize (hi-lo)) := by
  rw [parts_eq_walk, length_walk (partSize_pos _), Nat.sub_add_eq, ← ceilDiv_of_pos (partSize_pos _) (by omega)]

theorem getElem?_parts (h : lo < hi) (hj : j ≤ (parts lo hi).length) :
    (lo :: parts lo hi)[j]? = some (min (lo+j*partSize (hi-lo)) hi) := by
  cases j with
  | zero => simp [Nat.le_of_lt h]
  | succ j =>
    have hs := partSize_pos (hi-lo)
    rw [length_parts_eq h, ceilDiv_of_pos hs (by omega), ← Nat.sub_add_eq] at hj
    rw [List.getElem?_cons_succ, parts_eq_walk, getElem?_walk hs (by omega), Nat.succ_mul]
    congr 2
    omega

end Walk

/-! ### Fine blocks -/

/-- The parts of a coarse block stand one after another, from its first boundary on. -/
theorem exists_suffix {bounds : List Nat} {i : Nat} (hi : i+1 < bounds.length) : ∃ rest,
    bounds.getD i 0 :: (parts (bounds.getD i 0) (bounds.getD (i+1) 0) ++ rest) <:+ subdivide bounds := by
  rcases bounds with - | ⟨lo, bounds⟩
  · simp at hi
  · rw [subdivide]
    induction bounds generalizing lo i with
    | nil => simp at hi
    | cons next bounds ih =>
      cases i with
      | zero => exact ⟨subdivideAfter next bounds, List.suffix_rfl⟩
      | succ i =>
        obtain ⟨rest, hrest⟩ := ih next (by simpa using hi)
        obtain ⟨cuts, hcuts⟩ := List.getLast?_eq_some_iff.mp (getLast?_parts lo next)
        refine ⟨rest, hrest.trans ⟨lo :: cuts, ?_⟩⟩
        rw [subdivideAfter, hcuts]
        simp

/-- Size of block `i`. -/
def blockSize (bounds : List Nat) (i : Nat) : Nat := bounds.getD (i+1) 0 - bounds.getD i 0

section Increasing

variable {bounds : List Nat} {i : Nat} (h : bounds.Pairwise (· < ·))
include h

theorem index_unique {j x : Nat} (hi : bounds[i]? = some x) (hj : bounds[j]? = some x) : i = j :=
  (List.getElem?_inj (List.getElem?_eq_some_iff.mp hi).1 (h.imp Nat.ne_of_lt)).mp (hi.trans hj.symm)

theorem firstFine_index : List.Forall₂ (fun c j => ∀ k, (subdivide bounds)[k]? = some c ↔ k = j) bounds
    (firstFine bounds (subdivide bounds)) := by
  have hpositions : List.Forall₂ (fun c j => (c,j) ∈ (subdivide bounds).zipIdx) bounds
      (firstFine bounds (subdivide bounds)) := positions_spec (by simpa using sublist_subdivide bounds)
  refine hpositions.imp fun c j hj k => ?_
  rw [List.mem_zipIdx_iff_getElem?] at hj
  constructor
  · intro hk
    exact index_unique (subdivide_strict h) hk hj
  · rintro rfl
    exact hj

/-- The parts of a coarse block start one step from one another. -/
theorem getD_part (hi : i+1 < bounds.length) :
    partCount bounds i = (parts (bounds.getD i 0) (bounds.getD (i+1) 0)).length ∧
    ∀ j ≤ partCount bounds i, (subdivide bounds).getD (part bounds i j) 0 =
      min (bounds.getD i 0 + j*partSize (blockSize bounds i)) (bounds.getD (i+1) 0) := by
  have hr := refines_firstFine (sublist_subdivide bounds)
  have hf := subdivide_strict h
  have hfirst := hr.getElem? (i := i) (by omega)
  have hnext := hr.getElem? hi
  have hlt := getD_lt_getD h (Nat.lt_add_one i) hi
  obtain ⟨rest, front, hfine⟩ := exists_suffix hi
  unfold blockSize
  generalize bounds.getD i 0 = lo at hfirst hlt hfine ⊢
  generalize bounds.getD (i+1) 0 = hi at hnext hlt hfine ⊢
  have hplace {j : Nat} (hj : j ≤ (parts lo hi).length) :
      (subdivide bounds)[front.length+j]? = some (min (lo+j*partSize (hi-lo)) hi) := by
    rw [← hfine, List.getElem?_append_right (Nat.le_add_right _ _), Nat.add_sub_cancel_left, ← List.cons_append,
      List.getElem?_append_left (by simpa [Nat.lt_succ_iff] using hj), getElem?_parts hlt hj]
  -- Boundaries are all different, so the first and the last one of the parts are those of the coarse block.
  have hzero : (firstFine bounds (subdivide bounds)).getD i 0 = front.length := by
    refine index_unique hf hfirst ?_
    rw [← hfine]
    simp
  have hlast : (firstFine bounds (subdivide bounds)).getD (i+1) 0 = front.length + (parts lo hi).length := by
    refine index_unique hf hnext ?_
    have hall := le_ceilDiv_mul (hi-lo) (partSize_pos (hi-lo))
    rw [hplace (Nat.le_refl _), length_parts_eq hlt]
    congr 1
    omega
  have hcount : partCount bounds i = (parts lo hi).length := by
    rw [partCount, hlast, hzero, Nat.add_sub_cancel_left]
  refine ⟨hcount, fun j hj => ?_⟩
  rw [part, hzero, List.getD_eq_getElem?_getD, hplace (hcount ▸ hj)]
  rfl

end Increasing

/-- The fine blocks that start in coarse block `i`. -/
def blocksIn (coarse fine : List Nat) (i : Nat) : Finset Nat :=
  (Finset.range (fine.length - 1)).filter fun x => InBlock coarse i (fine.getD x 0)

/-- Fine boundaries that split every coarse block of `s` indices into parts of at most `ceilDiv s Word.size` indices;
`first` says where each coarse boundary stands among them. -/
structure Subdivision (coarse fine first : List Nat) : Prop where
  strict : fine.Pairwise (· < ·)
  keeps : coarse ⊆ fine
  head : fine.head? = coarse.head?
  last : fine.getLast? = coarse.getLast?
  count : ∀ i, i+1 < coarse.length →
    (blocksIn coarse fine i).card = ceilDiv (blockSize coarse i) (ceilDiv (blockSize coarse i) Word.size) ∧
    (blocksIn coarse fine i).card ≤ Word.size
  size : ∀ i x, i+1 < coarse.length → x ∈ blocksIn coarse fine i →
    blockSize fine x ≤ ceilDiv (blockSize coarse i) Word.size ∧
    fine.getD (x+1) 0 = min (fine.getD x 0 + ceilDiv (blockSize coarse i) Word.size) (coarse.getD (i+1) 0)
  index : List.Forall₂ (fun c j => ∀ k, fine[k]? = some c ↔ k = j) coarse first

section Subdivide

variable {bounds : List Nat} {i : Nat} (h : bounds.Pairwise (· < ·))
include h

theorem partSize_blockSize (hi : i+1 < bounds.length) :
    partSize (blockSize bounds i) = ceilDiv (blockSize bounds i) Word.size :=
  partSize_of_pos (Nat.sub_pos_of_lt (getD_lt_getD h (Nat.lt_add_one i) hi))

theorem card_blocksIn (hi : i+1 < bounds.length) : (blocksIn bounds (subdivide bounds) i).card =
    ceilDiv (blockSize bounds i) (ceilDiv (blockSize bounds i) Word.size) ∧
    (blocksIn bounds (subdivide bounds) i).card ≤ Word.size := by
  have hlt := getD_lt_getD h (Nat.lt_add_one i) hi
  have hcount : (blocksIn bounds (subdivide bounds) i).card =
      (parts (bounds.getD i 0) (bounds.getD (i+1) 0)).length :=
    (fineCount_eq h hi).trans (getD_part h hi).1
  refine ⟨?_, hcount ▸ length_parts_le _ _⟩
  rw [hcount, length_parts_eq hlt, ← partSize_blockSize h hi]
  rfl

theorem exists_part_of_mem {x : Nat} (hx : x ∈ blocksIn bounds (subdivide bounds) i) :
    ∃ j < partCount bounds i, x = part bounds i j := by
  obtain ⟨hrange, hin⟩ := Finset.mem_filter.mp hx
  have hlt : x+1 < (subdivide bounds).length := by
    rw [Finset.mem_range] at hrange
    omega
  obtain ⟨m, j, hm, hj, rfl⟩ := exists_part h hlt
  obtain rfl := (inBlock_of_part h hm hj (inBlock_getD (subdivide_strict h) hlt)).unique h hin
  exact ⟨j, hj, rfl⟩

theorem blockSize_part (hi : i+1 < bounds.length) {x : Nat} (hx : x ∈ blocksIn bounds (subdivide bounds) i) :
    blockSize (subdivide bounds) x ≤ ceilDiv (blockSize bounds i) Word.size ∧
    (subdivide bounds).getD (x+1) 0 =
      min ((subdivide bounds).getD x 0 + ceilDiv (blockSize bounds i) Word.size) (bounds.getD (i+1) 0) := by
  obtain ⟨j, hj, rfl⟩ := exists_part_of_mem h hx
  obtain ⟨-, hplace⟩ := getD_part h hi
  have hstart := hplace j (Nat.le_of_lt hj)
  have hend := hplace (j+1) hj
  rw [Nat.succ_mul] at hend
  rw [← partSize_blockSize h hi, blockSize]
  change (subdivide bounds).getD (part bounds i (j+1)) 0 - _ ≤ _ ∧ (subdivide bounds).getD (part bounds i (j+1)) 0 = _
  omega

end Subdivide

end Fluxion.Detect
