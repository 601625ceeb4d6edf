import Mathlib
import Fluxion.Proofs.Detect.Partition

/-!
The largest block. Splitting divides the size of the largest block by the size of a word, however uneven the blocks
are, and every block is a single index once the largest is.
-/
set_option autoImplicit false

namespace Fluxion.Detect

/-- Size of the largest part of a block of `n` indices. -/
def shrink (n : Nat) : Nat := ceilDiv n Word.size

theorem shrink_mono : Monotone shrink := fun _ _ h => by
  unfold shrink ceilDiv Word.size
  omega

theorem shrink_lt {n : Nat} (h : 1 < n) : shrink n < n := by
  unfold shrink ceilDiv Word.size
  omega

theorem shrink_le_one {n : Nat} (h : n ≤ 1) : shrink n ≤ 1 := by
  unfold shrink ceilDiv Word.size
  omega

/-- Each division makes a block smaller, down to a single index. -/
theorem iterate_shrink_le (n k : Nat) : shrink^[k] n ≤ max 1 (n-k) := by
  induction k generalizing n with
  | zero => simp
  | succ k ih =>
    rw [Function.iterate_succ_apply]
    have hle := ih (shrink n)
    rcases Nat.lt_or_ge 1 n with h | h
    · have hlt := shrink_lt h
      omega
    · have hone := shrink_le_one h
      omega

/-- The sizes of all blocks of `k` divisions together are less than the whole and one more of each. -/
theorem iterate_shrink_mul_lt (n k : Nat) : shrink^[k] n * Word.size^k < n + Word.size^k := by
  induction k with
  | zero => simp
  | succ k ih =>
    rw [Function.iterate_succ_apply', Nat.pow_succ]
    generalize shrink^[k] n = m at ih ⊢
    generalize Word.size^k = w at ih ⊢
    have hstep : shrink m * 64 ≤ m + 63 := by
      unfold shrink ceilDiv Word.size
      omega
    have hmul := Nat.mul_le_mul_right w hstep
    rw [Nat.add_mul] at hmul
    rw [Nat.mul_comm w, ← Nat.mul_assoc]
    unfold Word.size
    omega

section MaxBlock

variable {lo hi : Nat} {bounds : List Nat}

theorem foldl_max_size (blocks : List (Nat × Nat)) (m : Nat) : blocks.foldl (fun m (lo,hi) => max m (hi-lo)) m =
    max m (blocks.foldl (fun m (lo,hi) => max m (hi-lo)) 0) := by
  induction blocks generalizing m with
  | nil => simp
  | cons block blocks ih =>
    obtain ⟨lo, hi⟩ := block
    rw [List.foldl_cons, List.foldl_cons, ih (max m _), ih (max 0 _)]
    dsimp only
    omega

theorem maxBlock_cons (lo hi : Nat) (bounds : List Nat) :
    maxBlock (lo :: hi :: bounds) = max (hi-lo) (maxBlock (hi :: bounds)) := by
  simp only [maxBlock, List.tail_cons, List.zip_cons_cons, List.foldl_cons]
  rw [foldl_max_size, Nat.zero_max]

/-- Blocks that are one step long, up to the last of them. -/
theorem maxBlock_steps (lo step k : Nat) :
    maxBlock (lo :: ((List.range k).map (fun j => lo+(j+1)*step) ++ hi :: bounds)) =
      max (if k = 0 then 0 else step) (max (hi-(lo+k*step)) (maxBlock (hi :: bounds))) := by
  induction k generalizing lo with
  | zero => simp [maxBlock_cons]
  | succ k ih =>
    have hrest : (List.range k).map ((fun j => lo+(j+1)*step) ∘ Nat.succ) =
        (List.range k).map fun j => lo+(0+1)*step+(j+1)*step := by
      refine List.map_congr_left fun j _ => ?_
      simp only [Function.comp_apply, Nat.succ_eq_add_one, Nat.add_mul]
      omega
    rw [List.range_succ_eq_map, List.map_cons, List.map_map, hrest, List.cons_append, maxBlock_cons, ih]
    simp only [Nat.add_mul, Nat.zero_mul, Nat.one_mul, Nat.succ_ne_zero, if_false]
    by_cases h0 : k = 0
    · subst h0
      simp
    · rw [if_neg h0]
      omega

theorem partSize_of_pos {n : Nat} (h : 0 < n) : partSize n = shrink n := by
  unfold partSize shrink ceilDiv Word.size
  omega

theorem maxBlock_parts (h : lo < hi) :
    maxBlock (lo :: (parts lo hi ++ bounds)) = max (shrink (hi-lo)) (maxBlock (hi :: bounds)) := by
  have hpos : 0 < hi-lo := by omega
  have hs := partSize_pos (hi-lo)
  have hlow := sub_one_mul_lt hpos hs
  have hhigh := le_ceilDiv_mul (hi-lo) hs
  have hparts : 0 < ceilDiv (hi-lo) (partSize (hi-lo)) := (lt_ceilDiv_iff hs).mpr (by omega)
  have hsingle : partSize (hi-lo) = 1 ∨ partSize (hi-lo) < hi-lo := by
    unfold partSize ceilDiv Word.size
    omega
  rw [parts, List.append_assoc, List.singleton_append, maxBlock_steps, ← partSize_of_pos hpos]
  generalize partSize (hi-lo) = step at hs hlow hhigh hparts hsingle ⊢
  generalize hk : ceilDiv (hi-lo) step - 1 = k at hlow ⊢
  have he : ceilDiv (hi-lo) step = k+1 := by omega
  rw [he, Nat.succ_mul] at hhigh
  -- The last part may be shorter; if it is the only one, the block is a single index.
  split
  · next h0 =>
    subst h0
    omega
  · omega

theorem maxBlock_subdivide (h : bounds.Pairwise (· < ·)) : maxBlock (subdivide bounds) = shrink (maxBlock bounds) := by
  rcases bounds with - | ⟨lo, bounds⟩
  · rfl
  · rw [subdivide]
    induction bounds generalizing lo with
    | nil => simp [subdivideAfter, maxBlock, shrink, ceilDiv, Word.size]
    | cons hi bounds ih =>
      obtain ⟨hlo, hrest⟩ := List.pairwise_cons.mp h
      rw [subdivideAfter, maxBlock_parts (hlo hi (by simp)), ih hi hrest, maxBlock_cons, shrink_mono.map_max]

/-- As many blocks as there are reach no further than the largest of them allows. -/
theorem last_le_maxBlock {n : Nat} (h : (lo :: bounds).getLast? = some n) :
    n ≤ lo + bounds.length * maxBlock (lo :: bounds) := by
  induction bounds generalizing lo with
  | nil => simp_all
  | cons hi bounds ih =>
    rw [List.getLast?_cons_cons] at h
    have hle := ih h
    rw [maxBlock_cons, List.length_cons, Nat.succ_mul]
    have hmul := Nat.mul_le_mul_left bounds.length (Nat.le_max_right (hi-lo) (maxBlock (hi :: bounds)))
    have hmax := Nat.le_max_left (hi-lo) (maxBlock (hi :: bounds))
    omega

theorem maxBlock_le_of_getD {m : Nat}
    (h : ∀ i, i+1 < bounds.length → bounds.getD (i+1) 0 - bounds.getD i 0 ≤ m) : maxBlock bounds ≤ m := by
  rcases bounds with - | ⟨lo, bounds⟩
  · simp [maxBlock]
  · induction bounds generalizing lo with
    | nil => simp [maxBlock]
    | cons hi bounds ih =>
      rw [maxBlock_cons]
      have hfirst := h 0 (by simp)
      have hrest := ih hi fun i hi' => by simpa using h (i+1) (by simpa using hi')
      simp only [Nat.zero_add, List.getD_cons_succ, List.getD_cons_zero] at hfirst
      omega

/-- A block has at most a word of parts. -/
theorem length_parts_le (lo hi : Nat) : (parts lo hi).length ≤ Word.size := by
  have hs := partSize_pos (hi-lo)
  have hle : ceilDiv (hi-lo) (partSize (hi-lo)) ≤ Word.size := by
    refine Nat.le_of_not_lt (mt (lt_ceilDiv_iff hs).mp ?_)
    unfold partSize ceilDiv Word.size
    omega
  have hpos : 0 < Word.size := by decide
  simp [parts]
  omega

theorem length_subdivideAfter_le (lo : Nat) (bounds : List Nat) :
    (subdivideAfter lo bounds).length ≤ Word.size * bounds.length := by
  induction bounds generalizing lo with
  | nil => simp [subdivideAfter]
  | cons hi bounds ih =>
    have hparts := length_parts_le lo hi
    have hrest := ih hi
    rw [subdivideAfter, List.length_append, List.length_cons, Nat.mul_succ]
    omega

theorem length_subdivide_le (bounds : List Nat) :
    (subdivide bounds).length - 1 ≤ Word.size * (bounds.length - 1) := by
  rcases bounds with - | ⟨lo, bounds⟩
  · simp [subdivide]
  · exact length_subdivideAfter_le lo bounds

end MaxBlock

namespace Bounds

variable {n : Nat} {bounds : List Nat}

/-- Every block is a single index exactly if the largest one is. -/
theorem length_eq_iff (h : Bounds n bounds) : bounds.length = n+1 ↔ maxBlock bounds ≤ 1 := by
  constructor
  · intro hl
    refine maxBlock_le_of_getD fun i hi => ?_
    rw [h.getD_of_length hl (by omega), h.getD_of_length hl (by omega)]
    omega
  · intro hm
    have hle := h.length_le
    rcases bounds with - | ⟨lo, bounds⟩
    · cases h.head
    · obtain rfl : lo = 0 := by simpa using h.head
      have hlast := last_le_maxBlock h.last
      have hmul := Nat.mul_le_mul_left bounds.length hm
      rw [List.length_cons] at hle ⊢
      omega

theorem iterate (h : Bounds n bounds) (k : Nat) : Bounds n (subdivide^[k] bounds) := by
  induction k with
  | zero => exact h
  | succ k ih =>
    rw [Function.iterate_succ_apply']
    exact bounds_subdivide ih

theorem maxBlock_iterate (h : Bounds n bounds) (k : Nat) :
    maxBlock (subdivide^[k] bounds) = shrink^[k] (maxBlock bounds) := by
  induction k with
  | zero => rfl
  | succ k ih => rw [Function.iterate_succ_apply', Function.iterate_succ_apply', maxBlock_subdivide (h.iterate k).strict, ih]

end Bounds

theorem maxBlock_two (n : Nat) : maxBlock [0,n] = n := by
  simp [maxBlock]

theorem length_iterate_subdivide_le (n k : Nat) : (subdivide^[k] [0,n]).length - 1 ≤ Word.size^k := by
  induction k with
  | zero => simp
  | succ k ih =>
    rw [Function.iterate_succ_apply', Nat.pow_succ, Nat.mul_comm]
    exact (length_subdivide_le _).trans (Nat.mul_le_mul_left _ ih)

/-- However often one block is split, all blocks would be at most twice the whole if each were as long as the largest. -/
theorem length_mul_maxBlock_le {n : Nat} (hn : 0 < n) (k : Nat) :
    ((subdivide^[k] [0,n]).length - 1) * maxBlock (subdivide^[k] [0,n]) ≤ 2*n := by
  have hb := (Bounds.two hn).iterate k
  have hlength := hb.length_le
  have hpow := length_iterate_subdivide_le n k
  have hlt := iterate_shrink_mul_lt n k
  rw [(Bounds.two hn).maxBlock_iterate, maxBlock_two]
  have hcount : (subdivide^[k] [0,n]).length - 1 ≤ n := by omega
  generalize (subdivide^[k] [0,n]).length - 1 = b at hcount hpow ⊢
  generalize shrink^[k] n = m at hlt ⊢
  generalize Word.size^k = w at hlt hpow
  rcases Nat.lt_or_ge 1 m with hm | hm
  · have hblocks := Nat.mul_le_mul_right m hpow
    have htwo := Nat.mul_le_mul_right w hm
    rw [Nat.mul_comm w m] at hblocks
    omega
  · have hone := Nat.mul_le_mul_left b hm
    omega

end Fluxion.Detect
