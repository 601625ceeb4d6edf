import Fluxion.Function.Recover
import Fluxion.Proofs.Pattern.Transpose

/-!
What recovery writes. A color of columns gives every entry of its columns what the sweep has in the row of
the entry, a color of rows every entry of its rows what the sweep has in the column, and all other entries
stay.
-/
set_option autoImplicit false

namespace Fluxion

namespace Recover

variable {T : Type}

/-- Writes one after the other, each to a place. -/
def puts (writes : List (Nat × Option T)) (values : Array T) : Array T :=
  writes.foldl (fun values w => put values w.1 w.2) values

@[simp] theorem size_put (values : Array T) (k : Nat) (x? : Option T) :
    (put values k x?).size = values.size := by
  cases x? <;> simp [put]

@[simp] theorem size_puts (writes : List (Nat × Option T)) (values : Array T) :
    (puts writes values).size = values.size := by
  induction writes generalizing values with
  | nil => rfl
  | cons w writes ih => simpa [puts] using ih (put values w.1 w.2)

theorem getElem?_put_of_ne {values : Array T} {k i : Nat} (h : k ≠ i) (x? : Option T) :
    (put values k x?)[i]? = values[i]? := by
  cases x? with
  | none => rfl
  | some x => exact Array.getElem?_setIfInBounds_ne h

/-- A place that no write is for stays. -/
theorem getElem?_puts_of_ne {writes : List (Nat × Option T)} {values : Array T} {i : Nat}
    (h : ∀ w ∈ writes, w.1 ≠ i) : (puts writes values)[i]? = values[i]? := by
  induction writes generalizing values with
  | nil => rfl
  | cons w writes ih =>
    obtain ⟨hw, hrest⟩ := List.forall_mem_cons.mp h
    exact (ih hrest).trans (getElem?_put_of_ne hw w.2)

/-- If all writes to a place agree, it gets what they say. -/
theorem getElem?_puts {writes : List (Nat × Option T)} {values : Array T} {i : Nat} {x : T}
    (hi : i < values.size) (hmem : ∃ w ∈ writes, w.1 = i)
    (h : ∀ w ∈ writes, w.1 = i → w.2 = some x) : (puts writes values)[i]? = some x := by
  induction writes generalizing values with
  | nil => simp at hmem
  | cons w writes ih =>
    obtain ⟨hw, hrest⟩ := List.forall_mem_cons.mp h
    change (puts writes (put values w.1 w.2))[i]? = some x
    by_cases hlater : ∃ w ∈ writes, w.1 = i
    · exact ih (by simpa using hi) hlater hrest
    · have hne : ∀ w ∈ writes, w.1 ≠ i := fun w hm he => hlater ⟨w, hm, he⟩
      obtain ⟨v, hv, rfl⟩ := hmem
      obtain rfl | hv := List.mem_cons.mp hv
      · rw [getElem?_puts_of_ne hne, hw rfl]
        simp [put, hi]
      · exact absurd rfl (hne v hv)

theorem forward_eq (t : Pattern) (map members : Array Nat) (sens values : Array T) :
    forward t map members sens values =
      puts (members.toList.flatMap fun j => (columnOf t map j).map fun e => (e.2, sens[e.1]?)) values := by
  rw [forward, puts, ← Array.foldl_toList, List.foldl_flatMap]
  simp only [List.foldl_map]

theorem adjoint_eq (p : Pattern) (members : Array Nat) (sens values : Array T) :
    adjoint p members sens values =
      puts (members.toList.flatMap fun r =>
        (p.row r).toList.zipIdx.map fun e => (p.start r + e.2, sens[e.1]?)) values := by
  rw [adjoint, puts, ← Array.foldl_toList, List.foldl_flatMap]
  simp only [List.foldl_map, ← Array.foldl_toList, Array.toList_zipIdx]

variable {p : Pattern}

/-- The transpose and its map lead back to the entries of a column. -/
theorem mem_columnOf (hp : p.Valid) {r c k : Nat} (hc : c < p.ncol) :
    (r,k) ∈ columnOf p.transpose p.transposeMap c ↔ p.entries[k]? = some (r,c) := by
  have hrow : c < p.transpose.nrow := by simpa using hc
  have hstart := hp.transpose.start_succ hrow
  have hbound : p.transpose.start (c+1) ≤ p.transposeMap.size := by
    rw [Pattern.size_transposeMap]
    exact hp.transpose.start_le_nnz hrow
  -- Place `i` of the column is an entry of the transpose, which the map leads to an entry of the pattern.
  have hplace (i : Nat) (hi : i < (p.transpose.row c).size) :
      ∃ k, (p.transposeMap.extract (p.transpose.start c) (p.transpose.start (c+1)))[i]? = some k ∧
        p.entries[k]? = some ((p.transpose.row c)[i], c) := by
    obtain ⟨k, hk, he⟩ := hp.exists_transposeMap (hp.transpose.getElem?_entries hrow hi)
    refine ⟨k, ?_, he⟩
    rw [Array.getElem?_extract, if_pos (by omega), hk]
  simp only [columnOf, Array.mem_toList_iff, Array.mem_iff_getElem?, Array.getElem?_zip_eq_some]
  constructor
  · rintro ⟨i, hr, hk⟩
    obtain ⟨hi, rfl⟩ := Array.getElem?_eq_some_iff.mp hr
    obtain ⟨k', hk', he⟩ := hplace i hi
    obtain rfl : k' = k := Option.some.inj (hk'.symm.trans hk)
    exact he
  · intro he
    obtain ⟨i, hi, rfl⟩ := Array.mem_iff_getElem.mp
      ((hp.mem_row_transpose hc).mpr (Array.mem_of_getElem? he))
    obtain ⟨k', hk', he'⟩ := hplace i hi
    have hkk : k' = k := hp.entry_unique he' he
    exact ⟨i, Array.getElem?_eq_getElem hi, hkk ▸ hk'⟩

/-- A color of columns writes the entries of its columns. -/
theorem forward_writes (hp : p.Valid) {members : Array Nat} (hm : ∀ c ∈ members, c < p.ncol)
    (sens values : Array T) :
    ∃ writes, forward p.transpose p.transposeMap members sens values = puts writes values ∧
      ∀ k x, (k,x) ∈ writes ↔ ∃ r c, p.entries[k]? = some (r,c) ∧ c ∈ members ∧ x = sens[r]? := by
  refine ⟨_, forward_eq _ _ members sens values, fun k x => ?_⟩
  simp only [List.mem_flatMap, List.mem_map, Array.mem_toList_iff]
  constructor
  · rintro ⟨c, hc, ⟨r, k'⟩, he, hkx⟩
    cases hkx
    exact ⟨r, c, (mem_columnOf hp (hm c hc)).mp he, hc, rfl⟩
  · rintro ⟨r, c, he, hc, rfl⟩
    exact ⟨c, hc, (r,k), (mem_columnOf hp (hm c hc)).mpr he, rfl⟩

theorem adjoint_writes (hp : p.Valid) {members : Array Nat} (hm : ∀ r ∈ members, r < p.nrow)
    (sens values : Array T) :
    ∃ writes, adjoint p members sens values = puts writes values ∧
      ∀ k x, (k,x) ∈ writes ↔ ∃ r c, p.entries[k]? = some (r,c) ∧ r ∈ members ∧ x = sens[c]? := by
  refine ⟨_, adjoint_eq p members sens values, fun k x => ?_⟩
  simp only [List.mem_flatMap, List.mem_map, Array.mem_toList_iff]
  constructor
  · rintro ⟨r, hr, ⟨c, i⟩, hc, hkx⟩
    cases hkx
    have hi := List.mk_mem_zipIdx_iff_getElem?.mp hc
    exact ⟨r, c, (hp.getElem?_entries_iff (hm r hr)).mp ⟨i, by simpa using hi, rfl⟩, hr, rfl⟩
  · rintro ⟨r, c, he, hr, rfl⟩
    obtain ⟨i, hi, rfl⟩ := (hp.getElem?_entries_iff (hm r hr)).mpr he
    exact ⟨r, hr, (c,i), List.mk_mem_zipIdx_iff_getElem?.mpr (by simpa using hi), rfl⟩

end Recover

end Fluxion
