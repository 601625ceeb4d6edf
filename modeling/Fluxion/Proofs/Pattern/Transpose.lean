import Fluxion.Proofs.Pattern.Rows

/-!
The transpose of a valid pattern: it has the swapped entries, it is valid, and the map that goes with it
leads from every entry to the same entry before.
-/
set_option autoImplicit false

namespace Fluxion.Pattern

/-- Entries of column `c`, each as its row and its number. -/
def columnOf (p : Pattern) (c : Nat) : List (Nat × Nat) :=
  (p.entries.toList.zipIdx.filter (·.1.2 = c)).map fun e => (e.1.1, e.2)

theorem mem_columnOf {p : Pattern} {r c k : Nat} :
    (r,k) ∈ p.columnOf c ↔ p.entries[k]? = some (r,c) := by
  simp only [columnOf, List.mem_map, List.mem_filter, decide_eq_true_eq, Prod.mk.injEq]
  constructor
  · rintro ⟨⟨⟨r', c'⟩, k'⟩, ⟨hm, hc⟩, hr, hk⟩
    dsimp only at hc hr hk
    subst hc hr hk
    simpa [List.mem_zipIdx_iff_getElem?] using hm
  · intro h
    exact ⟨((r,c),k), ⟨by simpa [List.mem_zipIdx_iff_getElem?] using h, rfl⟩, rfl, rfl⟩

theorem map_fst_columnOf (p : Pattern) (c : Nat) :
    (p.columnOf c).map (·.1) = (p.entries.toList.filter (·.2 = c)).map (·.1) := by
  have general (es : List (Nat × Nat)) (n : Nat) :
      ((es.zipIdx n).filter (·.1.2 = c)).map (·.1.1) = (es.filter (·.2 = c)).map (·.1) := by
    induction es generalizing n with
    | nil => rfl
    | cons e es ih => by_cases he : e.2 = c <;> simp [he, ih]
  rw [columnOf, List.map_map]
  exact general p.entries.toList 0

/-- Column after column, each from the top. -/
theorem toList_byColumn (p : Pattern) : p.byColumn.toList =
    (List.range p.ncol).flatMap fun c => (p.columnOf c).map fun e => ((e.1,c), e.2) := by
  rw [byColumn, Grouping.toList_arrange, Array.toList_zipIdx]
  refine List.flatMap_congr fun c _ => ?_
  have hcolumn (e : (Nat × Nat) × Nat) (he : e ∈ p.entries.toList.zipIdx.filter (·.1.2 = c)) :
      ((e.1.1,c), e.2) = e := by
    have hc : e.1.2 = c := by simpa using (List.mem_filter.mp he).2
    rw [← hc]
  rw [columnOf, List.map_map]
  exact ((List.map_congr_left hcolumn).trans (List.map_id _)).symm

theorem mem_byColumn {p : Pattern} {r c k : Nat} :
    ((r,c),k) ∈ p.byColumn.toList ↔ c < p.ncol ∧ p.entries[k]? = some (r,c) := by
  simp only [toList_byColumn, List.mem_flatMap, List.mem_map, List.mem_range, Prod.mk.injEq]
  constructor
  · rintro ⟨c, hc, ⟨r, k⟩, he, ⟨rfl, rfl⟩, rfl⟩
    exact ⟨hc, mem_columnOf.mp he⟩
  · rintro ⟨hc, he⟩
    exact ⟨c, hc, (r,k), mem_columnOf.mpr he, ⟨rfl, rfl⟩, rfl⟩

section Columns

variable {p : Pattern}

theorem Valid.col_eq (h : p.Valid) : p.col = p.entries.map (·.2) := by
  apply Array.ext
  · rw [Array.size_map, h.size_entries, nnz]
  · intro k hk _
    obtain ⟨r, i, hr, hi, rfl⟩ := h.exists_row hk
    have hcol := h.getElem?_row hr hi
    have hentry := h.getElem?_entries hr hi
    rw [Array.getElem?_eq_getElem hi, Array.getElem?_eq_getElem hk] at hcol
    rw [Array.getElem_map, (Array.getElem?_eq_some_iff.mp hentry).2]
    exact (Option.some.inj hcol).symm

/-- As many entries stand in the columns before `n` as have such a column. -/
theorem Valid.length_columnsBefore (h : p.Valid) (n : Nat) :
    ((List.range n).flatMap p.columnOf).length = p.col.toList.countP (· < n) := by
  have hcolumn (c : Nat) : (p.columnOf c).length = p.col.toList.count c := by
    have hfst := congrArg List.length (map_fst_columnOf p c)
    rw [List.length_map, List.length_map] at hfst
    rw [hfst, h.col_eq, Array.toList_map, List.count, List.countP_map, List.countP_eq_length_filter]
    rfl
  induction n with
  | zero => simp
  | succ n ih =>
    rw [List.range_succ, List.flatMap_append, List.length_append, ih, List.flatMap_singleton, hcolumn,
      Grouping.countP_lt_succ]

/-- The rows of the transpose are the columns. -/
theorem Valid.transpose_eq (h : p.Valid) : p.transpose =
    ofRows p.nrow ((Array.range p.ncol).map fun c => ((p.columnOf c).map (·.1)).toArray) := by
  rw [Pattern.transpose, ofRows, Pattern.mk.injEq]
  refine ⟨by simp, rfl, ?_, ?_⟩
  · rw [starts_eq]
    apply Array.ext
    · simp [Grouping.size_starts]
    · intro c hc hc'
      have hle : c ≤ p.ncol := by simpa [Grouping.size_starts, Nat.lt_succ_iff] using hc
      have hstart := Grouping.getD_starts p.col hle
      rw [← h.length_columnsBefore c, ← Array.getElem_eq_getD (h := hc) 0] at hstart
      have htake : (List.range p.ncol).take c = List.range c := by rw [List.take_range, Nat.min_eq_left hle]
      rw [hstart]
      simp [countBefore, List.length_flatMap, ← List.map_take, htake, Function.comp_def]
  · apply Array.toList_inj.mp
    rw [Array.toList_map, toList_byColumn, List.map_flatMap]
    simp [List.flatMap_def, Function.comp_def]

@[simp] theorem nrow_transpose (p : Pattern) : p.transpose.nrow = p.ncol := rfl

@[simp] theorem ncol_transpose (p : Pattern) : p.transpose.ncol = p.nrow := rfl

theorem Valid.row_transpose (h : p.Valid) {c : Nat} (hc : c < p.ncol) :
    p.transpose.row c = ((p.columnOf c).map (·.1)).toArray := by
  rw [h.transpose_eq, row_ofRows p.nrow _ (by simpa using hc)]
  simp

theorem Valid.mem_row_transpose (h : p.Valid) {r c : Nat} (hc : c < p.ncol) :
    r ∈ p.transpose.row c ↔ (r,c) ∈ p.entries := by
  rw [h.row_transpose hc, map_fst_columnOf]
  simp

theorem Valid.pairwise_column (h : p.Valid) (c : Nat) :
    ((p.entries.toList.filter (·.2 = c)).map (·.1)).Pairwise (· < ·) := by
  have hs := (h.pairwise_entries.filter (·.2 = c)).imp_of_mem (S := fun a b => a.1 < b.1) ?_
  · rw [List.pairwise_map]
    exact hs
  · intro a b ha hb hab
    have hac : a.2 = c := by simpa using (List.mem_filter.mp ha).2
    have hbc : b.2 = c := by simpa using (List.mem_filter.mp hb).2
    rw [Precedes] at hab
    omega

theorem Valid.transpose (h : p.Valid) : p.transpose.Valid := by
  rw [h.transpose_eq]
  apply valid_ofRows
  · intro row hrow r hr
    obtain ⟨c, hc, rfl⟩ := Array.mem_map.mp hrow
    obtain ⟨⟨r', k⟩, hk, rfl⟩ : ∃ e ∈ p.columnOf c, e.1 = r := by simpa using hr
    have he : (r',c) ∈ p.entries := Array.mem_of_getElem? (mem_columnOf.mp hk)
    exact (h.entry_lt he).1
  · intro row hrow
    obtain ⟨c, hc, rfl⟩ := Array.mem_map.mp hrow
    rw [List.toList_toArray, map_fst_columnOf]
    exact h.pairwise_column c

theorem Valid.mem_transpose (h : p.Valid) {r c : Nat} :
    (c,r) ∈ p.transpose.entries ↔ (r,c) ∈ p.entries := by
  rw [mem_entries, nrow_transpose]
  constructor
  · rintro ⟨hc, hr⟩
    exact (h.mem_row_transpose hc).mp hr
  · intro he
    have hc := (h.entry_lt he).2
    exact ⟨hc, (h.mem_row_transpose hc).mpr he⟩

theorem Valid.transpose_transpose (h : p.Valid) : p.transpose.transpose = p := by
  apply h.transpose.transpose.ext h
  · simp
  · simp
  · intro r c
    rw [h.transpose.mem_transpose, h.mem_transpose]

theorem isSymmetric_iff {a : Pattern} (ha : a.Valid) : a.isSymmetric = true ↔
    a.nrow = a.ncol ∧ ∀ r c, (r,c) ∈ a.entries → (c,r) ∈ a.entries := by
  simp only [isSymmetric, isSquare, Bool.and_eq_true, beq_iff_eq]
  constructor
  · rintro ⟨hsquare, heq⟩
    refine ⟨hsquare, fun r c h => ?_⟩
    rw [heq]
    exact ha.mem_transpose.mpr h
  · rintro ⟨hsquare, hsymm⟩
    refine ⟨hsquare, ha.ext ha.transpose (by simp [hsquare]) (by simp [hsquare]) fun r c => ?_⟩
    rw [ha.mem_transpose]
    exact ⟨hsymm r c, hsymm c r⟩

theorem Valid.entries_transpose (h : p.Valid) :
    p.transpose.entries.toList = p.byColumn.toList.map fun e => (e.1.2, e.1.1) := by
  rw [toList_entries, entriesBefore, toList_byColumn, List.map_flatMap, nrow_transpose]
  refine List.flatMap_congr fun c hc => ?_
  rw [h.row_transpose (List.mem_range.mp hc)]
  simp [Function.comp_def]

@[simp] theorem size_transposeMap (p : Pattern) : p.transposeMap.size = p.transpose.nnz := by
  simp [transposeMap, nnz, Pattern.transpose]

theorem getElem?_transposeMap_eq_some {i k : Nat} :
    p.transposeMap[i]? = some k ↔ ∃ r c, p.byColumn[i]? = some ((r,c),k) := by
  rw [transposeMap, Array.getElem?_map, Option.map_eq_some_iff]
  constructor
  · rintro ⟨⟨⟨r, c⟩, _⟩, he, rfl⟩
    exact ⟨r, c, he⟩
  · rintro ⟨r, c, he⟩
    exact ⟨_, he, rfl⟩

/-- The map leads from every entry of the transpose to the same entry before. -/
theorem Valid.getElem?_transposeMap (h : p.Valid) {i k : Nat} : p.transposeMap[i]? = some k ↔
    ∃ r c, p.transpose.entries[i]? = some (c,r) ∧ p.entries[k]? = some (r,c) := by
  have hentries (r c : Nat) : p.transpose.entries[i]? = some (c,r) ↔ ∃ k, p.byColumn[i]? = some ((r,c),k) := by
    rw [← Array.getElem?_toList, h.entries_transpose, List.getElem?_map, Option.map_eq_some_iff]
    constructor
    · rintro ⟨⟨⟨r', c'⟩, k⟩, he, heq⟩
      obtain ⟨rfl, rfl⟩ := Prod.mk.inj heq
      exact ⟨k, by simpa using he⟩
    · rintro ⟨k, he⟩
      exact ⟨((r,c),k), by simpa using he, rfl⟩
  have hplaced {r c k : Nat} (he : p.byColumn[i]? = some ((r,c),k)) : p.entries[k]? = some (r,c) :=
    (mem_byColumn.mp (Array.mem_toList_iff.mpr (Array.mem_of_getElem? he))).2
  rw [getElem?_transposeMap_eq_some]
  constructor
  · rintro ⟨r, c, he⟩
    exact ⟨r, c, (hentries r c).mpr ⟨k, he⟩, hplaced he⟩
  · rintro ⟨r, c, ht, he⟩
    obtain ⟨k', hk'⟩ := (hentries r c).mp ht
    obtain rfl := h.entry_unique (hplaced hk') he
    exact ⟨r, c, hk'⟩

theorem Valid.exists_transposeMap (h : p.Valid) {i r c : Nat} (he : p.transpose.entries[i]? = some (c,r)) :
    ∃ k, p.transposeMap[i]? = some k ∧ p.entries[k]? = some (r,c) := by
  have hi := (Array.getElem?_eq_some_iff.mp he).1
  have hsize : i < p.transposeMap.size := by rwa [size_transposeMap, ← h.transpose.size_entries]
  have hk := Array.getElem?_eq_getElem hsize
  obtain ⟨r', c', he', hk'⟩ := h.getElem?_transposeMap.mp hk
  cases he'.symm.trans he
  exact ⟨_, hk, hk'⟩

/-- Every entry is placed, and once. -/
theorem Valid.transposeMap_perm (h : p.Valid) : p.transposeMap.toList.Perm (List.range p.nnz) := by
  have hall : p.entries.toList.zipIdx.filter (·.1.2 < p.ncol) = p.entries.toList.zipIdx := by
    refine List.filter_eq_self.mpr fun e he => ?_
    have hentry : e.1 ∈ p.entries := Array.mem_toList_iff.mp (List.fst_mem_of_mem_zipIdx he)
    simpa using (h.entry_lt hentry).2
  have hperm : p.byColumn.toList.Perm (p.entries.zipIdx.toList.filter (·.1.2 < p.ncol)) := Grouping.arrange_perm _
  rw [Array.toList_zipIdx, hall] at hperm
  rw [transposeMap, Array.toList_map]
  simpa [h.size_entries, List.range_eq_range'] using hperm.map Prod.snd

/-- The two maps of a pattern and its transpose undo each other. -/
theorem Valid.transposeMap_transpose (h : p.Valid) {i k : Nat} :
    p.transpose.transposeMap[k]? = some i ↔ p.transposeMap[i]? = some k := by
  rw [h.transpose.getElem?_transposeMap, h.getElem?_transposeMap, h.transpose_transpose]
  constructor
  · rintro ⟨c, r, hk, hi⟩
    exact ⟨r, c, hi, hk⟩
  · rintro ⟨r, c, hi, hk⟩
    exact ⟨c, r, hk, hi⟩

theorem Valid.find?_transpose (h : p.Valid) (r c : Nat) :
    (p.transpose.find? c r).bind (p.transposeMap[·]?) = p.find? r c := by
  ext k
  rw [Option.bind_eq_some_iff, find?_eq_some h]
  constructor
  · rintro ⟨i, hi, hk⟩
    obtain ⟨k', hk', he⟩ := h.exists_transposeMap ((find?_eq_some h.transpose).mp hi)
    cases hk'.symm.trans hk
    exact he
  · intro he
    have hmem : (c,r) ∈ p.transpose.entries := h.mem_transpose.mpr (Array.mem_of_getElem? he)
    obtain ⟨i, hi⟩ := Array.getElem?_of_mem hmem
    exact ⟨i, (find?_eq_some h.transpose).mpr hi, h.getElem?_transposeMap.mpr ⟨r, c, hi, he⟩⟩

end Columns

end Fluxion.Pattern
