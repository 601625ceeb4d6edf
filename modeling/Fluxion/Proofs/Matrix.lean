import Fluxion.Matrix
import Fluxion.Proofs.Pattern.Enlarge
import Fluxion.Proofs.Pattern.Entries

/-!
Matrices that take their values along. The map between the entries of a pattern and those of its transpose takes them
to the mirrored places, and a larger shape keeps the order of the entries, so the list of values is the same.
-/
set_option autoImplicit false

namespace Fluxion

namespace Matrix

variable {T : Type}

/-- Where a value stands at every listed number, the values come in the order of the numbers. -/
theorem getElem?_filterMap_get {values : Array T} {numbers : List Nat} (h : ∀ k ∈ numbers, k < values.size) (i : Nat) :
    (numbers.filterMap (values[·]?))[i]? = numbers[i]?.bind (values[·]?) := by
  induction numbers generalizing i with
  | nil => rfl
  | cons k numbers ih =>
    obtain ⟨hk, hrest⟩ := List.forall_mem_cons.mp h
    rw [List.filterMap_cons_some (Array.getElem?_eq_getElem hk)]
    cases i with
    | zero => simp [hk]
    | succ i => simpa using ih hrest i

variable {m : Matrix T} (hp : m.pattern.Valid) (hs : m.values.size = m.pattern.nnz)
include hp hs

theorem getElem?_values_transpose (i : Nat) :
    m.transpose.values[i]? = m.pattern.transposeMap[i]?.bind (m.values[·]?) := by
  have hinside (k : Nat) (hk : k ∈ m.pattern.transposeMap.toList) : k < m.values.size := by
    rw [hs]
    exact List.mem_range.mp (hp.transposeMap_perm.mem_iff.mp hk)
  rw [transpose, ← Array.getElem?_toList, Array.toList_filterMap, getElem?_filterMap_get hinside,
    Array.getElem?_toList]

/-- The transpose has a value for each of its entries. -/
theorem size_values_transpose : m.transpose.values.size = m.pattern.transpose.nnz := by
  have hinside (k : Nat) (hk : k ∈ m.pattern.transposeMap.toList) : (m.values[k]?).isSome := by
    have hlt : k < m.pattern.nnz := List.mem_range.mp (hp.transposeMap_perm.mem_iff.mp hk)
    simpa [hs] using hlt
  rw [← Pattern.size_transposeMap, transpose, ← Array.length_toList, Array.toList_filterMap,
    List.length_filterMap_eq_countP, ← Array.length_toList]
  exact List.countP_eq_length.mpr hinside

theorem get?_transpose (r c : Nat) : m.transpose.get? c r = m.get? r c := by
  have hvalues (i : Nat) := getElem?_values_transpose hp hs i
  have hfind : (m.pattern.transpose.find? c r).bind (m.pattern.transposeMap[·]?) = m.pattern.find? r c :=
    hp.find?_transpose r c
  calc m.transpose.get? c r
      = (m.pattern.transpose.find? c r).bind fun i => m.pattern.transposeMap[i]?.bind (m.values[·]?) := by
        simp only [get?, hvalues]
        rfl
    _ = ((m.pattern.transpose.find? c r).bind (m.pattern.transposeMap[·]?)).bind (m.values[·]?) :=
        (Option.bind_assoc _ _ _).symm
    _ = m.get? r c := by rw [hfind, get?]

omit hp hs

/-! ### Larger shapes -/

/-- At the images of the rows and the columns of `m` the elements of `m'` are those of `m`, and there are none
elsewhere. -/
structure Embeds (rowMap colMap : Array Nat) (m m' : Matrix T) : Prop where
  image : ∀ {r c a b : Nat}, rowMap[r]? = some a → colMap[c]? = some b → m'.get? a b = m.get? r c
  elsewhere : ∀ {a b : Nat}, ¬(a ∈ rowMap ∧ b ∈ colMap) → m'.get? a b = none

/-- Increasing maps lead no two rows or columns to one. -/
theorem index_unique {ns : Array Nat} (h : ns.toList.Pairwise (· < ·)) {i k x : Nat} (hi : ns[i]? = some x)
    (hk : ns[k]? = some x) : i = k := by
  obtain ⟨hlt, -⟩ := Array.getElem?_eq_some_iff.mp hi
  rw [← Array.getElem?_toList] at hi hk
  exact (List.getElem?_inj (by simpa using hlt) (h.imp Nat.ne_of_lt)).mp (hi.trans hk.symm)

/-- The entry that is found at a place in the larger shape is the image of the one with its number. -/
theorem find?_images {p q : Pattern} {rowMap colMap : Array Nat} (hp : p.Valid) (hq : q.Valid)
    (hrow : rowMap.size = p.nrow) (hcol : colMap.size = p.ncol) (hentries : q.entries = p.images rowMap colMap)
    {a b k : Nat} : q.find? a b = some k ↔
      ∃ r c, p.find? r c = some k ∧ rowMap[r]? = some a ∧ colMap[c]? = some b := by
  have hget {ns : Array Nat} {i x : Nat} (hi : i < ns.size) : ns.getD i 0 = x ↔ ns[i]? = some x := by
    rw [Array.getD_eq_getD_getElem?, Array.getElem?_eq_getElem hi, Option.getD_some, Option.some.injEq]
  rw [Pattern.find?_eq_some hq, hentries, Pattern.images, Array.getElem?_map, Option.map_eq_some_iff]
  simp only [Pattern.find?_eq_some hp, Prod.exists, Prod.mk.injEq]
  refine exists_congr fun r => exists_congr fun c => and_congr_right fun he => ?_
  obtain ⟨hr, hc⟩ := hp.entry_lt (Array.mem_of_getElem? he)
  rw [hget (hrow ▸ hr), hget (hcol ▸ hc)]

/-- A list of values keeps its meaning where the entries have their images in order. -/
theorem embeds_images {p q : Pattern} {rowMap colMap : Array Nat} (hp : p.Valid) (hq : q.Valid)
    (hrow : rowMap.size = p.nrow) (hcol : colMap.size = p.ncol) (hrows : rowMap.toList.Pairwise (· < ·))
    (hcols : colMap.toList.Pairwise (· < ·)) (hentries : q.entries = p.images rowMap colMap) (values : Array T) :
    Embeds rowMap colMap ⟨p, values⟩ ⟨q, values⟩ where
  image := by
    intro r c a b ha hb
    have hfind : q.find? a b = p.find? r c := by
      refine Option.ext fun k => (find?_images hp hq hrow hcol hentries).trans ?_
      constructor
      · rintro ⟨r', c', hk, ha', hb'⟩
        obtain rfl := index_unique hrows ha ha'
        obtain rfl := index_unique hcols hb hb'
        exact hk
      · exact fun hk => ⟨r, c, hk, ha, hb⟩
    rw [get?, get?, hfind]
  elsewhere := by
    intro a b hab
    have hfind : q.find? a b = none := Option.eq_none_iff_forall_ne_some.mpr fun k hk => by
      obtain ⟨r, c, -, ha, hb⟩ := (find?_images hp hq hrow hcol hentries).mp hk
      exact hab ⟨Array.mem_of_getElem? ha, Array.mem_of_getElem? hb⟩
    rw [get?, hfind, Option.bind_none]

end Matrix

namespace Pattern

/-- The transpose of a pattern has the mirrored entries, and its map is a permutation that leads each of them to the
entry that it was. Transposing again gives the pattern back, with the inverse map. A square pattern is symmetric if
it has the mirror of every entry, and a matrix on the pattern has the elements of its transpose at the mirrored places. -/
theorem transpose_swaps {a : Pattern} (ha : a.Valid) :
    (checkRows a.ncol = .ok () → a.transpose? = .ok a.transpose) ∧
    a.transpose.Has a.ncol a.nrow (fun c r => (r,c) ∈ a.entries) ∧
    a.transposeMap.toList.Perm (List.range a.nnz) ∧
    (∀ i k : Nat, a.transposeMap[i]? = some k ↔
      ∃ r c : Nat, a.transpose.entries[i]? = some (c,r) ∧ a.entries[k]? = some (r,c)) ∧
    a.transpose.transpose = a ∧
    (∀ i k : Nat, a.transpose.transposeMap[k]? = some i ↔ a.transposeMap[i]? = some k) ∧
    (a.isSymmetric = true ↔ a.nrow = a.ncol ∧ ∀ r c, (r,c) ∈ a.entries ↔ (c,r) ∈ a.entries) ∧
    ∀ (T : Type) (values : Array T), values.size = a.nnz →
      let m : Matrix T := ⟨a, values⟩
      m.transpose.pattern = a.transpose ∧ m.transpose.values.size = a.transpose.nnz ∧
        ∀ r c, m.transpose.get? c r = m.get? r c := by
  refine ⟨fun hroom => ?_, ⟨ha.transpose, rfl, rfl, fun c r => ha.mem_transpose⟩, ha.transposeMap_perm,
    fun i k => ha.getElem?_transposeMap, ha.transpose_transpose, fun i k => ha.transposeMap_transpose, ?_,
    fun T values hsize => ⟨rfl, Matrix.size_values_transpose ha hsize, Matrix.get?_transpose ha hsize⟩⟩
  · rw [transpose?, checkTranspose, hroom, ha.checkStarts]
    rfl
  · rw [isSymmetric_iff ha]
    exact and_congr_right fun _ => ⟨fun h r c => ⟨h r c, h c r⟩, fun h r c => (h r c).mp⟩

/-- Two rows over three columns, the second column with one entry and the last with two. -/
def ragged : Pattern := .ofRows 3 #[#[1,2], #[0,2]]

theorem transpose_swaps_ragged : ragged.Valid ∧ ragged.transpose? = .ok ⟨3, 2, #[0,1,2,4], #[1,0,0,1]⟩ ∧
    ragged.transposeMap = #[2,0,1,3] ∧ ragged.transpose.transposeMap[3]? = some 3 ∧ ¬ragged.isSymmetric ∧
    (⟨ragged, #['a','b','c','d']⟩ : Matrix Char).transpose.get? 2 0 = some 'b' := by
  have hvalid : ragged.Valid := valid_ofRows (by decide) (by decide)
  obtain ⟨hrun, hhas, -, hmap, -, hinverse, hsymmetric, hmatrix⟩ := transpose_swaps hvalid
  have htranspose : ragged.transpose = ⟨3, 2, #[0,1,2,4], #[1,0,0,1]⟩ := by cbv
  have hthird : ragged.transposeMap[3]? = some 3 := (hmap 3 3).mpr ⟨1, 2, by cbv, by cbv⟩
  refine ⟨hvalid, htranspose ▸ hrun (by decide), by cbv, (hinverse 3 3).mpr hthird, fun h => ?_, ?_⟩
  · exact absurd (hsymmetric.mp h).1 (by decide)
  · rw [(hmatrix Char #['a','b','c','d'] rfl).2.2 0 2]
    cbv

end Pattern

end Fluxion
