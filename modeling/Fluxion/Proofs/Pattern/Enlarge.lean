import Fluxion.Proofs.Pattern.Rows
import Fluxion.Proofs.Run
import Mathlib.Algebra.Ring.Nat

/-!
Patterns over all elements of a matrix. The entries of a pattern have increasing element numbers, so a
pattern over entries becomes one over elements with its entries in the order that they had.
-/
set_option autoImplicit false

namespace Fluxion.Pattern

/-- Entries that are in order stay in order. -/
theorem entries_ofEntries {nrow ncol : Nat} {entries : Array (Nat × Nat)}
    (h : ∀ r c, (r,c) ∈ entries → r < nrow ∧ c < ncol) (hs : entries.toList.Pairwise Precedes) :
    (ofEntries nrow ncol entries).entries = entries := by
  have hv : (ofEntries nrow ncol entries).Valid := valid_ofEntries fun r c he => (h r c he).2
  refine Array.toList_inj.mp (eq_of_pairwise (fun _ _ => Precedes.asymm) hv.pairwise_entries hs ?_)
  rintro ⟨r, c⟩
  rw [Array.mem_toList_iff, Array.mem_toList_iff, mem_ofEntries_of_inside h]

namespace Valid

variable {p : Pattern}

theorem element_lt (h : p.Valid) {r c : Nat} (he : (r,c) ∈ p.entries) : r*p.ncol+c < p.nrow*p.ncol := by
  obtain ⟨hr, hc⟩ := h.entry_lt he
  calc r*p.ncol+c < r*p.ncol+p.ncol := Nat.add_lt_add_left hc _
    _ = (r+1)*p.ncol := (Nat.succ_mul _ _).symm
    _ ≤ p.nrow*p.ncol := Nat.mul_le_mul_right _ hr

/-- Where all elements can be counted, an entry has the row-major number of its element. -/
theorem elements_eq (h : p.Valid) (hsize : p.nrow*p.ncol < 2 ^ 64) :
    p.elements = p.entries.map fun e => e.1*p.ncol+e.2 := by
  refine Array.map_congr_left fun e he => Count.wrap_of_lt ?_
  exact (h.element_lt he).trans hsize

theorem size_elements (h : p.Valid) : p.elements.size = p.nnz := by
  rw [elements, Array.size_map, h.size_entries]

theorem mem_elements_lt (h : p.Valid) (hsize : p.nrow*p.ncol < 2 ^ 64) {a : Nat} (ha : a ∈ p.elements) :
    a < p.nrow*p.ncol := by
  rw [h.elements_eq hsize] at ha
  obtain ⟨e, he, rfl⟩ := Array.mem_map.mp ha
  exact h.element_lt he

theorem pairwise_elements (h : p.Valid) (hsize : p.nrow*p.ncol < 2 ^ 64) :
    p.elements.toList.Pairwise (· < ·) := by
  rw [h.elements_eq hsize, Array.toList_map, List.pairwise_map]
  refine h.pairwise_entries.imp_of_mem fun {a b} ha _ hab => ?_
  obtain ⟨-, hc⟩ := h.entry_lt (Array.mem_toList_iff.mp ha)
  obtain hr | ⟨hr, hc'⟩ := hab
  · calc a.1*p.ncol+a.2 < a.1*p.ncol+p.ncol := Nat.add_lt_add_left hc _
      _ = (a.1+1)*p.ncol := (Nat.succ_mul _ _).symm
      _ ≤ b.1*p.ncol := Nat.mul_le_mul_right _ hr
      _ ≤ b.1*p.ncol+b.2 := Nat.le_add_right _ _
  · rw [hr]
    exact Nat.add_lt_add_left hc' _

end Valid

theorem getD_lt_getD {ns : Array Nat} (h : ns.toList.Pairwise (· < ·)) {i k : Nat} (hk : k < ns.size)
    (hik : i < k) : ns.getD i 0 < ns.getD k 0 := by
  have hi : i < ns.size := Nat.lt_trans hik hk
  have hlt := List.pairwise_iff_getElem.mp h i k (by simpa using hi) (by simpa using hk) hik
  simpa [Array.getD_eq_getD_getElem?, hi, hk] using hlt

/-- A pattern spread over more rows and columns keeps the order of its entries. -/
theorem enlarge?_eq {p : Pattern} (hp : p.Valid) {nrow ncol : Nat} {rowMap colMap : Array Nat}
    (hroom : checkRows nrow = .ok ()) (hrow : rowMap.size = p.nrow) (hcol : colMap.size = p.ncol)
    (hrows : rowMap.toList.Pairwise (· < ·)) (hcols : colMap.toList.Pairwise (· < ·))
    (hrowlt : ∀ x ∈ rowMap, x < nrow) (hcollt : ∀ x ∈ colMap, x < ncol) :
    ∃ q, p.enlarge? nrow ncol rowMap colMap = .ok q ∧ q.Valid ∧ q.nrow = nrow ∧ q.ncol = ncol ∧
      q.entries = p.images rowMap colMap := by
  have hget {ns : Array Nat} {n i : Nat} (h : ∀ x ∈ ns, x < n) (hi : i < ns.size) : ns.getD i 0 < n := by
    rw [Array.getD_eq_getD_getElem?, Array.getElem?_eq_getElem hi]
    exact h _ (Array.getElem_mem hi)
  have hinside (r c : Nat) (h : (r,c) ∈ p.images rowMap colMap) : r < nrow ∧ c < ncol := by
    obtain ⟨⟨i, k⟩, he, heq⟩ := Array.mem_map.mp h
    obtain ⟨rfl, rfl⟩ := Prod.mk.inj heq
    obtain ⟨hi, hk⟩ := hp.entry_lt he
    exact ⟨hget hrowlt (hrow ▸ hi), hget hcollt (hcol ▸ hk)⟩
  -- The maps increase, so the images come in the order of the entries.
  have hsorted : (p.images rowMap colMap).toList.Pairwise Precedes := by
    rw [images, Array.toList_map, List.pairwise_map]
    refine hp.pairwise_entries.imp_of_mem fun {a b} ha hb hab => ?_
    obtain ⟨hbr, hbc⟩ := hp.entry_lt (Array.mem_toList_iff.mp hb)
    obtain hr | ⟨hr, hc⟩ := hab
    · exact .inl (getD_lt_getD hrows (hrow ▸ hbr) hr)
    · exact .inr ⟨congrArg (rowMap.getD · 0) hr, getD_lt_getD hcols (hcol ▸ hbc) hc⟩
  have hstart : startCount nrow ≠ 0 := by
    have hlt : (nrow+1)*8 < 2 ^ 63 := of_decide_eq_true (Count.checkRoom_eq_ok_iff.mp hroom)
    have hwrap : nrow + 1 < 2 ^ 64 := by omega
    rw [startCount, Count.wrap_of_lt hwrap]
    omega
  refine ⟨ofEntries nrow ncol (p.images rowMap colMap), ?_, valid_ofEntries fun r c h => (hinside r c h).2,
    nrow_ofEntries _ _ _, ncol_ofEntries _ _ _, entries_ofEntries hinside hsorted⟩
  rw [enlarge?, if_pos ⟨hrow, hcol⟩, checkCounts, if_neg hstart, hroom, enlarge, if_pos ⟨hrow, hcol⟩,
    ofEntries?_eq hinside]
  rfl

/-- Spreading entries over other rows and columns adds none. -/
theorem nnz_enlarge?_le {p q : Pattern} (hp : p.Valid) {nrow ncol : Nat} {rowMap colMap : Array Nat}
    (h : p.enlarge? nrow ncol rowMap colMap = .ok q) : q.nnz ≤ p.nnz := by
  have hlarge : ofEntries? nrow ncol (p.images rowMap colMap) = .ok q := by
    unfold enlarge? enlarge at h
    split at h
    · cases hroom : checkCounts nrow ncol (p.images rowMap colMap) with
      | error e =>
        rw [hroom] at h
        cases h
      | ok _ => rwa [hroom] at h
    · cases h
  obtain ⟨hinside, hq⟩ := exists_of_ofEntries? hlarge
  have hv : q.Valid := hq ▸ valid_ofEntries fun r c he => (hinside r c he).2
  have hnodup : q.entries.toList.Nodup := by
    refine hv.pairwise_entries.imp fun {a b} hab => ?_
    rintro rfl
    exact hab.asymm hab
  have hsub : q.entries.toList ⊆ (p.images rowMap colMap).toList := by
    rintro ⟨r, c⟩ he
    rw [Array.mem_toList_iff] at he ⊢
    rwa [← hq, mem_ofEntries_of_inside hinside] at he
  have hle := (List.subperm_of_subset hnodup hsub).length_le
  rw [Array.length_toList, Array.length_toList, hv.size_entries, images, Array.size_map, hp.size_entries] at hle
  exact hle

/-- A pattern whose elements can all be counted. -/
structure Counted (p : Pattern) : Prop where
  valid : p.Valid
  size : p.nrow*p.ncol < 2 ^ 64

/-- Where there is room for so many rows, they can be counted. -/
theorem size_lt_of_checkRows {nrow : Nat} (h : checkRows nrow = .ok ()) : nrow < 2 ^ 64 := by
  have hlt : (nrow+1)*8 < 2 ^ 63 := of_decide_eq_true (Count.checkRoom_eq_ok_iff.mp h)
  omega

theorem exists_of_enlarge? {p q : Pattern} {nrow ncol : Nat} {rowMap colMap : Array Nat}
    (h : p.enlarge? nrow ncol rowMap colMap = .ok q) :
    checkRows nrow = .ok () ∧ rowMap.size = p.nrow ∧ colMap.size = p.ncol := by
  unfold enlarge? enlarge at h
  split at h
  · next hmaps =>
    refine ⟨?_, hmaps⟩
    obtain ⟨_, hcounts, -⟩ := exists_of_bind_eq_ok h
    unfold checkCounts at hcounts
    split at hcounts
    · exact (exists_of_bind_eq_ok hcounts).elim fun _ hrows => hrows.2
    · exact hcounts
  · cases h

/-- Over counted elements every entry has a place of its own. -/
theorem nnz_enlarge?_eq {p q input output : Pattern} (hp : p.Valid) (hout : output.Counted) (hin : input.Counted)
    (h : p.enlarge? output.numel input.numel output.elements input.elements = .ok q) : q.nnz = p.nnz := by
  have hcount {a : Pattern} (ha : a.Counted) : a.numel = a.nrow*a.ncol := Count.wrap_of_lt ha.size
  obtain ⟨hrows, hrow, hcol⟩ := exists_of_enlarge? h
  rw [hcount hout, hcount hin] at h
  rw [hcount hout] at hrows
  obtain ⟨r, hr, hv, -, -, hentries⟩ := enlarge?_eq hp hrows hrow hcol (hout.valid.pairwise_elements hout.size)
    (hin.valid.pairwise_elements hin.size) (fun _ => hout.valid.mem_elements_lt hout.size)
    fun _ => hin.valid.mem_elements_lt hin.size
  obtain rfl : r = q := Except.ok.inj (hr.symm.trans h)
  rw [← hv.size_entries, hentries, images, Array.size_map, hp.size_entries]

end Fluxion.Pattern
