import Mathlib.Data.List.Sort
import Fluxion.Proofs.Pattern.Merge

/-!
A valid pattern through its entries: the rows tile the list of columns, the entries come row by row in
increasing order, and the shape and the set of entries determine the pattern.
-/
set_option autoImplicit false

namespace Fluxion.Pattern

/-- Two lists in the same order with the same members are equal. -/
theorem eq_of_pairwise {α : Type} {R : α → α → Prop} (hr : ∀ a b, R a b → ¬R b a) {xs ys : List α}
    (hx : xs.Pairwise R) (hy : ys.Pairwise R) (h : ∀ a, a ∈ xs ↔ a ∈ ys) : xs = ys := by
  have hne (a b : α) (hab : R a b) : a ≠ b := by
    rintro rfl
    exact hr a a hab hab
  have hp : xs.Perm ys := (List.perm_ext_iff_of_nodup (hx.imp (hne _ _)) (hy.imp (hne _ _))).mpr h
  exact hp.eq_of_pairwise (fun a b _ _ hab hba => absurd hba (hr a b hab)) hx hy

theorem increasing_eq {xs ys : List Nat} (hx : xs.Pairwise (· < ·)) (hy : ys.Pairwise (· < ·))
    (h : ∀ a, a ∈ xs ↔ a ∈ ys) : xs = ys :=
  eq_of_pairwise (fun _ _ => Nat.lt_asymm) hx hy h

/-- Row by row, and column by column within a row. -/
def Precedes (a b : Nat × Nat) : Prop := a.1 < b.1 ∨ a.1 = b.1 ∧ a.2 < b.2

theorem Precedes.asymm {a b : Nat × Nat} (h : Precedes a b) : ¬Precedes b a := by
  rw [Precedes] at h ⊢
  omega

namespace Valid

variable {p q : Pattern}

theorem start_mono (h : p.Valid) {r s : Nat} (hrs : r ≤ s) (hs : s ≤ p.nrow) :
    p.start r ≤ p.start s := by
  induction s with
  | zero =>
    rw [Nat.le_zero.mp hrs]
  | succ s ih =>
    rcases Nat.eq_or_lt_of_le hrs with rfl | hlt
    · exact Nat.le_refl _
    · exact Nat.le_trans (ih (by omega) (by omega)) (h.mono s (by omega))

theorem start_le_nnz (h : p.Valid) {r : Nat} (hr : r ≤ p.nrow) : p.start r ≤ p.nnz := by
  rw [← h.last]
  exact h.start_mono hr (Nat.le_refl _)

theorem size_row (h : p.Valid) {r : Nat} (hr : r < p.nrow) :
    (p.row r).size = p.start (r+1) - p.start r := by
  have hn : p.start (r+1) ≤ p.col.size := h.start_le_nnz hr
  simp [row, Nat.min_eq_left hn]

theorem start_succ (h : p.Valid) {r : Nat} (hr : r < p.nrow) :
    p.start (r+1) = p.start r + (p.row r).size := by
  have hm := h.mono r hr
  have hs := h.size_row hr
  omega

theorem getElem?_row (h : p.Valid) {r i : Nat} (hr : r < p.nrow) (hi : i < (p.row r).size) :
    (p.row r)[i]? = p.col[p.start r + i]? := by
  have hs := h.size_row hr
  have hn : p.start (r+1) ≤ p.col.size := h.start_le_nnz hr
  have he : i < p.start (r+1) - p.start r := by omega
  simp [row, Nat.min_eq_left hn, he]

/-- Every position of the list of columns lies in a row. -/
theorem exists_row (h : p.Valid) {k : Nat} (hk : k < p.nnz) :
    ∃ r i, r < p.nrow ∧ i < (p.row r).size ∧ k = p.start r + i := by
  have general (n : Nat) (hn : n ≤ p.nrow) (hkn : k < p.start n) :
      ∃ r i, r < p.nrow ∧ i < (p.row r).size ∧ k = p.start r + i := by
    induction n with
    | zero =>
      rw [h.first] at hkn
      omega
    | succ n ih =>
      by_cases hlt : k < p.start n
      · exact ih (by omega) hlt
      · have hs := h.start_succ (r := n) (by omega)
        exact ⟨n, k - p.start n, by omega, by omega, by omega⟩
  exact general p.nrow (Nat.le_refl _) (by rw [h.last]; exact hk)

/-- There is a first row start. -/
theorem checkStarts (h : p.Valid) : p.checkStarts = .ok () := by
  have hsize := h.size
  rw [Pattern.checkStarts, if_neg]
  · rfl
  · intro hempty
    rw [Array.isEmpty_iff.mp hempty] at hsize
    cases hsize

theorem eq_of_rows (hp : p.Valid) (hq : q.Valid) (hrow : p.nrow = q.nrow) (hcol : p.ncol = q.ncol)
    (h : ∀ r, r < p.nrow → p.row r = q.row r) : p = q := by
  -- Equal rows start at equal places, by induction on the row.
  have hstart (r : Nat) (hr : r ≤ p.nrow) : p.start r = q.start r := by
    induction r with
    | zero => rw [hp.first, hq.first]
    | succ r ih =>
      rw [hp.start_succ hr, hq.start_succ (by omega), ih (by omega), h r hr]
  have hstarts : p.rowStart = q.rowStart := by
    apply Array.ext
    · rw [hp.size, hq.size, hrow]
    · intro r hr hr'
      have hn : r ≤ p.nrow := by
        have hs := hp.size
        omega
      have he := hstart r hn
      simpa [start, Array.getD_eq_getD_getElem?, hr, hr'] using he
  have hnnz : p.nnz = q.nnz := by
    rw [← hp.last, ← hq.last, hstart p.nrow (Nat.le_refl _), hrow]
  have hcols : p.col = q.col := by
    apply Array.ext_getElem?
    intro k
    by_cases hk : k < p.nnz
    · obtain ⟨r, i, hr, hi, rfl⟩ := hp.exists_row hk
      have hi' : i < (q.row r).size := by
        rw [← h r hr]
        exact hi
      rw [← hp.getElem?_row hr hi, hstart r (by omega), ← hq.getElem?_row (by omega) hi', h r hr]
    · have hp' : p.col.size ≤ k := Nat.le_of_not_lt hk
      have hq' : q.col.size ≤ k := Nat.le_of_not_lt fun hlt => hk (by rw [hnnz]; exact hlt)
      rw [Array.getElem?_eq_none hp', Array.getElem?_eq_none hq']
  cases p
  cases q
  simp_all

/-- The shape and the set of entries determine a valid pattern. -/
theorem ext (hp : p.Valid) (hq : q.Valid) (hrow : p.nrow = q.nrow) (hcol : p.ncol = q.ncol)
    (h : ∀ r c, (r,c) ∈ p.entries ↔ (r,c) ∈ q.entries) : p = q := by
  apply hp.eq_of_rows hq hrow hcol
  intro r hr
  have hr' : r < q.nrow := by omega
  apply Array.toList_inj.mp
  apply increasing_eq (hp.strict r hr) (hq.strict r hr')
  intro c
  have hc := h r c
  simp only [mem_entries, hr, hr', true_and] at hc
  simpa using hc

theorem entry_lt (h : p.Valid) {r c : Nat} (he : (r,c) ∈ p.entries) : r < p.nrow ∧ c < p.ncol := by
  obtain ⟨hr, hc⟩ := mem_entries.mp he
  exact ⟨hr, h.bound r hr c hc⟩

end Valid

/-- The entries of the rows before `n`. -/
def entriesBefore (p : Pattern) (n : Nat) : List (Nat × Nat) :=
  (List.range n).flatMap fun r => (p.row r).toList.map fun c => (r,c)

theorem entriesBefore_succ (p : Pattern) (n : Nat) :
    p.entriesBefore (n+1) = p.entriesBefore n ++ (p.row n).toList.map fun c => (n,c) := by
  simp [entriesBefore, List.range_succ]

theorem toList_entries (p : Pattern) : p.entries.toList = p.entriesBefore p.nrow := by
  simp [entries, entriesBefore, Array.toList_flatMap]

namespace Valid

variable {p : Pattern}

theorem length_entriesBefore (h : p.Valid) {n : Nat} (hn : n ≤ p.nrow) :
    (p.entriesBefore n).length = p.start n := by
  induction n with
  | zero => simp [entriesBefore, h.first]
  | succ n ih =>
    rw [entriesBefore_succ, List.length_append, ih (by omega), h.start_succ hn]
    simp

theorem size_entries (h : p.Valid) : p.entries.size = p.nnz := by
  rw [← Array.length_toList, toList_entries, h.length_entriesBefore (Nat.le_refl _), h.last]

theorem getElem?_entriesBefore (h : p.Valid) {n r i : Nat} (hn : n ≤ p.nrow) (hr : r < n)
    (hi : i < (p.row r).size) :
    (p.entriesBefore n)[p.start r + i]? = (p.row r)[i]?.map fun c => (r,c) := by
  induction n with
  | zero => omega
  | succ n ih =>
    have hl := h.length_entriesBefore (n := n) (by omega)
    rw [entriesBefore_succ]
    rcases Nat.eq_or_lt_of_le (Nat.le_of_lt_succ hr) with rfl | hlt
    · rw [List.getElem?_append_right (by omega), hl]
      simp
    · have hm := h.start_mono (r := r+1) (s := n) hlt (by omega)
      have hs := h.start_succ (r := r) (by omega)
      rw [List.getElem?_append_left (by omega)]
      exact ih (by omega) hlt

theorem getElem?_entries (h : p.Valid) {r i : Nat} (hr : r < p.nrow) (hi : i < (p.row r).size) :
    p.entries[p.start r + i]? = some (r, (p.row r)[i]) := by
  rw [← Array.getElem?_toList, toList_entries, h.getElem?_entriesBefore (Nat.le_refl _) hr hi]
  simp [hi]

/-- Entries increase, first by row and then by column. -/
theorem pairwise_entries (h : p.Valid) :
    p.entries.toList.Pairwise Precedes := by
  have general (n : Nat) (hn : n ≤ p.nrow) :
      (p.entriesBefore n).Pairwise fun a b => a.1 < b.1 ∨ a.1 = b.1 ∧ a.2 < b.2 := by
    induction n with
    | zero => simp [entriesBefore]
    | succ n ih =>
      rw [entriesBefore_succ, List.pairwise_append]
      refine ⟨ih (by omega), ?_, ?_⟩
      · rw [List.pairwise_map]
        exact (h.strict n hn).imp fun hab => .inr ⟨rfl, hab⟩
      · intro a ha b hb
        obtain ⟨r, hr, ha⟩ := List.mem_flatMap.mp ha
        obtain ⟨c, hc, rfl⟩ := List.mem_map.mp ha
        obtain ⟨d, hd, rfl⟩ := List.mem_map.mp hb
        exact .inl (List.mem_range.mp hr)
  rw [toList_entries]
  exact general p.nrow (Nat.le_refl _)

theorem nodup_entries (h : p.Valid) : p.entries.toList.Nodup := by
  refine h.pairwise_entries.imp ?_
  rintro a b hab rfl
  exact hab.asymm hab

theorem entry_unique (h : p.Valid) {i k : Nat} {e : Nat × Nat} (hi : p.entries[i]? = some e)
    (hk : p.entries[k]? = some e) : i = k := by
  obtain ⟨hlt, -⟩ := Array.getElem?_eq_some_iff.mp hi
  rw [← Array.getElem?_toList] at hi hk
  exact (List.getElem?_inj (by simpa using hlt) h.nodup_entries).mp (hi.trans hk.symm)

/-- Row and column of an entry are those of its number. -/
theorem getElem?_entries_iff (hp : p.Valid) {r c k : Nat} (hr : r < p.nrow) :
    (∃ i, (p.row r)[i]? = some c ∧ p.start r + i = k) ↔ p.entries[k]? = some (r,c) := by
  constructor
  · rintro ⟨i, hc, rfl⟩
    obtain ⟨hi, rfl⟩ := Array.getElem?_eq_some_iff.mp hc
    exact hp.getElem?_entries hr hi
  · intro he
    obtain ⟨hr', hc⟩ := mem_entries.mp (Array.mem_of_getElem? he)
    obtain ⟨i, hi, rfl⟩ := Array.mem_iff_getElem.mp hc
    exact ⟨i, Array.getElem?_eq_getElem hi, hp.entry_unique (hp.getElem?_entries hr hi) he⟩

end Valid

/-- The entry that is found is the entry of this number. -/
theorem find?_eq_some {p : Pattern} (hp : p.Valid) {r c k : Nat} :
    p.find? r c = some k ↔ p.entries[k]? = some (r,c) := by
  by_cases hr : r < p.nrow
  · have hrow : (p.row r).toList.Nodup := (hp.strict r hr).imp Nat.ne_of_lt
    have hindex (i : Nat) : (p.row r).idxOf? c = some i ↔ (p.row r)[i]? = some c := by
      have hlist : (p.row r).idxOf? c = (p.row r).toList.idxOf? c := by
        cases p.row r
        simp
      rw [hlist, List.idxOf?_eq_some_iff, ← Array.getElem?_toList, List.getElem?_eq_some_iff]
      constructor
      · rintro ⟨hi, hc, -⟩
        exact ⟨hi, hc⟩
      · rintro ⟨hi, hc⟩
        refine ⟨hi, hc, fun j hj he => ?_⟩
        have hji := (List.Nodup.getElem_inj_iff hrow).mp (he.trans hc.symm)
        omega
    rw [find?, if_pos hr, Option.map_eq_some_iff, ← hp.getElem?_entries_iff hr]
    simp only [hindex]
  · rw [find?, if_neg hr]
    refine ⟨fun h => by simp at h, fun h => ?_⟩
    exact absurd (hp.entry_lt (Array.mem_of_getElem? h)).1 hr

@[simp] theorem nrow_dense (nrow ncol : Nat) : (dense nrow ncol).nrow = nrow := by
  simp [dense, ofRows]

@[simp] theorem ncol_dense (nrow ncol : Nat) : (dense nrow ncol).ncol = ncol := rfl

@[simp] theorem nnz_dense (nrow ncol : Nat) : (dense nrow ncol).nnz = nrow*ncol := by
  rw [dense, nnz_ofRows, countBefore, ← Array.length_toList, List.take_length]
  simp

theorem mem_dense {nrow ncol r c : Nat} : (r,c) ∈ (dense nrow ncol).entries ↔ r < nrow ∧ c < ncol := by
  rw [mem_entries, nrow_dense]
  by_cases hr : r < nrow
  · have hs : r < ((Array.range nrow).map fun _ => Array.range ncol).size := by simpa using hr
    rw [dense, row_ofRows ncol _ hs]
    simp
  · simp [hr]

theorem valid_dense (nrow ncol : Nat) : (dense nrow ncol).Valid := by
  apply valid_ofRows
  · intro row hrow c hc
    obtain ⟨r, -, rfl⟩ := Array.mem_map.mp hrow
    exact Array.mem_range.mp hc
  · intro row hrow
    obtain ⟨r, -, rfl⟩ := Array.mem_map.mp hrow
    rw [Array.toList_range]
    exact List.pairwise_lt_range

section Inside

variable {nrow ncol : Nat} {entries : Array (Nat × Nat)}

theorem mem_ofEntries_of_inside (h : ∀ r c, (r,c) ∈ entries → r < nrow ∧ c < ncol) {r c : Nat} :
    (r,c) ∈ (ofEntries nrow ncol entries).entries ↔ (r,c) ∈ entries := by
  by_cases hr : r < nrow
  · exact mem_entries_ofEntries hr
  · rw [mem_entries, nrow_ofEntries]
    constructor
    · rintro ⟨hr', -⟩
      exact absurd hr' hr
    · intro he
      exact absurd (h r c he).1 hr

theorem ofEntries?_eq (h : ∀ r c, (r,c) ∈ entries → r < nrow ∧ c < ncol) :
    ofEntries? nrow ncol entries = .ok (ofEntries nrow ncol entries) := by
  rw [ofEntries?, checkInside]
  split
  · next r c hfound =>
    obtain ⟨hr, hc⟩ := h r c (Array.mem_of_find?_eq_some hfound)
    have hout := Array.find?_some hfound
    simp [hr, hc] at hout
  · rfl

/-- The entries of a pattern make the pattern again, in whatever order and however often they stand. -/
theorem Valid.ofEntries?_of_mem_iff {p : Pattern} (hp : p.Valid) (h : ∀ r c, (r,c) ∈ entries ↔ (r,c) ∈ p.entries) :
    ofEntries? p.nrow p.ncol entries = .ok p := by
  have hinside : ∀ r c, (r,c) ∈ entries → r < p.nrow ∧ c < p.ncol := fun r c hrc => hp.entry_lt ((h r c).mp hrc)
  have hv : (ofEntries p.nrow p.ncol entries).Valid := valid_ofEntries fun r c hrc => (hinside r c hrc).2
  have heq : ofEntries p.nrow p.ncol entries = p :=
    hv.ext hp (nrow_ofEntries _ _ _) (ncol_ofEntries _ _ _) fun r c => (mem_ofEntries_of_inside hinside).trans (h r c)
  rw [ofEntries?_eq hinside, heq]

theorem exists_of_ofEntries? {q : Pattern} (h : ofEntries? nrow ncol entries = .ok q) :
    (∀ r c, (r,c) ∈ entries → r < nrow ∧ c < ncol) ∧ ofEntries nrow ncol entries = q := by
  rw [ofEntries?, checkInside] at h
  split at h
  · cases h
  · next hnone => exact ⟨fun r c hrc => by simpa using Array.find?_eq_none.mp hnone (r,c) hrc, Except.ok.inj h⟩

end Inside

end Fluxion.Pattern
