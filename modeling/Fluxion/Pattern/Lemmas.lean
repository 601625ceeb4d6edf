import Fluxion.Pattern.Basic
import Mathlib.Algebra.Ring.Nat

/-!
Patterns through their rows: a pattern built from rows has these rows, and it is valid where they increase below
the number of columns.
-/
set_option autoImplicit false

namespace Fluxion.Pattern

/-- Entries are equal if their rows and their columns are. -/
instance : LawfulBEq (Nat × Nat) := inferInstance

/-- Entries before row `k`. -/
def countBefore (rows : Array (Array Nat)) (k : Nat) : Nat := ((rows.toList.take k).map (·.size)).sum

theorem foldl_starts (rows : List (Array Nat)) (acc : Array Nat) (n : Nat) :
    (rows.foldl (fun (acc, n) row => (acc.push (n+row.size), n+row.size)) (acc, n)).1 =
      acc ++ ((List.range rows.length).map fun k => n + ((rows.take (k+1)).map (·.size)).sum).toArray := by
  induction rows generalizing acc n with
  | nil => simp
  | cons row rest ih =>
    rw [List.foldl_cons, ih, List.length_cons, List.range_succ_eq_map]
    simp [Nat.add_assoc, Function.comp_def]

theorem starts_eq (rows : Array (Array Nat)) :
    starts rows = ((List.range (rows.size+1)).map (countBefore rows)).toArray := by
  rw [starts, ← Array.foldl_toList, foldl_starts, List.range_succ_eq_map]
  simp [countBefore, Function.comp_def]

theorem start_ofRows (ncol : Nat) (rows : Array (Array Nat)) {r : Nat} (h : r ≤ rows.size) :
    (ofRows ncol rows).start r = countBefore rows r := by
  simp only [start, ofRows, starts_eq]
  simp [Array.getD_eq_getD_getElem?, List.getElem?_range (Nat.lt_succ_of_le h)]

theorem countBefore_succ (rows : Array (Array Nat)) {r : Nat} (h : r < rows.size) :
    countBefore rows (r+1) = countBefore rows r + rows[r].size := by
  simp [countBefore, List.take_add_one, h]

theorem extract_flatten (rows : List (List Nat)) {r : Nat} (h : r < rows.length) :
    (rows.flatten.drop (((rows.take r).map (·.length)).sum)).take rows[r].length = rows[r] := by
  induction rows generalizing r with
  | nil => simp at h
  | cons row rest ih =>
    cases r with
    | zero => simp
    | succ r =>
      have hr : r < rest.length := by simpa using h
      simpa [← List.drop_drop] using ih hr

theorem row_ofRows (ncol : Nat) (rows : Array (Array Nat)) {r : Nat} (h : r < rows.size) :
    (ofRows ncol rows).row r = rows[r] := by
  rw [row, start_ofRows ncol rows (Nat.le_of_lt h), start_ofRows ncol rows h, countBefore_succ rows h]
  apply Array.toList_inj.mp
  have hf := extract_flatten (rows.toList.map (·.toList)) (r := r) (by simpa using h)
  simpa [ofRows, countBefore, List.extract_eq_take_drop, Function.comp_def, ← List.map_take] using hf

theorem nnz_ofRows (ncol : Nat) (rows : Array (Array Nat)) :
    (ofRows ncol rows).nnz = countBefore rows rows.size := by
  obtain ⟨rows⟩ := rows
  simp only [nnz, ofRows, countBefore, List.size_toArray, List.take_length, Array.size_flatten]
  simp

/-- Rows that increase below the number of columns make a valid pattern. -/
theorem valid_ofRows {ncol : Nat} {rows : Array (Array Nat)}
    (bound : ∀ row ∈ rows, ∀ c ∈ row, c < ncol)
    (strict : ∀ row ∈ rows, row.toList.Pairwise (· < ·)) : (ofRows ncol rows).Valid where
  size := by simp [ofRows, starts_eq]
  first := by rw [start_ofRows ncol rows (Nat.zero_le _)]; simp [countBefore]
  last := by rw [nnz_ofRows]; exact start_ofRows ncol rows (Nat.le_refl _)
  mono r h := by
    have h : r < rows.size := h
    rw [start_ofRows ncol rows (Nat.le_of_lt h), start_ofRows ncol rows h, countBefore_succ rows h]
    omega
  bound r h := by
    have h : r < rows.size := h
    rw [row_ofRows ncol rows h]
    exact bound _ (Array.getElem_mem h)
  strict r h := by
    have h : r < rows.size := h
    rw [row_ofRows ncol rows h]
    exact strict _ (Array.getElem_mem h)

theorem mem_entries {p : Pattern} {r c : Nat} : (r,c) ∈ p.entries ↔ r < p.nrow ∧ c ∈ p.row r := by
  simp [entries]

theorem once_cons (a : Nat) (xs : List Nat) :
    once (a :: xs) = if (once xs).head? = some a then once xs else a :: once xs := rfl

theorem mem_once {x : Nat} (xs : List Nat) : x ∈ once xs ↔ x ∈ xs := by
  induction xs generalizing x with
  | nil => simp [once]
  | cons a xs ih =>
    rw [once_cons]
    split
    · rename_i h
      have ha : a ∈ xs := ih.mp (List.mem_of_head? h)
      rw [ih, List.mem_cons]
      exact ⟨.inr, fun h => h.elim (· ▸ ha) id⟩
    · simp [ih]

theorem pairwise_once {xs : List Nat} (h : xs.Pairwise (· ≤ ·)) : (once xs).Pairwise (· < ·) := by
  induction xs with
  | nil => simp [once]
  | cons a xs ih =>
    obtain ⟨ha, hs⟩ := List.pairwise_cons.mp h
    rw [once_cons]
    split
    · exact ih hs
    · rename_i hn
      refine List.pairwise_cons.mpr ⟨fun b hb => ?_, ih hs⟩
      obtain ⟨c, r, hc⟩ := List.exists_cons_of_ne_nil (List.ne_nil_of_mem hb)
      have hac : a ≤ c := ha c ((mem_once xs).mp (by simp [hc]))
      have hne : c ≠ a := by simpa [hc] using hn
      have hcb : b = c ∨ c < b := by
        have hp := ih hs
        rw [hc] at hb hp
        exact (List.mem_cons.mp hb).imp id ((List.pairwise_cons.mp hp).1 b)
      omega

theorem mem_sortedOnce {x : Nat} (xs : Array Nat) : x ∈ sortedOnce xs ↔ x ∈ xs := by
  simp [sortedOnce, mem_once]

theorem pairwise_sortedOnce (xs : Array Nat) : (sortedOnce xs).toList.Pairwise (· < ·) := by
  have trans (a b c : Nat) : decide (a ≤ b) = true → decide (b ≤ c) = true → decide (a ≤ c) = true := by
    simpa using Nat.le_trans
  have total (a b : Nat) : (decide (a ≤ b) || decide (b ≤ a)) = true := by simpa using Nat.le_total a b
  exact pairwise_once ((List.pairwise_mergeSort trans total xs.toList).imp fun h => by simpa using h)

end Fluxion.Pattern
