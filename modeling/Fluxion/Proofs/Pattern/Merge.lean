import Fluxion.Pattern.Lemmas
import Fluxion.Proofs.Grouping

/-!
Patterns from lists of entries. The columns are grouped by their rows, and every row is put in order and rid of
repetitions inside the one array that holds them all. What is written never runs ahead of what is still to be read, so
the rows come out as if each had an array of its own.
-/
set_option autoImplicit false

namespace Fluxion.Pattern

/-- Without the elements that repeat the one before them; `last` stands before the first. -/
def changes (last : Option Nat) : List Nat → List Nat
  | [] => []
  | c :: cs => if last = some c then changes last cs else c :: changes (some c) cs

theorem once_eq_cons (c : Nat) (cs : List Nat) : once (c :: cs) = c :: changes (some c) cs := by
  induction cs generalizing c with
  | nil => rfl
  | cons d cs ih =>
    rw [once_cons, ih, changes]
    by_cases h : c = d
    · simp [h]
    · simp [h, Ne.symm h]

/-- Of equal neighbours it does not matter which one stays. -/
theorem changes_none (cs : List Nat) : changes none cs = once cs := by
  cases cs with
  | nil => rfl
  | cons c cs => rw [once_eq_cons, changes, if_neg (by simp)]

/-- Putting a list in place of another one of the same length. -/
theorem toList_foldl_set (xs zs : List Nat) {ys ts : List Nat} (h : ts.length = ys.length) {col : Array Nat}
    (hcol : col.toList = xs ++ ys ++ zs) :
    ((ts.zipIdx xs.length).foldl (fun col (c,k) => col.setIfInBounds k c) col).toList = xs ++ ts ++ zs := by
  induction ts generalizing xs ys col with
  | nil => simpa [List.length_eq_zero_iff.mp h.symm] using hcol
  | cons t ts ih =>
    obtain ⟨y, ys, rfl⟩ := List.exists_cons_of_length_pos (l := ys) (by rw [← h]; simp)
    have hset : (col.setIfInBounds xs.length t).toList = (xs ++ [t]) ++ ys ++ zs := by
      simp [hcol]
    have hrest := ih (xs ++ [t]) (by simpa using h) hset
    simpa using hrest

theorem toList_sortRow {xs ys zs : List Nat} {col : Array Nat} (h : col.toList = xs ++ ys ++ zs) :
    (sortRow col xs.length (xs.length + ys.length)).toList = xs ++ ys.mergeSort ++ zs := by
  have hrow : (col.extract xs.length (xs.length + ys.length)).toList = ys := by
    simp [List.extract_eq_take_drop, h]
  rw [sortRow, hrow]
  exact toList_foldl_set xs zs (List.length_mergeSort _) h

namespace Merge

/-- Column number `k` is the first of `rest`, the columns to be read. Between them and the columns that stay, `done`,
is what has been read and merged. -/
structure Between (done rest : List Nat) (k : Nat) (s : Merge) : Prop where
  col : ∃ old : List Nat, s.col.toList = done ++ old ++ rest ∧ k = done.length + old.length
  written : s.written = done.length

variable {done rest : List Nat} {k : Nat} {s : Merge}

/-- Writing is behind reading. -/
theorem Between.written_le (h : Between done rest k s) : s.written ≤ k := by
  obtain ⟨old, -, hk⟩ := h.col
  rw [h.written, hk]
  exact Nat.le_add_right _ _

theorem Between.keep {c : Nat} (h : Between done (c :: rest) k s) (last : Option Nat) :
    ∃ t, Merge.keep (s, last) k = (t, some c) ∧ Between (done ++ changes last [c]) rest (k+1) t ∧
      t.rowStart = s.rowStart := by
  obtain ⟨old, hcol, hk⟩ := h.col
  have hread : s.col.getD k 0 = c := by
    rw [Array.getD_eq_getD_getElem?, ← Array.getElem?_toList, hcol, hk]
    simp
  by_cases hlast : last = some c
  · refine ⟨s, by simp [Merge.keep, hread, hlast], ⟨⟨old ++ [c], ?_, ?_⟩, ?_⟩, rfl⟩
    · simp [changes, hlast, hcol]
    · simp [changes, hlast, hk, Nat.add_assoc]
    · simp [changes, hlast, h.written]
  · refine ⟨⟨s.col.setIfInBounds s.written c, s.written+1, s.rowStart⟩, by simp [Merge.keep, hread, hlast],
      ⟨?_, by simp [changes, hlast, h.written]⟩, rfl⟩
    -- The column is written over the first of the old ones, or where it stands.
    cases old with
    | nil => exact ⟨[], by simp [changes, hlast, hcol, h.written], by simp [changes, hlast, hk]⟩
    | cons a old =>
      refine ⟨old ++ [c], by simp [changes, hlast, hcol, h.written], ?_⟩
      simp [changes, hlast, hk]
      omega

theorem changes_append_singleton (last : Option Nat) (c : Nat) (cs : List Nat) :
    changes last (c :: cs) = changes last [c] ++ changes (some c) cs := by
  by_cases h : last = some c <;> simp [changes, h]

theorem Between.foldl {cs : List Nat} (h : Between done (cs ++ rest) k s) (last : Option Nat) :
    ∃ t, ((List.range' k cs.length).foldl Merge.keep (s, last)).1 = t ∧
      Between (done ++ changes last cs) rest (k + cs.length) t ∧ t.rowStart = s.rowStart := by
  induction cs generalizing done k s last with
  | nil => exact ⟨s, rfl, by simpa [changes] using h, rfl⟩
  | cons c cs ih =>
    obtain ⟨t, ht, hbetween, hstart⟩ := h.keep last
    obtain ⟨u, hu, hbetween', hstart'⟩ := ih hbetween (some c)
    refine ⟨u, ?_, ?_, hstart'.trans hstart⟩
    · rw [List.length_cons, List.range'_succ, List.foldl_cons, ht, hu]
    · rw [changes_append_singleton, ← List.append_assoc, List.length_cons, Nat.add_comm cs.length, ← Nat.add_assoc]
      exact hbetween'

theorem Between.row {cs : List Nat} (h : Between done (cs ++ rest) k s) :
    Between (done ++ once cs.mergeSort) rest (k + cs.length) (s.row k (k + cs.length)) ∧
      (s.row k (k + cs.length)).rowStart = s.rowStart.push (done.length + (once cs.mergeSort).length) := by
  obtain ⟨old, hcol, hk⟩ := h.col
  have hsorted : Between done (cs.mergeSort ++ rest) k ⟨sortRow s.col k (k + cs.length), s.written, s.rowStart⟩ := by
    refine ⟨⟨old, ?_, hk⟩, h.written⟩
    have hsort : (sortRow s.col (done ++ old).length ((done ++ old).length + cs.length)).toList =
        done ++ old ++ cs.mergeSort ++ rest := toList_sortRow (by simpa using hcol)
    rw [List.length_append, ← hk] at hsort
    simpa using hsort
  obtain ⟨t, ht, hbetween, hstart⟩ := hsorted.foldl none
  rw [changes_none, List.length_mergeSort] at hbetween
  rw [List.length_mergeSort] at ht
  have hrow : s.row k (k + cs.length) = ⟨t.col, t.written, t.rowStart.push t.written⟩ := by
    rw [Merge.row, Nat.add_sub_cancel_left]
    simp only [ht]
  rw [hrow]
  refine ⟨⟨hbetween.col, hbetween.written⟩, ?_⟩
  rw [hstart, hbetween.written, List.length_append]

end Merge

section Entries

variable (nrow ncol : Nat) (entries : Array (Nat × Nat))

/-- Columns that are listed for a row, in the order of the list. -/
def listed (r : Nat) : List Nat := (entries.toList.filter (·.1 = r)).map (·.2)

/-- The columns of a row, in order and each once. -/
def merged (r : Nat) : List Nat := once (listed entries r).mergeSort

/-- Where row `r` begins before anything is merged. -/
theorem getD_starts_entries {nrow r : Nat} (h : r ≤ nrow) :
    (Grouping.starts nrow (entries.map (·.1))).getD r 0 = ((List.range r).flatMap (listed entries)).length := by
  have hlength : (Grouping.blocks Prod.fst entries.toList [] r).length = _ := Grouping.length_blocks ..
  rw [Grouping.getD_starts _ h]
  simp only [Grouping.blocks, Grouping.block, List.append_nil, List.countP_nil, List.replicate_zero,
    List.length_flatMap, List.length_map] at hlength
  simp only [Array.toList_map, List.countP_map, Function.comp_def, ← hlength, listed, List.length_flatMap, List.length_map]

/-- The merge of the rows before `r`. -/
def mergeBefore (r : Nat) : Merge :=
  let starts := Grouping.starts nrow (entries.map (·.1))
  (List.range r).foldl (fun s r => s.row (starts.getD r 0) (starts.getD (r+1) 0))
    ⟨(Grouping.arrange nrow (·.1) entries).map (·.2), 0, #[0]⟩

theorem mergeBefore_succ (r : Nat) : mergeBefore nrow entries (r+1) =
    (mergeBefore nrow entries r).row ((Grouping.starts nrow (entries.map (·.1))).getD r 0)
      ((Grouping.starts nrow (entries.map (·.1))).getD (r+1) 0) := by
  simp [mergeBefore, List.range_succ]

/-- Before a row is merged, the rows before it are, and the columns of the others stand where they were put. -/
theorem between_mergeBefore {r : Nat} (h : r ≤ nrow) :
    Merge.Between ((List.range r).flatMap (merged entries)) ((List.range' r (nrow-r)).flatMap (listed entries))
        ((List.range r).flatMap (listed entries)).length (mergeBefore nrow entries r) ∧
      ((mergeBefore nrow entries r).rowStart, ((List.range r).flatMap (merged entries)).length) =
        (List.range r).foldl (fun (acc, n) r => (acc.push (n + (merged entries r).length), n + (merged entries r).length))
          (#[0], 0) := by
  induction r with
  | zero =>
    refine ⟨⟨⟨[], ?_, rfl⟩, rfl⟩, rfl⟩
    have hcol : (mergeBefore nrow entries 0).col = (Grouping.arrange nrow (·.1) entries).map (·.2) := rfl
    rw [hcol, Array.toList_map, Grouping.toList_arrange, List.map_flatMap, List.range_eq_range']
    rfl
  | succ r ih =>
    obtain ⟨hbetween, hstarts⟩ := ih (by omega)
    have hrest : List.range' r (nrow-r) = r :: List.range' (r+1) (nrow-(r+1)) := by
      rw [← List.range'_succ]
      congr 1
      omega
    rw [hrest, List.flatMap_cons] at hbetween
    obtain ⟨hbetween', hstart⟩ := hbetween.row
    have hnext : ((List.range (r+1)).flatMap (listed entries)).length =
        ((List.range r).flatMap (listed entries)).length + (listed entries r).length := by
      simp [List.range_succ]
    rw [mergeBefore_succ, getD_starts_entries entries (Nat.le_of_succ_le h), getD_starts_entries entries h, hnext]
    refine ⟨by simpa [List.range_succ, merged] using hbetween', ?_⟩
    rw [List.range_succ, List.foldl_append, ← hstarts, hstart]
    simp [merged]

/-- Every row has the columns that are listed for it, in order and each once. -/
theorem ofEntries_eq : ofEntries nrow ncol entries =
    ofRows ncol ((Array.range nrow).map fun r => (merged entries r).toArray) := by
  obtain ⟨hbetween, hstarts⟩ := between_mergeBefore nrow entries (Nat.le_refl nrow)
  obtain ⟨old, hcol, -⟩ := hbetween.col
  have hmake : ofEntries nrow ncol entries = ⟨nrow, ncol, (mergeBefore nrow entries nrow).rowStart,
      (mergeBefore nrow entries nrow).col.take (mergeBefore nrow entries nrow).written⟩ := rfl
  rw [hmake, ofRows, Pattern.mk.injEq]
  refine ⟨by simp, rfl, ?_, ?_⟩
  · have hfold := congrArg Prod.fst hstarts
    rw [starts, ← Array.foldl_toList]
    simpa [List.foldl_map] using hfold
  · apply Array.toList_inj.mp
    simp [Array.take_eq_extract, hcol, hbetween.written, List.flatMap_def, List.extract_eq_take_drop, Function.comp_def]

end Entries

section Listed

variable {nrow ncol : Nat} {entries : Array (Nat × Nat)}

@[simp] theorem nrow_ofEntries (nrow ncol : Nat) (entries : Array (Nat × Nat)) :
    (ofEntries nrow ncol entries).nrow = nrow := rfl

@[simp] theorem ncol_ofEntries (nrow ncol : Nat) (entries : Array (Nat × Nat)) :
    (ofEntries nrow ncol entries).ncol = ncol := rfl

theorem mem_merged {r c : Nat} : c ∈ merged entries r ↔ (r,c) ∈ entries := by
  have hmem := mem_sortedOnce (listed entries r).toArray (x := c)
  simpa [sortedOnce, merged, listed] using hmem

theorem pairwise_merged (r : Nat) : (merged entries r).Pairwise (· < ·) :=
  pairwise_sortedOnce (listed entries r).toArray

theorem row_ofEntries {r : Nat} (h : r < nrow) :
    (ofEntries nrow ncol entries).row r = (merged entries r).toArray := by
  rw [ofEntries_eq, row_ofRows _ _ (by simpa using h)]
  simp

/-- The entries of the pattern are the listed ones, whatever their order and repetition. -/
theorem mem_entries_ofEntries {r c : Nat} (h : r < nrow) :
    (r,c) ∈ (ofEntries nrow ncol entries).entries ↔ (r,c) ∈ entries := by
  rw [mem_entries, nrow_ofEntries, row_ofEntries h, List.mem_toArray, mem_merged]
  exact and_iff_right h

theorem valid_ofEntries (h : ∀ r c, (r,c) ∈ entries → c < ncol) : (ofEntries nrow ncol entries).Valid := by
  rw [ofEntries_eq]
  refine valid_ofRows (fun row hrow c hc => ?_) fun row hrow => ?_
  · obtain ⟨r, -, rfl⟩ := Array.mem_map.mp hrow
    exact h r c (mem_merged.mp (List.mem_toArray.mp hc))
  · obtain ⟨r, -, rfl⟩ := Array.mem_map.mp hrow
    exact pairwise_merged r

end Listed

end Fluxion.Pattern
