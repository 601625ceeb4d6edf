import Fluxion.Proofs.Coloring.Greedy
import Fluxion.Proofs.Pattern.Transpose

/-!
The seeds of a column coloring. Every column has one color, and two columns of one color share no row, so
within a row a color names a column.
-/
set_option autoImplicit false

namespace Fluxion.Coloring

/-- The rows of `s` are the colors of the columns of `a`, and no row of `a` meets a color twice. -/
structure Separates (a s : Pattern) : Prop extends Seeds a.ncol s where
  apart : ∀ k r c d, (k,c) ∈ s.entries → (k,d) ∈ s.entries → (r,c) ∈ a.entries → (r,d) ∈ a.entries →
    c = d

theorem Separates.lt {a s : Pattern} (h : Separates a s) {k c : Nat} (hk : k < s.nrow)
    (hc : c ∈ s.row k) : c < a.ncol := by
  rw [← h.ncol]
  exact (h.valid.entry_lt (Pattern.mem_entries.mpr ⟨hk, hc⟩)).2

/-- Two columns share a row. -/
def Meets (a : Pattern) (c d : Nat) : Prop := ∃ r, (r,c) ∈ a.entries ∧ (r,d) ∈ a.entries

theorem mem_columnForbidden {a : Pattern} (ha : a.Valid) {cs : Colors} {c k : Nat} (hc : c < a.ncol) :
    k ∈ columnForbidden a a.transpose cs c ↔
      ∃ r d, (r,c) ∈ a.entries ∧ (r,d) ∈ a.entries ∧ color cs d = some k := by
  simp only [columnForbidden, List.mem_flatMap, List.mem_filterMap, Array.mem_toList_iff]
  constructor
  · rintro ⟨r, hr, d, hd, hk⟩
    have he := (ha.mem_row_transpose hc).mp hr
    exact ⟨r, d, he, Pattern.mem_entries.mpr ⟨(ha.entry_lt he).1, hd⟩, hk⟩
  · rintro ⟨r, d, hrc, hrd, hk⟩
    exact ⟨r, (ha.mem_row_transpose hc).mpr hrc, d, (Pattern.mem_entries.mp hrd).2, hk⟩

/-- Columns that share a row differ, and a color is taken where such columns have all less ones. -/
theorem columns_colored {a : Pattern} (ha : a.Valid) : ∃ cs count, columns a = seeds cs count ∧
    Colored (fun cs => Apart (Meets a) cs ∧ FirstFit (Meets a) cs) a.ncol (List.range a.ncol) cs count := by
  have hapart : Keeps (columnForbidden a a.transpose) a.ncol (Apart (Meets a)) := by
    refine keeps_apart (fun v w ⟨r, hv, hw⟩ => ⟨r, hw, hv⟩) ?_
    intro cs v w k ⟨r, hv, hw⟩ _ hk
    exact (mem_columnForbidden ha (ha.entry_lt hv).2).mpr ⟨r, w, hv, hw, hk⟩
  have hforbids (cs : Colors) (v k : Nat) (hv : v < a.ncol) (hk : k ∈ columnForbidden a a.transpose cs v) :
      ∃ w, Meets a v w ∧ color cs w = some k := by
    obtain ⟨r, w, hrv, hrw, hw⟩ := (mem_columnForbidden ha hv).mp hk
    exact ⟨w, ⟨r, hrv, hrw⟩, hw⟩
  obtain ⟨cs, count, he, h⟩ := greedy_colored ⟨apart_replicate _ _, firstFit_replicate _ _⟩
    (hapart.and (keeps_firstFit hforbids)) (fun cs v k hv hk => (hforbids cs v k hv hk).imp fun _ => And.right)
    (perm_largestFirst (fun c => (a.transpose.row c).size) a.ncol)
  refine ⟨cs, count, ?_, h⟩
  unfold columns
  dsimp only
  rw [he]

theorem columns_separates {a : Pattern} (ha : a.Valid) : Separates a (columns a) := by
  obtain ⟨cs, count, hs, h⟩ := columns_colored ha
  rw [hs]
  exact ⟨h.seeded, fun k r c d hc hd hrc hrd =>
    h.has.1 c d k (mem_seeds.mp hc).2 (mem_seeds.mp hd).2 ⟨r, hrc, hrd⟩⟩

theorem rows_separates {a : Pattern} (ha : a.Valid) : Separates a.transpose (rows a) :=
  columns_separates ha.transpose

end Fluxion.Coloring
