import Fluxion.Coloring.Check
import Fluxion.Proofs.Coloring.Guarantees
import Fluxion.Proofs.Run

/-!
The checkers of colorings. As many entries as indices, and an entry for each index, leave one color to each. A
column coloring is accepted exactly where it is one. Of a star coloring the checker asks all but that each index has
an entry.
-/
set_option autoImplicit false

namespace Fluxion.Coloring

/-- Seeds for `n` indices that give each of them exactly one color. -/
structure Assigns (n : Nat) (s : Pattern) : Prop where
  ncol : s.ncol = n
  one : ∀ i < n, ∃! k, (k,i) ∈ s.entries

/-- Each column has exactly one color, and columns of one color share no row. -/
structure ColumnColored (a s : Pattern) : Prop extends Assigns a.ncol s where
  apart : ∀ k c d, c ≠ d → Meets a c d → (k,c) ∈ s.entries → (k,d) ∉ s.entries

/-- Each index has exactly one color, neighbours differ in color, and any path on four vertices has three colors. -/
structure StarColored (a s : Pattern) : Prop extends Assigns a.ncol s where
  apart : ∀ v w k, Adjacent a v w → (k,v) ∈ s.entries → (k,w) ∉ s.entries
  path : ∀ v w x y, Adjacent a v w → Adjacent a w x → Adjacent a x y → [v,w,x,y].Nodup →
    ¬∃ k l, ∀ u ∈ [v,w,x,y], (k,u) ∈ s.entries ∨ (l,u) ∈ s.entries

section Entries

variable {s : Pattern} {n : Nat}

/-- Each index has an entry. -/
def Covers (n : Nat) (s : Pattern) : Prop := ∀ i < n, ∃ k, (k,i) ∈ s.entries

/-- The index of every entry. -/
def indices (s : Pattern) : List Nat := s.entries.toList.map (·.2)

theorem mem_indices {i : Nat} : i ∈ indices s ↔ ∃ k, (k,i) ∈ s.entries := by
  simp [indices]

theorem length_indices (hs : s.Valid) : (indices s).length = s.nnz := by
  rw [indices, List.length_map, Array.length_toList, hs.size_entries]

theorem Assigns.nodup_indices (h : Assigns n s) (hs : s.Valid) : (indices s).Nodup := by
  refine hs.nodup_entries.map_on ?_
  rintro ⟨k, i⟩ hk ⟨l, _⟩ hl rfl
  have hk : (k,i) ∈ s.entries := Array.mem_toList_iff.mp hk
  have hi : i < n := h.ncol ▸ (hs.entry_lt hk).2
  rw [(h.one i hi).unique hk (Array.mem_toList_iff.mp hl)]

/-- Counting the entries tells whether an index that has a color has another one. -/
theorem assigns_iff (hs : s.Valid) : Assigns n s ↔ s.ncol = n ∧ s.nnz = n ∧ Covers n s := by
  constructor
  · intro h
    have hcovers : Covers n s := fun i hi => (h.one i hi).exists
    have hperm : (indices s).Perm (List.range n) := by
      refine (List.perm_ext_iff_of_nodup (h.nodup_indices hs) List.nodup_range).mpr fun i => ?_
      rw [mem_indices, List.mem_range]
      exact ⟨fun ⟨k, hk⟩ => h.ncol ▸ (hs.entry_lt hk).2, hcovers i⟩
    refine ⟨h.ncol, ?_, hcovers⟩
    rw [← length_indices hs, hperm.length_eq, List.length_range]
  · rintro ⟨hncol, hnnz, hcovers⟩
    have hsubset : List.range n ⊆ indices s := fun i hi => mem_indices.mpr (hcovers i (List.mem_range.mp hi))
    have hperm : (List.range n).Perm (indices s) :=
      (List.subperm_of_subset List.nodup_range hsubset).perm_of_length_le (by simp [length_indices hs, hnnz])
    have hnodup : (indices s).Nodup := hperm.nodup_iff.mp List.nodup_range
    refine ⟨hncol, fun i hi => ?_⟩
    obtain ⟨k, hk⟩ := hcovers i hi
    refine ⟨k, hk, fun l hl => ?_⟩
    have he := List.inj_on_of_nodup_map hnodup (Array.mem_toList_iff.mpr hl) (Array.mem_toList_iff.mpr hk) rfl
    exact congrArg Prod.fst he

/-- The last entry of an index gives its color. -/
theorem color_foldl (es : List (Nat × Nat)) {cs : Colors} {i : Nat} (hi : i < cs.size) :
    color (es.foldl (fun cs (k,i) => cs.setIfInBounds i (some k)) cs) i =
      ((es.reverse.find? (·.2 == i)).map (·.1)).or (color cs i) := by
  induction es generalizing cs with
  | nil => rfl
  | cons e es ih =>
    obtain ⟨k, j⟩ := e
    rw [List.foldl_cons, ih (by simpa using hi), List.reverse_cons, List.find?_append]
    cases es.reverse.find? (·.2 == i) with
    | some e => rfl
    | none =>
      by_cases hj : j = i
      · subst hj
        simp [color_set _ _ _ _ hi]
      · have hset : color (cs.setIfInBounds j (some k)) i = color cs i := by
          simp [color, hj]
        simp [hj, hset]

theorem size_colorsOf (s : Pattern) : (colorsOf s).size = s.ncol := by
  have general (es : List (Nat × Nat)) (cs : Colors) :
      (es.foldl (fun cs (k,i) => cs.setIfInBounds i (some k)) cs).size = cs.size := by
    induction es generalizing cs with
    | nil => rfl
    | cons e es ih => rw [List.foldl_cons, ih, Array.size_setIfInBounds]
  rw [colorsOf, ← Array.foldl_toList, general, Array.size_replicate]

theorem color_colorsOf (hs : s.Valid) (i : Nat) :
    color (colorsOf s) i = (s.entries.toList.reverse.find? (·.2 == i)).map (·.1) := by
  by_cases hi : i < s.ncol
  · rw [colorsOf, ← Array.foldl_toList, color_foldl _ (by simpa using hi), color_replicate, Option.or_none]
  · have hout : (colorsOf s)[i]? = none := Array.getElem?_eq_none (by rw [size_colorsOf]; omega)
    have hnone : s.entries.toList.reverse.find? (·.2 == i) = none := List.find?_eq_none.mpr fun e he => by
      have hlt := (hs.entry_lt (r := e.1) (c := e.2) (by simpa using he)).2
      simp only [beq_iff_eq]
      omega
    rw [hnone, color, hout]
    rfl

theorem mem_of_color (hs : s.Valid) {i k : Nat} (h : color (colorsOf s) i = some k) : (k,i) ∈ s.entries := by
  rw [color_colorsOf hs, Option.map_eq_some_iff] at h
  obtain ⟨⟨_, j⟩, he, rfl⟩ := h
  obtain rfl : j = i := by simpa using List.find?_some he
  simpa using List.mem_of_find?_eq_some he

theorem exists_color (hs : s.Valid) {i : Nat} : (∃ k, color (colorsOf s) i = some k) ↔ ∃ k, (k,i) ∈ s.entries := by
  refine ⟨fun ⟨k, hk⟩ => ⟨k, mem_of_color hs hk⟩, fun ⟨k, hk⟩ => ?_⟩
  have hfound : (s.entries.toList.reverse.find? (·.2 == i)).isSome :=
    List.find?_isSome.mpr ⟨(k,i), by simpa using hk, by simp⟩
  rw [color_colorsOf hs]
  exact ⟨_, by rw [← Option.some_get hfound]; rfl⟩

/-- Where each index has one color, this color is read. -/
theorem Assigns.color_eq (h : Assigns n s) (hs : s.Valid) {i k : Nat} :
    color (colorsOf s) i = some k ↔ (k,i) ∈ s.entries := by
  refine ⟨mem_of_color hs, fun hk => ?_⟩
  obtain ⟨l, hl⟩ := (exists_color hs).mpr ⟨k, hk⟩
  have hi : i < n := h.ncol ▸ (hs.entry_lt hk).2
  rw [hl, (h.one i hi).unique (mem_of_color hs hl) hk]

theorem isColored_iff (hs : s.Valid) : isColored (colorsOf s) = true ↔ Covers s.ncol s := by
  have hread (i : Nat) (hi : i < (colorsOf s).size) : color (colorsOf s) i = (colorsOf s)[i] := by
    simp [color, hi]
  rw [isColored, Array.all_eq_true]
  constructor
  · intro h i hi
    have hi : i < (colorsOf s).size := by rwa [size_colorsOf]
    rw [← exists_color hs, ← Option.isSome_iff_exists, hread i hi]
    exact h i hi
  · intro h i hi
    rw [← hread i hi, Option.isSome_iff_exists, exists_color hs]
    exact h i (by rwa [size_colorsOf] at hi)

end Entries

section Rows

variable {cs : Colors} {count : Nat}

/-- The colors seen so far and that of one more column, unless it has been seen. -/
def meet (cs : Colors) (count : Nat) : Option (Array Bool) → Nat → Option (Array Bool)
  | none, _ => none
  | some seen, c =>
    let k := (color cs c).getD count
    if seen.getD k false then none else some (seen.setIfInBounds k true)

theorem rowSeparated_eq (row : List Nat) :
    rowSeparated cs count row = (row.foldl (meet cs count) (some (.replicate count false))).isSome := rfl

theorem foldl_meet_none (row : List Nat) : row.foldl (meet cs count) none = none := by
  induction row with
  | nil => rfl
  | cons c row ih => exact ih

/-- A row goes on while the colors to come have not been seen and come once. -/
theorem foldl_meet (row : List Nat) {seen : Array Bool}
    (h : ∀ c ∈ row, ∃ k < seen.size, color cs c = some k) :
    (row.foldl (meet cs count) (some seen)).isSome = true ↔
      (∀ c ∈ row, ∀ k, color cs c = some k → seen.getD k false = false) ∧
      row.Pairwise fun c d => color cs c ≠ color cs d := by
  induction row generalizing seen with
  | nil => simp
  | cons c row ih =>
    obtain ⟨⟨k, hk, hc⟩, hrow⟩ := List.forall_mem_cons.mp h
    have hmeet : meet cs count (some seen) c =
        if seen.getD k false then none else some (seen.setIfInBounds k true) := by
      simp only [meet, hc, Option.getD_some]
    rw [List.foldl_cons, hmeet, List.pairwise_cons, List.forall_mem_cons]
    cases hseen : seen.getD k false with
    | true =>
      rw [if_pos rfl, foldl_meet_none]
      refine iff_of_false Bool.false_ne_true fun hall => ?_
      cases hseen.symm.trans (hall.1.1 k hc)
    | false =>
      have hset {l : Nat} (hl : l < seen.size) :
          (seen.setIfInBounds k true).getD l false = false ↔ k ≠ l ∧ seen.getD l false = false := by
        by_cases he : k = l
        · simp [he, hl]
        · simp [Array.getD_eq_getD_getElem?, he]
      have hnext : (∀ d ∈ row, ∀ l, color cs d = some l → (seen.setIfInBounds k true).getD l false = false) ↔
          (∀ d ∈ row, color cs c ≠ color cs d) ∧ ∀ d ∈ row, ∀ l, color cs d = some l → seen.getD l false = false := by
        rw [← forall₂_and]
        refine forall₂_congr fun d hd => ?_
        obtain ⟨l, hl, hdl⟩ := hrow d hd
        simp only [hc, hdl, Option.some.injEq, forall_eq', ne_eq, hset hl]
      have hfirst : ∀ l, color cs c = some l → seen.getD l false = false := fun l hl => by
        rwa [← Option.some.inj (hc.symm.trans hl)]
      rw [if_neg Bool.false_ne_true, ih (by simpa using hrow), hnext]
      tauto

theorem rowSeparated_iff {row : List Nat} (h : ∀ c ∈ row, ∃ k < count, color cs c = some k) :
    rowSeparated cs count row = true ↔ row.Pairwise fun c d => color cs c ≠ color cs d := by
  rw [rowSeparated_eq, foldl_meet row (by simpa using h)]
  refine and_iff_right fun c hc k hk => ?_
  rw [Array.getD_eq_getD_getElem?, Array.getElem?_replicate]
  split <;> rfl

end Rows

section Columns

variable {a s : Pattern}

theorem fits_and_covers (hs : s.Valid) : fits a s = true ∧ Covers a.ncol s ↔ Assigns a.ncol s := by
  rw [assigns_iff hs, fits, Bool.and_eq_true, beq_iff_eq, beq_iff_eq, and_assoc]

theorem Assigns.separated_iff (h : Assigns a.ncol s) (ha : a.Valid) (hs : s.Valid) :
    (∀ r < a.nrow, rowSeparated (colorsOf s) s.nrow (a.row r).toList = true) ↔
      ∀ k c d, c ≠ d → Meets a c d → (k,c) ∈ s.entries → (k,d) ∉ s.entries := by
  have hrow (r : Nat) (hr : r < a.nrow) : rowSeparated (colorsOf s) s.nrow (a.row r).toList = true ↔
      ∀ c ∈ a.row r, ∀ d ∈ a.row r, c ≠ d → color (colorsOf s) c ≠ color (colorsOf s) d := by
    have hnodup : (a.row r).toList.Nodup := (ha.strict r hr).imp Nat.ne_of_lt
    have hsymm : Std.Symm fun c d => color (colorsOf s) c ≠ color (colorsOf s) d := ⟨fun _ _ => Ne.symm⟩
    have hcolored (c : Nat) (hc : c ∈ (a.row r).toList) : ∃ k < s.nrow, color (colorsOf s) c = some k := by
      obtain ⟨k, hk, -⟩ := h.one c (ha.bound r hr c (Array.mem_toList_iff.mp hc))
      exact ⟨k, (hs.entry_lt hk).1, (h.color_eq hs).mpr hk⟩
    rw [rowSeparated_iff hcolored, ← hnodup.pairwise_coe]
    simp [Set.Pairwise]
  constructor
  · rintro hall k c d hne ⟨r, hc, hd⟩ hkc hkd
    obtain ⟨hr, hc⟩ := Pattern.mem_entries.mp hc
    refine (hrow r hr).mp (hall r hr) c hc d (Pattern.mem_entries.mp hd).2 hne ?_
    rw [(h.color_eq hs).mpr hkc, (h.color_eq hs).mpr hkd]
  · intro hapart r hr
    refine (hrow r hr).mpr fun c hc d hd hne hcolor => ?_
    obtain ⟨k, hk, -⟩ := h.one c (ha.bound r hr c hc)
    have hkc : color (colorsOf s) c = some k := (h.color_eq hs).mpr hk
    exact hapart k c d hne ⟨r, Pattern.mem_entries.mpr ⟨hr, hc⟩, Pattern.mem_entries.mpr ⟨hr, hd⟩⟩ hk
      (mem_of_color hs (hcolor ▸ hkc))

theorem isColumnColoring_iff (ha : a.Valid) (hs : s.Valid) : isColumnColoring a s = true ↔ ColumnColored a s := by
  have hwidth : fits a s = true → s.ncol = a.ncol := fun h => by
    rw [fits, Bool.and_eq_true, beq_iff_eq] at h
    exact h.1
  rw [isColumnColoring, separatesRows, Bool.and_eq_true, Bool.and_eq_true, isColored_iff hs, List.all_eq_true]
  simp only [List.mem_range]
  constructor
  · rintro ⟨hfits, hcovers, hrows⟩
    have h : Assigns a.ncol s := (fits_and_covers hs).mp ⟨hfits, hwidth hfits ▸ hcovers⟩
    exact ⟨h, (h.separated_iff ha hs).mp hrows⟩
  · rintro ⟨h, hapart⟩
    obtain ⟨hfits, hcovers⟩ := (fits_and_covers hs).mpr h
    exact ⟨hfits, h.ncol.symm ▸ hcovers, (h.separated_iff ha hs).mpr hapart⟩

/-- Valid patterns have rows that can be reached, so the checker answers. -/
theorem isColumnColoring?_eq (ha : a.Valid) (hs : s.Valid) :
    isColumnColoring? a s = .ok (isColumnColoring a s) := by
  rw [isColumnColoring?, hs.checkStarts, ha.checkStarts]
  by_cases hfits : fits a s
  · by_cases hcolored : isColored (colorsOf s)
    · simp [hfits, hcolored, ok_bind, pure, Except.pure]
    · simp [isColumnColoring, separatesRows, hfits, hcolored, ok_bind, pure, Except.pure]
  · simp [isColumnColoring, hfits, pure, Except.pure]

end Columns

section Paths

variable {a s : Pattern} {cs : Colors}

/-- The paths around vertex `b` that the checker looks at. -/
theorem starAt_iff (hsquare : a.nrow = a.ncol) (ha : a.Valid) {b : Nat} (hb : b < a.nrow) : starAt a cs b = true ↔
    (∀ x, Adjacent a b x → color cs x ≠ color cs b) ∧ ∀ x y d, Adjacent a b x → Adjacent a b y → Adjacent a y d →
      x ≠ y → color cs x = color cs y → d ≠ b → color cs d ≠ color cs b := by
  have hlt {y : Nat} (h : Adjacent a b y) : y < a.nrow := hsquare ▸ (ha.entry_lt h.1).2
  simp only [starAt, Bool.and_eq_true, List.all_eq_true, mem_neighbours hb, Bool.or_eq_true, bne_iff_ne, beq_iff_eq]
  refine and_congr_right fun _ => ⟨fun h x y d hx hy hd hne hcolor hdb => ?_, fun h x hx y hy => ?_⟩
  · rcases h x hx y hy with (he | hdiffer) | hends
    · exact absurd he hne
    · exact absurd hcolor hdiffer
    · exact (hends d ((mem_neighbours (hlt hy)).mpr hd)).resolve_left hdb
  · by_cases hne : x = y
    · exact .inl (.inl hne)
    · by_cases hcolor : color cs x = color cs y
      · refine .inr fun d hd => ?_
        by_cases hdb : d = b
        · exact .inl hdb
        · exact .inr (h x y d hx hy ((mem_neighbours (hlt hy)).mp hd) hne hcolor hdb)
      · exact .inl (.inr hcolor)

/-- Around the second vertex of each path the checker sees the path. -/
theorem separatesPaths_iff (ha : a.Valid) (hsymm : a.isSymmetric = true)
    (hcolored : ∀ v < a.ncol, ∃ k, color cs v = some k) : separatesPaths a cs = true ↔ StarFree a cs := by
  obtain ⟨hsquare, hmirror⟩ := (Pattern.isSymmetric_iff ha).mp hsymm
  have hlt {v w : Nat} (h : Adjacent a v w) : v < a.nrow := (ha.entry_lt h.1).1
  rw [separatesPaths, List.all_eq_true]
  simp only [List.mem_range]
  constructor
  · intro hall
    have hat {b : Nat} (hb : b < a.nrow) := (starAt_iff hsquare ha hb).mp (hall b hb)
    refine ⟨fun v w k hadj hv hw => ?_, fun v w x k hnone hvw => ?_, ?_⟩
    · exact (hat (hlt hadj)).1 w hadj (hw.trans hv.symm)
    · obtain ⟨l, hl⟩ := hcolored v (hsquare ▸ hlt hvw)
      cases hnone.symm.trans hl
    · intro v w x y k l hvw hwx hxy hv hw hx hy
      by_contra hends
      obtain ⟨hvx, hwy⟩ := not_or.mp hends
      exact (hat (hlt hwx)).2 v x y (hvw.symm hmirror) hwx hxy hvx (hv.trans hx.symm) (Ne.symm hwy)
        (hy.trans hw.symm)
  · intro h b hb
    obtain ⟨l, hl⟩ := hcolored b (hsquare ▸ hb)
    refine (starAt_iff hsquare ha hb).mpr ⟨fun x hx hcolor => ?_, fun x y d hx hy hd hne hcolor hdb hends => ?_⟩
    · exact h.apart b x l hx hl (hcolor.trans hl)
    · obtain ⟨k, hk⟩ := hcolored y (hsquare ▸ hlt hd)
      rcases h.path x b y d k l (hx.symm hmirror) hy hd (hcolor.trans hk) hl hk (hends.trans hl) with he | he
      · exact hne he
      · exact hdb he.symm

theorem Assigns.starFree_iff (h : Assigns a.ncol s) (ha : a.Valid) (hs : s.Valid) (hsquare : a.nrow = a.ncol) :
    StarFree a (colorsOf s) ↔ StarColored a s := by
  constructor
  · intro hfree
    refine ⟨h, fun v w k hadj hv hw => ?_, ?_⟩
    · exact hfree.apart v w k hadj ((h.color_eq hs).mpr hv) ((h.color_eq hs).mpr hw)
    · rintro v w x y hvw hwx hxy hnodup ⟨k, l, hcolors⟩
      exact hfree.not_two hvw hwx hxy hnodup ⟨k, l, fun u hu =>
        (hcolors u hu).imp (h.color_eq hs).mpr (h.color_eq hs).mpr⟩
  · intro hstar
    have happart {v w k : Nat} (hadj : Adjacent a v w) (hv : color (colorsOf s) v = some k)
        (hw : color (colorsOf s) w = some k) : False :=
      hstar.apart v w k hadj (mem_of_color hs hv) (mem_of_color hs hw)
    refine ⟨fun v w k hadj hv hw => happart hadj hv hw, fun v w x k hnone hvw => ?_, ?_⟩
    · obtain ⟨k, hk, -⟩ := h.one v (hsquare ▸ (ha.entry_lt hvw.1).1)
      cases hnone.symm.trans ((h.color_eq hs).mpr hk)
    · intro v w x y k l hvw hwx hxy hv hw hx hy
      by_contra hends
      obtain ⟨hvx, hwy⟩ := not_or.mp hends
      -- If the path came back to its first vertex, both colors would be one.
      have hvy : v ≠ y := by
        rintro rfl
        exact happart hvw hv (hw.trans (hy.symm.trans hv))
      refine hstar.path v w x y hvw hwx hxy ?_ ⟨k, l, ?_⟩
      · simp [hvw.2, hwx.2, hxy.2, hvx, hwy, hvy]
      · simp [mem_of_color hs hv, mem_of_color hs hw, mem_of_color hs hx, mem_of_color hs hy]

/-- All that is not looked at is whether each index has an entry. -/
theorem isStarColoring_iff (ha : a.Valid) (hs : s.Valid) (hsymm : a.isSymmetric = true) :
    isStarColoring a s = true ∧ Covers a.ncol s ↔ StarColored a s := by
  have hsquare : a.nrow = a.ncol := ((Pattern.isSymmetric_iff ha).mp hsymm).1
  have hpaths (h : Assigns a.ncol s) : separatesPaths a (colorsOf s) = true ↔ StarColored a s := by
    rw [← h.starFree_iff ha hs hsquare]
    exact separatesPaths_iff ha hsymm fun v hv => (exists_color hs).mpr (h.one v hv).exists
  rw [isStarColoring, Bool.and_eq_true, Bool.and_eq_true, Pattern.isSquare, beq_iff_eq]
  constructor
  · rintro ⟨⟨⟨-, hfits⟩, hall⟩, hcovers⟩
    exact (hpaths ((fits_and_covers hs).mp ⟨hfits, hcovers⟩)).mp hall
  · intro h
    obtain ⟨hfits, hcovers⟩ := (fits_and_covers hs).mpr h.toAssigns
    exact ⟨⟨⟨hsquare, hfits⟩, (hpaths h.toAssigns).mpr h⟩, hcovers⟩

theorem isStarColoring?_eq (ha : a.Valid) (hs : s.Valid) :
    isStarColoring? a s = .ok (isStarColoring a s) := by
  rw [isStarColoring?, hs.checkStarts, ha.checkStarts]
  by_cases hfits : (a.isSquare && fits a s) = true
  · simp [hfits, ok_bind, pure, Except.pure]
  · simp [isStarColoring, hfits, pure, Except.pure]

end Paths

/-- The checkers answer for valid patterns. A column coloring is accepted exactly where it is one, and a star coloring
of a symmetric pattern exactly where it is one or some index has no entry. -/
theorem checkers_correct {a s : Pattern} (ha : a.Valid) (hs : s.Valid) :
    (∃ b, isColumnColoring? a s = .ok b ∧ (b = true ↔ ColumnColored a s)) ∧
    (a.isSymmetric = true →
      ∃ b, isStarColoring? a s = .ok b ∧ (b = true ∧ Covers a.ncol s ↔ StarColored a s)) :=
  ⟨⟨_, isColumnColoring?_eq ha hs, isColumnColoring_iff ha hs⟩,
    fun hsymm => ⟨_, isStarColoring?_eq ha hs, isStarColoring_iff ha hs hsymm⟩⟩

/-- The ends of the path share a color, and the vertices between have one each. -/
def chainSeeds : Pattern := .ofEntries 3 4 #[(0,0), (0,3), (1,1), (2,2)]

theorem checkers_correct_chain : chain.Valid ∧ chainSeeds.Valid ∧ chain.isSymmetric = true ∧
    ColumnColored chain chainSeeds ∧ StarColored chain chainSeeds := by
  have hseeds : chainSeeds.Valid := Pattern.valid_ofEntries fun r c h => by
    simp only [List.mem_toArray, List.mem_cons, Prod.mk.injEq, List.not_mem_nil, or_false] at h
    omega
  have hsymmetric : chain.isSymmetric = true := by cbv
  obtain ⟨⟨b, hb, hcolumn⟩, hstar⟩ := checkers_correct valid_chain hseeds
  obtain ⟨b', hb', hstar⟩ := hstar hsymmetric
  have hrunColumn : (isColumnColoring? chain chainSeeds).toOption = some true := by cbv
  have hrunStar : (isStarColoring? chain chainSeeds).toOption = some true := by cbv
  rw [hb] at hrunColumn
  rw [hb'] at hrunStar
  have hcolumn := hcolumn.mp (Option.some.inj hrunColumn)
  exact ⟨valid_chain, hseeds, hsymmetric, hcolumn,
    hstar.mp ⟨Option.some.inj hrunStar, fun i hi => (hcolumn.one i hi).exists⟩⟩

/-- Two colors of the first index make up for the second one. -/
theorem isStarColoring?_uncolored : ∃ a s : Pattern, a.Valid ∧ s.Valid ∧ a.isSymmetric = true ∧
    isStarColoring? a s = .ok true ∧ ¬StarColored a s := by
  refine ⟨⟨2, 2, #[0,1,2], #[0,1]⟩, ⟨2, 2, #[0,1,2], #[0,0]⟩, ?_, ?_, by cbv, by cbv, fun h => ?_⟩
  · constructor <;> decide
  · constructor <;> decide
  · obtain ⟨k, hk, -⟩ := h.one 1 (by decide)
    obtain ⟨hlt, hk⟩ := Pattern.mem_entries.mp hk
    have hnone : ∀ k < 2, 1 ∉ (Pattern.row ⟨2, 2, #[0,1,2], #[0,0]⟩ k).toList := by decide
    exact hnone k hlt (Array.mem_toList_iff.mpr hk)

end Fluxion.Coloring
