import Mathlib
import Fluxion.Proofs.Coloring.Columns
import Fluxion.Proofs.Coloring.Star

/-!
What the colorings guarantee for any pattern. Every index has one color and every color an index. A greedy coloring
takes a color only where all less ones are taken by related indices, so an index of the last color has as many
related indices as there are other colors.
-/
set_option autoImplicit false

namespace Fluxion.Coloring

/-- Two rows share a column. -/
def Touches (a : Pattern) (r q : Nat) : Prop := ∃ c, (r,c) ∈ a.entries ∧ (q,c) ∈ a.entries

instance (a : Pattern) : DecidableRel (Meets a) := fun c d =>
  decidable_of_iff (∃ e ∈ a.entries, e.2 = c ∧ (e.1,d) ∈ a.entries)
    ⟨fun ⟨(r,_), hc, he, hd⟩ => ⟨r, he ▸ hc, hd⟩, fun ⟨r, hc, hd⟩ => ⟨(r,c), hc, rfl, hd⟩⟩

instance (a : Pattern) : DecidableRel (Touches a) := fun r q =>
  decidable_of_iff (∃ e ∈ a.entries, e.1 = r ∧ (q,e.2) ∈ a.entries)
    ⟨fun ⟨(_,c), hr, he, hq⟩ => ⟨c, he ▸ hr, hq⟩, fun ⟨c, hr, hq⟩ => ⟨(r,c), hr, rfl, hq⟩⟩

theorem meets_transpose {a : Pattern} (ha : a.Valid) : Meets a.transpose = Touches a := by
  funext r q
  simp only [Meets, Touches, ha.mem_transpose]

section Count

variable (conflict : Nat → Nat → Prop) [DecidableRel conflict] {n count v m : Nat} {cs : Colors}

/-- The other indices that are related to `v`. -/
def rivals (n v : Nat) : Finset Nat := {w ∈ Finset.range n | w ≠ v ∧ conflict v w}

/-- Seeds by which related indices differ in color, with no more colors than indices, nor than one more than the
largest number of indices that are related to one. -/
structure Distinguishes (n : Nat) (s : Pattern) : Prop extends Seeds n s where
  apart : ∀ v w k, v ≠ w → conflict v w → (k,v) ∈ s.entries → (k,w) ∉ s.entries
  le : s.nrow ≤ n
  few : s.nrow ≤ 1 + (Finset.range n).sup fun v => (rivals conflict n v).card

omit [DecidableRel conflict] in
/-- Indices are no fewer than the colors that they have. -/
theorem le_card_of_colors {S : Finset Nat} (h : ∀ l < m, ∃ w ∈ S, color cs w = some l) : m ≤ S.card := by
  have hsubset : Finset.range m ⊆ S.image fun w => (color cs w).getD 0 := by
    intro l hl
    obtain ⟨w, hw, hcolor⟩ := h l (Finset.mem_range.mp hl)
    exact Finset.mem_image.mpr ⟨w, hw, by rw [hcolor, Option.getD_some]⟩
  calc m = (Finset.range m).card := (Finset.card_range m).symm
    _ ≤ _ := Finset.card_le_card hsubset
    _ ≤ S.card := Finset.card_image_le

variable {conflict}

theorem Colored.distinguishes
    (h : Colored (fun cs => Apart conflict cs ∧ FirstFit conflict cs) n (List.range n) cs count) :
    Distinguishes conflict n (seeds cs count) := by
  have hlt {w l : Nat} (hw : color cs w = some l) : w ∈ Finset.range n :=
    Finset.mem_range.mpr (List.mem_range.mp ((h.colored w).mp ⟨l, hw⟩))
  refine ⟨h.seeded, fun v w k hne hconflict hv hw => ?_, ?_, ?_⟩
  · exact hne (h.has.1 v w k (mem_seeds.mp hv).2 (mem_seeds.mp hw).2 hconflict)
  · rw [nrow_seeds, ← Finset.card_range n]
    exact le_card_of_colors fun l hl => (h.used l hl).imp fun w hw => ⟨hlt hw, hw⟩
  · rw [nrow_seeds]
    rcases Nat.eq_zero_or_pos count with hzero | hpos
    · omega
    -- An index of the last color is related to one of each other color.
    obtain ⟨v, hv⟩ := h.used (count-1) (by omega)
    have hrivals : count - 1 ≤ (rivals conflict n v).card := le_card_of_colors fun l hl => by
      obtain ⟨w, hne, hconflict, hw⟩ := h.has.2 v (count-1) hv l hl
      exact ⟨w, Finset.mem_filter.mpr ⟨hlt hw, hne, hconflict⟩, hw⟩
    have hsup := Finset.le_sup (f := fun v => (rivals conflict n v).card) (hlt hv)
    omega

end Count

/-- Seeds by which neighbours differ in color, and any path on four vertices has three colors. -/
structure StarColoring (a s : Pattern) : Prop extends Seeds a.ncol s where
  apart : ∀ v w k, Adjacent a v w → (k,v) ∈ s.entries → (k,w) ∉ s.entries
  path : ∀ v w x y, Adjacent a v w → Adjacent a w x → Adjacent a x y → [v,w,x,y].Nodup →
    ¬∃ k l, ∀ u ∈ [v,w,x,y], (k,u) ∈ s.entries ∨ (l,u) ∈ s.entries

section Paths

variable {a : Pattern} {cs : Colors} {count : Nat}

/-- Of two colors a neighbour has the other one. -/
theorem StarFree.other (h : StarFree a cs) {v w k l : Nat} (hadj : Adjacent a v w) (hv : color cs v = some k)
    (hw : color cs w = some k ∨ color cs w = some l) : color cs w = some l :=
  hw.resolve_left (h.apart v w k hadj hv)

theorem StarFree.two (h : StarFree a cs) {v w x y k l : Nat} (hvw : Adjacent a v w) (hwx : Adjacent a w x)
    (hxy : Adjacent a x y) (hv : color cs v = some k) (hw : color cs w = some k ∨ color cs w = some l)
    (hx : color cs x = some k ∨ color cs x = some l) (hy : color cs y = some k ∨ color cs y = some l) :
    v = x ∨ w = y := by
  have hw' := h.other hvw hv hw
  have hx' := h.other hwx hw' hx.symm
  exact h.path v w x y k l hvw hwx hxy hv hw' hx' (h.other hxy hx' hy)

/-- A path on four vertices has no two colors that all its vertices are of. -/
theorem StarFree.not_two (h : StarFree a cs) {v w x y : Nat} (hvw : Adjacent a v w) (hwx : Adjacent a w x)
    (hxy : Adjacent a x y) (hnodup : [v,w,x,y].Nodup) :
    ¬∃ k l, ∀ u ∈ [v,w,x,y], color cs u = some k ∨ color cs u = some l := by
  rintro ⟨k, l, hread⟩
  have hends : v = x ∨ w = y := by
    rcases hread v (by simp) with hv | hv
    · exact h.two hvw hwx hxy hv (hread w (by simp)) (hread x (by simp)) (hread y (by simp))
    · exact h.two hvw hwx hxy hv (hread w (by simp)).symm (hread x (by simp)).symm (hread y (by simp)).symm
  simp only [List.nodup_cons, List.mem_cons, List.not_mem_nil, or_false, not_or] at hnodup
  rcases hends with rfl | rfl
  · exact hnodup.1.2.1 rfl
  · exact hnodup.2.1.2 rfl

theorem Colored.starColoring (h : Colored (StarFree a) a.ncol (List.range a.ncol) cs count) :
    StarColoring a (seeds cs count) := by
  refine ⟨h.seeded, fun v w k hadj hv hw => h.has.apart v w k hadj (mem_seeds.mp hv).2 (mem_seeds.mp hw).2, ?_⟩
  rintro v w x y hvw hwx hxy hnodup ⟨k, l, hcolors⟩
  exact h.has.not_two hvw hwx hxy hnodup ⟨k, l, fun u hu =>
    (hcolors u hu).imp (fun h => (mem_seeds.mp h).2) fun h => (mem_seeds.mp h).2⟩

end Paths

/-- A star coloring of a symmetric pattern exists. -/
theorem star_starColoring {a : Pattern} (ha : a.Valid) (hs : a.isSymmetric = true) :
    ∃ s, star a = .ok s ∧ StarColoring a s := by
  obtain ⟨cs, count, he, h⟩ := star_colored ha hs
  exact ⟨_, he, h.starColoring⟩

/-- The colorings of the columns and of the rows of any pattern, and the star coloring of a symmetric one. -/
theorem colorings_of_pattern {a : Pattern} (ha : a.Valid) :
    Distinguishes (Meets a) a.ncol (columns a) ∧ Distinguishes (Touches a) a.nrow (rows a) ∧
    (a.isSymmetric = true → ∃ s, star a = .ok s ∧ StarColoring a s) := by
  refine ⟨?_, ?_, star_starColoring ha⟩
  · obtain ⟨cs, count, he, h⟩ := columns_colored ha
    rw [he]
    exact h.distinguishes
  · obtain ⟨cs, count, he, h⟩ := columns_colored ha.transpose
    rw [meets_transpose ha] at h
    rw [rows, he]
    exact h.distinguishes

/-- A path on four vertices. -/
def chain : Pattern := .ofEntries 4 4 #[(0,1), (1,0), (1,2), (2,1), (2,3), (3,2)]

theorem valid_chain : chain.Valid := Pattern.valid_ofEntries fun r c h => by
  simp only [List.mem_toArray, List.mem_cons, Prod.mk.injEq, List.not_mem_nil, or_false] at h
  omega

theorem colorings_of_chain : chain.Valid ∧ chain.isSymmetric = true ∧ (columns chain).nrow = 2 ∧
    Distinguishes (Meets chain) 4 (columns chain) ∧ ∃ s, star chain = .ok s ∧ s.nrow = 3 ∧ StarColoring chain s := by
  have hsymmetric : chain.isSymmetric = true := by cbv
  obtain ⟨hcolumns, -, hstar⟩ := colorings_of_pattern valid_chain
  obtain ⟨s, hs, hcolors⟩ := hstar hsymmetric
  have hthree : (star chain).toOption.map Pattern.nrow = some 3 := by cbv
  rw [hs] at hthree
  exact ⟨valid_chain, hsymmetric, by cbv, hcolumns, s, hs, Option.some.inj hthree, hcolors⟩

end Fluxion.Coloring
