import Mathlib.Data.Fintype.Card
import Fluxion.Proofs.Coloring.Greedy
import Fluxion.Proofs.Pattern.Transpose

/-!
Star coloring. While vertices are colored one after the other, neighbours differ in color, no path on four
vertices has two colors only, and the colored neighbours of a vertex without a color all differ: this is
what keeps the vertex from joining two ends of a path when it gets its own. So each entry of a symmetric
pattern is the only one of its color in its row, or its mirror is.
-/
set_option autoImplicit false

namespace Fluxion

namespace Coloring

variable {a : Pattern} {cs : Colors}

/-- Two vertices are neighbours in the graph of a pattern. -/
def Adjacent (a : Pattern) (v w : Nat) : Prop := (v,w) ∈ a.entries ∧ v ≠ w

theorem Adjacent.symm {v w : Nat} (hsymm : ∀ r c, (r,c) ∈ a.entries → (c,r) ∈ a.entries)
    (h : Adjacent a v w) : Adjacent a w v :=
  ⟨hsymm v w h.1, h.2.symm⟩

theorem mem_neighbours {v w : Nat} (hv : v < a.nrow) : w ∈ neighbours a v ↔ Adjacent a v w := by
  simp only [neighbours, Adjacent, Pattern.mem_entries, hv, List.mem_filter, Array.mem_toList_iff,
    decide_eq_true_eq, true_and, ne_comm]

/-- No path on four vertices has two colors, and none can get two by the next vertex. -/
structure StarFree (a : Pattern) (cs : Colors) : Prop where
  apart : ∀ v w k, Adjacent a v w → color cs v = some k → color cs w ≠ some k
  hub : ∀ v w x k, color cs v = none → Adjacent a v w → Adjacent a v x → color cs w = some k →
    color cs x = some k → w = x
  path : ∀ v w x y k l, Adjacent a v w → Adjacent a w x → Adjacent a x y → color cs v = some k →
    color cs w = some l → color cs x = some k → color cs y = some l → v = x ∨ w = y

theorem starFree_replicate (a : Pattern) (n : Nat) : StarFree a (.replicate n none) := by
  constructor <;> simp [color_replicate]

theorem mem_starForbidden (ha : a.Valid) (hsquare : a.nrow = a.ncol) {v k : Nat} (hv : v < a.nrow) :
    k ∈ starForbidden a cs v ↔ ∃ w, Adjacent a v w ∧ (color cs w = some k ∨
      ∃ x, Adjacent a w x ∧ x ≠ v ∧ color cs x = some k ∧ (color cs w = none ∨
        ∃ l y, color cs w = some l ∧ Adjacent a x y ∧ y ≠ w ∧ color cs y = some l)) := by
  have hlt {v w : Nat} (h : Adjacent a v w) : w < a.nrow := by
    rw [hsquare]
    exact (ha.entry_lt h.1).2
  rw [starForbidden, List.mem_flatMap]
  simp only [mem_neighbours hv]
  refine exists_congr fun w => and_congr_right fun hw => ?_
  have hsecond (x : Nat) : x ∈ neighbours a w ↔ Adjacent a w x := mem_neighbours (hlt hw)
  cases hcolor : color cs w with
  | none => simp [hsecond, and_assoc]
  | some l =>
    have hthird (x : Nat) (hx : Adjacent a w x) :
        ((neighbours a x).any fun y => y != w && color cs y == some l) = true ↔
          ∃ y, Adjacent a x y ∧ y ≠ w ∧ color cs y = some l := by
      simp [mem_neighbours (hlt hx)]
    simp only [List.mem_cons, List.mem_filterMap, List.mem_filter, hsecond, decide_eq_true_eq,
      Option.some.injEq, reduceCtorEq, false_or, exists_and_left, exists_eq_left']
    refine or_congr eq_comm (exists_congr fun x => ?_)
    constructor
    · rintro ⟨⟨⟨hx, hne⟩, hany⟩, hk⟩
      exact ⟨hx, hne, hk, (hthird x hx).mp hany⟩
    · rintro ⟨hx, hne, hk, hy⟩
      exact ⟨⟨⟨hx, hne⟩, (hthird x hx).mpr hy⟩, hk⟩

section Next

variable {cs' : Colors} {v k : Nat}

/-- Vertex `v` gets color `k`, and neither the neighbours nor the vertices behind them forbid it. -/
structure Joins (a : Pattern) (cs cs' : Colors) (v k : Nat) : Prop where
  blank : color cs v = none
  next : ∀ w, color cs' w = if v = w then some k else color cs w
  apart : ∀ w, Adjacent a v w → color cs w ≠ some k
  behind : ∀ w x, Adjacent a v w → Adjacent a w x → x ≠ v → color cs x = some k → color cs w ≠ none
  beyond : ∀ w x y l, Adjacent a v w → Adjacent a w x → x ≠ v → color cs x = some k →
    color cs w = some l → Adjacent a x y → y ≠ w → color cs y ≠ some l

theorem Joins.of_free (ha : a.Valid) (hsquare : a.nrow = a.ncol) (hv : v < a.nrow) (hsize : cs.size = a.nrow)
    (hnone : color cs v = none) (hfree : k ∉ starForbidden a cs v) :
    Joins a cs (cs.setIfInBounds v (some k)) v k := by
  rw [mem_starForbidden ha hsquare hv] at hfree
  exact ⟨hnone, fun w => color_set cs v w k (by rw [hsize]; exact hv),
    fun w hw hk => hfree ⟨w, hw, .inl hk⟩,
    fun w x hw hx hxv hk hnone => hfree ⟨w, hw, .inr ⟨x, hx, hxv, hk, .inl hnone⟩⟩,
    fun w x y l hw hx hxv hk hl hy hyw hyl =>
      hfree ⟨w, hw, .inr ⟨x, hx, hxv, hk, .inr ⟨l, y, hl, hy, hyw, hyl⟩⟩⟩⟩

namespace Joins

variable (j : Joins a cs cs' v k)
include j

theorem old {w l : Nat} (hne : v ≠ w) (hl : color cs' w = some l) : color cs w = some l := by
  rwa [j.next, if_neg hne] at hl

theorem new {l : Nat} (hl : color cs' v = some l) : k = l := by
  rw [j.next, if_pos rfl] at hl
  exact Option.some.inj hl

/-- A path that begins with the vertex. -/
theorem path {w x y l m : Nat} (hw : Adjacent a v w) (hx : Adjacent a w x) (hy : Adjacent a x y)
    (hv : color cs' v = some l) (hwm : color cs' w = some m) (hxl : color cs' x = some l)
    (hym : color cs' y = some m) : v = x ∨ w = y := by
  obtain rfl := j.new hv
  by_contra hne
  obtain ⟨hvx, hwy⟩ := not_or.mp hne
  have hwm' := j.old hw.2 hwm
  have hvy : v ≠ y := by
    rintro rfl
    obtain rfl := j.new hym
    exact j.apart w hw hwm'
  exact j.beyond w x y m hw hx (Ne.symm hvx) (j.old hvx hxl) hwm' hy (Ne.symm hwy) (j.old hvy hym)

/-- No path gets two colors, with the vertex at an end or inside, and none can get them by another vertex. -/
theorem starFree (hsymm : ∀ r c, (r,c) ∈ a.entries → (c,r) ∈ a.entries) (h : StarFree a cs) :
    StarFree a cs' where
  apart u w l hadj hu hw := by
    by_cases huv : v = u
    · subst huv
      obtain rfl := j.new hu
      exact j.apart w hadj (j.old hadj.2 hw)
    · by_cases hwv : v = w
      · subst hwv
        obtain rfl := j.new hw
        exact j.apart u (hadj.symm hsymm) (j.old huv hu)
      · exact h.apart u w l hadj (j.old huv hu) (j.old hwv hw)
  hub u w x l hu hw hx hwl hxl := by
    rw [j.next] at hu
    split at hu
    · cases hu
    -- The colors next to a vertex without a color are forbidden for the others next to it.
    by_cases hwv : v = w
    · subst hwv
      obtain rfl := j.new hwl
      by_contra hne
      exact j.behind u x (hw.symm hsymm) hx (Ne.symm hne) (j.old hne hxl) hu
    · by_cases hxv : v = x
      · subst hxv
        obtain rfl := j.new hxl
        exact absurd hu (j.behind u w (hx.symm hsymm) hw (Ne.symm hwv) (j.old hwv hwl))
      · exact h.hub u w x l hu hw hx (j.old hwv hwl) (j.old hxv hxl)
  path p q r s l m hpq hqr hrs hp hq hr hs := by
    by_cases hpv : v = p
    · subst hpv
      exact j.path hpq hqr hrs hp hq hr hs
    by_cases hsv : v = s
    · subst hsv
      -- The same path backwards.
      rcases j.path (hrs.symm hsymm) (hqr.symm hsymm) (hpq.symm hsymm) hs hr hq hp with he | he
      · exact .inr he.symm
      · exact .inl he.symm
    by_cases hqv : v = q
    · subst hqv
      exact .inl (h.hub v p r l j.blank (hpq.symm hsymm) hqr (j.old hpv hp) (j.old hqr.2 hr))
    by_cases hrv : v = r
    · subst hrv
      exact .inr (h.hub v q s m j.blank (hqr.symm hsymm) hrs (j.old hqv hq) (j.old hsv hs))
    exact h.path p q r s l m hpq hqr hrs (j.old hpv hp) (j.old hqv hq) (j.old hrv hr) (j.old hsv hs)

end Joins

end Next

theorem keeps_starFree (ha : a.Valid) (hsquare : a.nrow = a.ncol)
    (hsymm : ∀ r c, (r,c) ∈ a.entries → (c,r) ∈ a.entries) :
    Keeps (starForbidden a) a.nrow (StarFree a) :=
  fun _ _ _ hsize hv hnone hfree _ h => (Joins.of_free ha hsquare hv hsize hnone hfree).starFree hsymm h

/-- Each entry of `a` is the only one of its color in its row, or its mirror is. -/
structure Star (a s : Pattern) : Prop extends Seeds a.ncol s where
  sole : ∀ r c k l, (r,c) ∈ a.entries → (k,c) ∈ s.entries → (l,r) ∈ s.entries →
    (∀ d, (k,d) ∈ s.entries → (r,d) ∈ a.entries → d = c) ∨
      ∀ d, (l,d) ∈ s.entries → (c,d) ∈ a.entries → d = r

theorem Colored.star {count : Nat} (hsymm : ∀ r c, (r,c) ∈ a.entries → (c,r) ∈ a.entries)
    (h : Colored (StarFree a) a.ncol (List.range a.ncol) cs count) : Star a (seeds cs count) where
  toSeeds := h.seeded
  sole r c k l hrc hk hl := by
    have hck := (mem_seeds.mp hk).2
    have hrl := (mem_seeds.mp hl).2
    by_cases hne : r = c
    · -- A vertex is not its own neighbour, and its neighbours have other colors.
      subst hne
      refine .inl fun d hd hrd => ?_
      by_contra hdr
      exact h.has.apart r d k ⟨hrd, Ne.symm hdr⟩ hck (mem_seeds.mp hd).2
    · by_contra hboth
      obtain ⟨hrow, hmirror⟩ := not_or.mp hboth
      push Not at hrow hmirror
      obtain ⟨d, hd, hrd, hdc⟩ := hrow
      obtain ⟨e, he, hce, her⟩ := hmirror
      have hdk := (mem_seeds.mp hd).2
      have hel := (mem_seeds.mp he).2
      have hadj : Adjacent a r c := ⟨hrc, hne⟩
      have hdr : d ≠ r := by
        rintro rfl
        exact h.has.apart d c k hadj hdk hck
      have hec : e ≠ c := by
        rintro rfl
        exact h.has.apart r e l hadj hrl hel
      rcases h.has.path d r c e k l ⟨hsymm r d hrd, hdr⟩ hadj ⟨hce, Ne.symm hec⟩ hdk hrl hck hel with he | he
      · exact hdc he
      · exact her he.symm

/-- A symmetric pattern gets colors that no path on four vertices has two of only. -/
theorem star_colored (ha : a.Valid) (hs : a.isSymmetric = true) : ∃ cs count, star a = .ok (seeds cs count) ∧
    Colored (StarFree a) a.ncol (List.range a.ncol) cs count := by
  obtain ⟨hsquare, hsymm⟩ := (Pattern.isSymmetric_iff ha).mp hs
  have hsound (cs : Colors) (v k : Nat) (hv : v < a.nrow) (hk : k ∈ starForbidden a cs v) :
      ∃ w, color cs w = some k := by
    obtain ⟨w, -, hw | ⟨x, -, -, hx, -⟩⟩ := (mem_starForbidden ha hsquare hv).mp hk
    · exact ⟨w, hw⟩
    · exact ⟨x, hx⟩
  obtain ⟨cs, count, he, h⟩ := greedy_colored (starFree_replicate a a.nrow) (keeps_starFree ha hsquare hsymm)
    hsound (perm_largestFirst (fun v => (neighbours a v).length) a.nrow)
  rw [hsquare] at h
  refine ⟨cs, count, ?_, h⟩
  rw [star, if_pos (by simp [Pattern.isSquare, hsquare]), he]
  rfl

/-- A symmetric pattern has a star coloring. -/
theorem star_isStar (ha : a.Valid) (hs : a.isSymmetric = true) : ∃ s, star a = .ok s ∧ Star a s := by
  obtain ⟨cs, count, he, h⟩ := star_colored ha hs
  exact ⟨_, he, h.star ((Pattern.isSymmetric_iff ha).mp hs).2⟩

/-! ### Colorings of any pattern -/

variable {s : Pattern}

theorem Seeds.exists_lt {n k : Nat} (h : Seeds n s) (hk : k < s.nrow) : ∃ c ∈ s.row k, c < n := by
  obtain ⟨c, hc⟩ := h.used k hk
  exact ⟨c, (Pattern.mem_entries.mp hc).2, h.ncol ▸ (h.valid.entry_lt hc).2⟩

/-- There are no more colors than indices, since each is the color of one of its own. -/
theorem Seeds.nrow_le {n : Nat} (h : Seeds n s) : s.nrow ≤ n := by
  have hindex (k : Fin s.nrow) : ∃ c : Fin n, (k.val, c.val) ∈ s.entries := by
    obtain ⟨c, hc⟩ := h.used k k.isLt
    exact ⟨⟨c, h.ncol ▸ (h.valid.entry_lt hc).2⟩, hc⟩
  choose index hindex using hindex
  have hinjective : Function.Injective index := fun k l hkl =>
    Fin.ext (h.single k l (index k) (hindex k) (hkl ▸ hindex l))
  simpa using Fintype.card_le_of_injective index hinjective

/-- A greedy coloring of all indices has one color for each. -/
theorem seeds_greedy {forbidden : Colors → Nat → List Nat} {n : Nat} {order : List Nat}
    (sound : ∀ cs v k, v < n → k ∈ forbidden cs v → ∃ w, color cs w = some k) (ho : order.Perm (List.range n)) :
    Seeds n (seeds (greedy forbidden n order).1 (greedy forbidden n order).2) := by
  obtain ⟨cs, count, he, h⟩ : ∃ cs count, greedy forbidden n order = (cs, count) ∧
      Colored (fun _ => True) n (List.range n) cs count :=
    greedy_colored trivial (fun _ _ _ _ _ _ _ _ _ => trivial) sound ho
  rw [he]
  exact h.seeded

theorem seeds_columns (a : Pattern) : Seeds a.ncol (columns a) := by
  refine seeds_greedy (fun cs v k _ hk => ?_) (perm_largestFirst _ _)
  obtain ⟨r, -, hk⟩ := List.mem_flatMap.mp hk
  obtain ⟨c, -, hc⟩ := List.mem_filterMap.mp hk
  exact ⟨c, hc⟩

theorem seeds_rows (a : Pattern) : Seeds a.nrow (rows a) := seeds_columns a.transpose

theorem seeds_star (h : star a = .ok s) : Seeds a.ncol s := by
  rw [star] at h
  split at h
  · next hsquare =>
    have hsquare : a.nrow = a.ncol := by simpa [Pattern.isSquare] using hsquare
    obtain rfl := Except.ok.inj h
    rw [← hsquare]
    refine seeds_greedy (fun cs v k _ hk => ?_) (perm_largestFirst _ _)
    obtain ⟨w, -, hk⟩ := List.mem_flatMap.mp hk
    dsimp only at hk
    split at hk
    · obtain ⟨x, -, hx⟩ := List.mem_filterMap.mp hk
      exact ⟨x, hx⟩
    · next l hl =>
      obtain rfl | hk := List.mem_cons.mp hk
      · exact ⟨w, hl⟩
      · obtain ⟨x, -, hx⟩ := List.mem_filterMap.mp hk
        exact ⟨x, hx⟩
  · cases h

end Coloring

end Fluxion
