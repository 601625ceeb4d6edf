import Mathlib
import Fluxion.Proofs.Coloring.Star
import Fluxion.Proofs.Function.Recover

/-!
Symmetric recovery. A sweep over a color sums the entries of its members in every row. Where one member
alone touches a row the sum is the entry, and it is written in the place of the entry and in the place of
its mirror. Over the colors of a star coloring every entry is written, never with a wrong value, and the
counts of hits are zero between one color and the next.
-/
set_option autoImplicit false

namespace Fluxion

namespace Recover

variable {T : Type}

/-- Rows that the members of a color touch, once for each of them. -/
def touched (t : Pattern) (members : Array Nat) : List Nat := members.toList.flatMap fun j => (t.row j).toList

theorem countHits_eq (t : Pattern) (members hits : Array Nat) :
    countHits t members hits = (touched t members).foldl (fun hits r => hits.modify r (· + 1)) hits := by
  rw [countHits, touched, ← Array.foldl_toList, List.foldl_flatMap]
  simp only [Array.foldl_toList]

theorem clearHits_eq (t : Pattern) (members hits : Array Nat) :
    clearHits t members hits = (touched t members).foldl (fun hits r => hits.setIfInBounds r 0) hits := by
  rw [clearHits, touched, ← Array.foldl_toList, List.foldl_flatMap]
  simp only [Array.foldl_toList]

theorem getElem?_countHits (rows : List Nat) (hits : Array Nat) (r : Nat) :
    (rows.foldl (fun hits r => hits.modify r (· + 1)) hits)[r]? = hits[r]?.map (· + rows.count r) := by
  induction rows generalizing hits with
  | nil => simp
  | cons s rows ih =>
    rw [List.foldl_cons, ih, Array.getElem?_modify]
    by_cases hs : s = r
    · subst hs
      cases hits[s]? with
      | none => simp
      | some n => simp [Nat.add_comm, Nat.add_left_comm]
    · simp [hs]

theorem getElem?_clearHits (rows : List Nat) (hits : Array Nat) (r : Nat) :
    (rows.foldl (fun hits r => hits.setIfInBounds r 0) hits)[r]? =
      hits[r]?.map fun n => if r ∈ rows then 0 else n := by
  induction rows generalizing hits with
  | nil => simp
  | cons s rows ih =>
    rw [List.foldl_cons, ih, Array.getElem?_setIfInBounds]
    by_cases hs : s = r
    · subst hs
      by_cases hlt : s < hits.size
      · simp [hlt]
      · simp [hlt]
    · simp [hs, Ne.symm hs]

theorem clearHits_countHits (t : Pattern) (members : Array Nat) (n : Nat) :
    clearHits t members (countHits t members (.replicate n 0)) = .replicate n 0 := by
  apply Array.ext_getElem?
  intro r
  rw [clearHits_eq, countHits_eq, getElem?_clearHits, getElem?_countHits, Array.getElem?_replicate]
  by_cases hr : r < n
  · by_cases hm : r ∈ touched t members
    · simp [hr, hm]
    · simp [hr, hm, List.count_eq_zero_of_not_mem]
  · simp [hr]

variable {p : Pattern} {members : Array Nat}

/-- A row is touched by the members that have an entry in it. -/
theorem count_touched (hp : p.Valid) (hm : ∀ c ∈ members, c < p.ncol) (r : Nat) :
    (touched p.transpose members).count r = (members.toList.filter fun d => (r,d) ∈ p.entries).length := by
  have hcount (d : Nat) (hd : d < p.ncol) :
      (p.transpose.row d).toList.count r = if (r,d) ∈ p.entries then 1 else 0 := by
    have hnodup : (p.transpose.row d).toList.Nodup :=
      (hp.transpose.strict d (by simpa using hd)).imp Nat.ne_of_lt
    rw [hnodup.count]
    simp only [Array.mem_toList_iff, hp.mem_row_transpose hd]
  have general (ds : List Nat) (hds : ∀ d ∈ ds, d < p.ncol) :
      (ds.flatMap fun d => (p.transpose.row d).toList).count r =
        (ds.filter fun d => (r,d) ∈ p.entries).length := by
    induction ds with
    | nil => rfl
    | cons d ds ih =>
      obtain ⟨hd, hds⟩ := List.forall_mem_cons.mp hds
      rw [List.flatMap_cons, List.count_append, hcount d hd, ih hds]
      by_cases hrd : (r,d) ∈ p.entries
      · simp [hrd, Nat.add_comm]
      · simp [hrd]
  exact general members.toList fun d hd => hm d (Array.mem_toList_iff.mp hd)

/-- A row has one hit if one member touches it. -/
theorem countHits_eq_one (hp : p.Valid) (hm : ∀ c ∈ members, c < p.ncol) (hn : members.toList.Nodup)
    {r c : Nat} (hc : c ∈ members) (hrc : (r,c) ∈ p.entries) :
    (countHits p.transpose members (.replicate p.nrow 0)).getD r 0 = 1 ↔
      ∀ d ∈ members, (r,d) ∈ p.entries → d = c := by
  have hhits : (countHits p.transpose members (.replicate p.nrow 0)).getD r 0 =
      (members.toList.filter fun d => (r,d) ∈ p.entries).length := by
    rw [Array.getD_eq_getD_getElem?, countHits_eq, getElem?_countHits, count_touched hp hm]
    simp [(hp.entry_lt hrc).1]
  rw [hhits]
  constructor
  · intro h d hd hrd
    obtain ⟨e, he⟩ := List.length_eq_one_iff.mp h
    have hmem (x : Nat) (hx : x ∈ members) (hrx : (r,x) ∈ p.entries) : x = e := by
      have hx : x ∈ members.toList.filter fun d => (r,d) ∈ p.entries := by simp [hx, hrx]
      simpa [he] using hx
    rw [hmem d hd hrd, hmem c hc hrc]
  · intro h
    have hperm : (members.toList.filter fun d => (r,d) ∈ p.entries).Perm [c] := by
      refine (List.perm_ext_iff_of_nodup (hn.filter _) (List.nodup_singleton c)).mpr fun d => ?_
      simp only [List.mem_filter, Array.mem_toList_iff, decide_eq_true_eq, List.mem_singleton]
      constructor
      · rintro ⟨hd, hrd⟩
        exact h d hd hrd
      · rintro rfl
        exact ⟨hc, hrc⟩
    rw [hperm.length_eq, List.length_singleton]

/-- The places that one entry of a member writes, if its row has one hit: its own and that of its mirror. -/
def mirrored (p : Pattern) (hits : Array Nat) (sens : Array T) (j : Nat) (e : Nat × Nat) :
    List (Nat × Option T) :=
  if hits.getD e.1 0 = 1 then (e.2, sens[e.1]?) :: (p.find? j e.1).toList.map fun k => (k, sens[e.1]?)
  else []

theorem symmetric_eq (p t : Pattern) (map members hits : Array Nat) (sens values : Array T) :
    symmetric p t map members sens (hits, values) =
      (clearHits t members (countHits t members hits),
        puts (members.toList.flatMap fun j => (columnOf t map j).flatMap
          (mirrored p (countHits t members hits) sens j)) values) := by
  refine congrArg (Prod.mk _) ?_
  rw [puts, ← Array.foldl_toList, List.foldl_flatMap]
  congr 1
  funext values j
  rw [List.foldl_flatMap]
  congr 1
  funext values e
  obtain ⟨r, k⟩ := e
  rw [mirrored]
  dsimp only
  split
  · cases p.find? j r <;> rfl
  · rfl

/-- What a color writes: each entry of a row with one hit, and its mirror. -/
theorem symmetric_writes (hp : p.Valid) (hm : ∀ c ∈ members, c < p.ncol) (hn : members.toList.Nodup)
    (sens values : Array T) :
    ∃ writes, symmetric p p.transpose p.transposeMap members sens (.replicate p.nrow 0, values) =
        (.replicate p.nrow 0, puts writes values) ∧
      ∀ k x, (k,x) ∈ writes ↔ ∃ r c, (p.entries[k]? = some (r,c) ∨ p.entries[k]? = some (c,r)) ∧
        (r,c) ∈ p.entries ∧ c ∈ members ∧ (∀ d ∈ members, (r,d) ∈ p.entries → d = c) ∧ x = sens[r]? := by
  refine ⟨_, (symmetric_eq _ _ _ _ _ _ _).trans (by rw [clearHits_countHits]), fun k x => ?_⟩
  -- One entry of a member is written, with its mirror, if its row has one hit.
  have hmirrored (c r n : Nat) (hc : c ∈ members) (he : p.entries[n]? = some (r,c)) :
      (k,x) ∈ mirrored p (countHits p.transpose members (.replicate p.nrow 0)) sens c (r,n) ↔
        (∀ d ∈ members, (r,d) ∈ p.entries → d = c) ∧ (k = n ∨ p.entries[k]? = some (c,r)) ∧ x = sens[r]? := by
    have hone := countHits_eq_one hp hm hn hc (Array.mem_of_getElem? he)
    rw [mirrored]
    split
    · next h =>
      simp only [List.mem_cons, List.mem_map, Option.mem_toList, Pattern.find?_eq_some hp,
        Prod.mk.injEq]
      constructor
      · rintro (⟨rfl, rfl⟩ | ⟨k, hk, rfl, rfl⟩)
        · exact ⟨hone.mp h, .inl rfl, rfl⟩
        · exact ⟨hone.mp h, .inr hk, rfl⟩
      · rintro ⟨-, rfl | hk, rfl⟩
        · exact .inl ⟨rfl, rfl⟩
        · exact .inr ⟨k, hk, rfl, rfl⟩
    · next h => exact ⟨fun hk => by simp at hk, fun hk => absurd (hone.mpr hk.1) h⟩
  simp only [List.mem_flatMap, Array.mem_toList_iff]
  constructor
  · rintro ⟨c, hc, ⟨r, n⟩, he, hkx⟩
    have he := (mem_columnOf hp (hm c hc)).mp he
    obtain ⟨hsole, hk, hx⟩ := (hmirrored c r n hc he).mp hkx
    refine ⟨r, c, ?_, Array.mem_of_getElem? he, hc, hsole, hx⟩
    rcases hk with rfl | hk
    · exact .inl he
    · exact .inr hk
  · rintro ⟨r, c, hk, hrc, hc, hsole, hx⟩
    obtain ⟨n, hlt, hn⟩ := Array.mem_iff_getElem.mp hrc
    have he : p.entries[n]? = some (r,c) := Array.getElem?_eq_some_iff.mpr ⟨hlt, hn⟩
    refine ⟨c, hc, (r,n), (mem_columnOf hp (hm c hc)).mpr he, (hmirrored c r n hc he).mpr ⟨hsole, ?_, hx⟩⟩
    exact hk.imp (fun hk => hp.entry_unique hk he) id

variable {a s : Pattern} {V : Nat × Nat → T}

/-- Color `l` meets row `r` in column `c` only. -/
def Gives (a s : Pattern) (l r c : Nat) : Prop :=
  (l,c) ∈ s.entries ∧ ∀ d, (l,d) ∈ s.entries → (r,d) ∈ a.entries → d = c

/-- The entries that a list of colors gives, from one side or the other, have their values. -/
structure Filled (a s : Pattern) (V : Nat × Nat → T) (colors : List Nat) (values : Array T) : Prop where
  size : values.size = a.nnz
  given : ∀ k r c l : Nat, a.entries[k]? = some (r,c) → l ∈ colors → Gives a s l r c ∨ Gives a s l c r →
    values[k]? = some (V (r,c))

theorem Filled.symmetric {colors : List Nat} {values sens : Array T} {l : Nat} (ha : a.Valid)
    (hs : Coloring.Star a s) (hsymm : ∀ r c, (r,c) ∈ a.entries → (c,r) ∈ a.entries)
    (hV : ∀ r c, V (r,c) = V (c,r)) (hl : l < s.nrow)
    (hsens : ∀ r c, (r,c) ∈ a.entries → Gives a s l r c → sens[r]? = some (V (r,c)))
    (h : Filled a s V colors values) :
    ∃ values', Recover.symmetric a a.transpose a.transposeMap (s.row l) sens (.replicate a.nrow 0, values) =
      (.replicate a.nrow 0, values') ∧ Filled a s V (l :: colors) values' := by
  have hmember (c : Nat) : c ∈ s.row l ↔ (l,c) ∈ s.entries := by simp [Pattern.mem_entries, hl]
  have hlt (c : Nat) (hc : c ∈ s.row l) : c < a.ncol := by
    rw [← hs.ncol]
    exact hs.valid.bound l hl c hc
  obtain ⟨writes, hrun, hwrites⟩ := symmetric_writes ha hlt ((hs.valid.strict l hl).imp Nat.ne_of_lt)
    sens values
  have hgives (r c : Nat) : (c ∈ s.row l ∧ ∀ d ∈ s.row l, (r,d) ∈ a.entries → d = c) ↔ Gives a s l r c := by
    simp only [hmember, Gives]
  -- Nothing wrong is written, whichever side an entry is given from.
  have hright (k r c : Nat) (he : a.entries[k]? = some (r,c)) (w : Nat × Option T) (hw : w ∈ writes)
      (hk : w.1 = k) : w.2 = some (V (r,c)) := by
    obtain ⟨k', x⟩ := w
    subst hk
    obtain ⟨r', c', hplace, hrc, hc, hsole, rfl⟩ := (hwrites k' x).mp hw
    have hvalue := hsens r' c' hrc ((hgives r' c').mp ⟨hc, hsole⟩)
    rcases hplace with hplace | hplace
    · obtain ⟨rfl, rfl⟩ := Prod.mk.inj (Option.some.inj (he.symm.trans hplace))
      exact hvalue
    · obtain ⟨rfl, rfl⟩ := Prod.mk.inj (Option.some.inj (he.symm.trans hplace))
      rw [hV]
      exact hvalue
  refine ⟨_, hrun, by simpa using h.size, fun k r c l' he hl' hg => ?_⟩
  have hrc : (r,c) ∈ a.entries := Array.mem_of_getElem? he
  by_cases hwritten : ∃ w ∈ writes, w.1 = k
  · have hk : k < values.size := by
      rw [h.size, ← ha.size_entries]
      exact (Array.getElem?_eq_some_iff.mp he).1
    exact getElem?_puts hk hwritten (hright k r c he)
  · have hnone (w : Nat × Option T) (hw : w ∈ writes) : w.1 ≠ k := fun hk => hwritten ⟨w, hw, hk⟩
    rw [getElem?_puts_of_ne hnone]
    rcases List.mem_cons.mp hl' with rfl | hl'
    · -- The color gives the entry, so it writes it.
      rcases hg with hg | hg
      · obtain ⟨hc, hsole⟩ := (hgives r c).mpr hg
        exact absurd rfl (hnone (k, sens[r]?) ((hwrites _ _).mpr ⟨r, c, .inl he, hrc, hc, hsole, rfl⟩))
      · obtain ⟨hc, hsole⟩ := (hgives c r).mpr hg
        exact absurd rfl (hnone (k, sens[c]?)
          ((hwrites _ _).mpr ⟨c, r, .inr he, hsymm r c hrc, hc, hsole, rfl⟩))
    · exact h.given k r c l' he hl' hg

theorem Filled.foldl {colors : List Nat} {values : Array T} {sens : Nat → Array T} {order : List Nat}
    (ha : a.Valid) (hs : Coloring.Star a s) (hsymm : ∀ r c, (r,c) ∈ a.entries → (c,r) ∈ a.entries)
    (hV : ∀ r c, V (r,c) = V (c,r)) (hl : ∀ l ∈ order, l < s.nrow)
    (hsens : ∀ l ∈ order, ∀ r c, (r,c) ∈ a.entries → Gives a s l r c → (sens l)[r]? = some (V (r,c)))
    (h : Filled a s V colors values) :
    ∃ values', order.foldl (fun st l => Recover.symmetric a a.transpose a.transposeMap (s.row l) (sens l) st)
        (.replicate a.nrow 0, values) = (.replicate a.nrow 0, values') ∧
      Filled a s V (order.reverse ++ colors) values' := by
  induction order generalizing colors values with
  | nil => exact ⟨values, rfl, h⟩
  | cons l order ih =>
    obtain ⟨hl, hlorder⟩ := List.forall_mem_cons.mp hl
    obtain ⟨hsl, hsorder⟩ := List.forall_mem_cons.mp hsens
    obtain ⟨values', hrun, h'⟩ := h.symmetric ha hs hsymm hV hl hsl
    obtain ⟨values'', hruns, h''⟩ := ih hlorder hsorder h'
    exact ⟨values'', by rw [List.foldl_cons, hrun, hruns], by simpa using h''⟩

/-- When all colors have been taken, all entries are there. -/
theorem Filled.eq_map {colors : List Nat} {values : Array T} (ha : a.Valid) (hs : Coloring.Star a s)
    (hsquare : a.nrow = a.ncol) (hcolors : ∀ l, l < s.nrow → l ∈ colors) (h : Filled a s V colors values) :
    values = a.entries.map V := by
  refine Array.ext_getElem? fun k => ?_
  rw [Array.getElem?_map]
  cases he : a.entries[k]? with
  | none =>
    rw [Array.getElem?_eq_none_iff, ha.size_entries, ← h.size] at he
    rw [Array.getElem?_eq_none he]
    rfl
  | some e =>
    obtain ⟨r, c⟩ := e
    have hrc : (r,c) ∈ a.entries := Array.mem_of_getElem? he
    obtain ⟨hr, hc⟩ := ha.entry_lt hrc
    obtain ⟨i, hi⟩ := hs.covered c hc
    obtain ⟨j, hj⟩ := hs.covered r (by omega)
    rcases hs.sole r c i j hrc hi hj with hsole | hsole
    · exact h.given k r c i he (hcolors i (hs.valid.entry_lt hi).1) (.inl ⟨hi, hsole⟩)
    · exact h.given k r c j he (hcolors j (hs.valid.entry_lt hj).1) (.inr ⟨hj, hsole⟩)

/-- In each row the sum of the entries of some columns. -/
def rowSums [AddCommMonoid T] (M : Nat → Nat → T) (nrow : Nat) (members : Array Nat) : Array T :=
  (Array.range nrow).map fun r => (members.toList.map (M r)).sum

/-- Where a color meets a row once, the sum is the entry. -/
theorem getElem?_rowSums [AddCommMonoid T] {M : Nat → Nat → T} (hs : s.Valid)
    (hM : ∀ r c, (r,c) ∉ a.entries → M r c = 0) {l r c : Nat} (hl : l < s.nrow) (hr : r < a.nrow)
    (hg : Gives a s l r c) : (rowSums M a.nrow (s.row l))[r]? = some (M r c) := by
  have hmember (d : Nat) : d ∈ s.row l ↔ (l,d) ∈ s.entries := by simp [Pattern.mem_entries, hl]
  have hothers (d : Nat) (hd : d ∈ (s.row l).toList) (hdc : d ≠ c) : M r d = 0 := by
    refine hM r d fun hrd => hdc (hg.2 d ?_ hrd)
    exact (hmember d).mp (Array.mem_toList_iff.mp hd)
  have hnodup : (s.row l).toList.Nodup := (hs.strict l hl).imp Nat.ne_of_lt
  have hsum : ((s.row l).toList.map (M r)).sum = M r c := by
    rw [List.sum_map_eq_nsmul_single c (M r) fun d hdc hd => hothers d hd hdc,
      List.count_eq_one_of_mem hnodup (Array.mem_toList_iff.mpr ((hmember c).mpr hg.1)), one_nsmul]
  simp [rowSums, hr, hsum]

/-- Sweeps over the colors of a star coloring give all of a symmetric matrix, in any order of the colors
and whatever was there before, and leave no hits. -/
theorem symmetric_recovers [AddCommMonoid T] (ha : a.Valid) (hs : a.isSymmetric = true)
    {M : Nat → Nat → T} (hsymm : ∀ r c, M r c = M c r) (hzero : ∀ r c, (r,c) ∉ a.entries → M r c = 0) :
    ∃ seeds, Coloring.star a = .ok seeds ∧ ∀ order : List Nat, order.Perm (List.range seeds.nrow) →
      ∀ values : Array T, values.size = a.nnz →
        order.foldl (fun st l => Recover.symmetric a a.transpose a.transposeMap (seeds.row l)
            (rowSums M a.nrow (seeds.row l)) st) (.replicate a.nrow 0, values) =
          (.replicate a.nrow 0, a.entries.map fun e => M e.1 e.2) := by
  obtain ⟨seeds, hstar, h⟩ := Coloring.star_isStar ha hs
  obtain ⟨hsquare, hmirror⟩ := (Pattern.isSymmetric_iff ha).mp hs
  refine ⟨seeds, hstar, fun order horder values hsize => ?_⟩
  have hlt (l : Nat) (hl : l ∈ order) : l < seeds.nrow := List.mem_range.mp (horder.mem_iff.mp hl)
  have hstart : Filled a seeds (fun e => M e.1 e.2) [] values := ⟨hsize, fun _ _ _ _ _ hl => by simp at hl⟩
  obtain ⟨values', hrun, h'⟩ := hstart.foldl ha h hmirror (fun r c => hsymm r c) hlt
    (fun l hl r c hrc hg => getElem?_rowSums h.valid hzero (hlt l hl) (ha.entry_lt hrc).1 hg)
  rw [hrun, h'.eq_map ha h hsquare fun l hl => by simp [horder.mem_iff, hl]]

/-- An arrow: the first row, the first column and the diagonal. -/
def arrow : Pattern := .ofRows 3 #[#[0,1,2],#[0,1],#[0,2]]

def arrowMatrix (r c : Nat) : Nat := if (r,c) ∈ arrow.entries then r+c+1 else 0

/-- Two colors recover seven entries, the second color being swept first. -/
theorem symmetric_recovers_arrow : arrow.Valid ∧ arrow.isSymmetric = true ∧
    (∀ r c, arrowMatrix r c = arrowMatrix c r) ∧ (∀ r c, (r,c) ∉ arrow.entries → arrowMatrix r c = 0) ∧
    ∃ seeds, Coloring.star arrow = .ok seeds ∧ seeds.nrow = 2 ∧
      [1,0].foldl (fun st l => Recover.symmetric arrow arrow.transpose arrow.transposeMap (seeds.row l)
          (rowSums arrowMatrix arrow.nrow (seeds.row l)) st) (.replicate 3 0, .replicate 7 9) =
        (.replicate 3 0, #[1,2,3,2,3,3,5]) := by
  have ha : arrow.Valid := Pattern.valid_ofRows (by decide) (by decide)
  have hs : arrow.isSymmetric = true := by cbv
  have hsymm (r c : Nat) : arrowMatrix r c = arrowMatrix c r := by
    obtain ⟨-, hmirror⟩ := (Pattern.isSymmetric_iff ha).mp hs
    have hiff : (r,c) ∈ arrow.entries ↔ (c,r) ∈ arrow.entries := ⟨hmirror r c, hmirror c r⟩
    simp [arrowMatrix, hiff, Nat.add_comm]
  have hzero (r c : Nat) (h : (r,c) ∉ arrow.entries) : arrowMatrix r c = 0 := if_neg h
  refine ⟨ha, hs, hsymm, hzero, ?_⟩
  obtain ⟨seeds, hstar, h⟩ := symmetric_recovers ha hs hsymm hzero
  have hcolors : (Coloring.star arrow).toOption.map (·.nrow) = some 2 := by cbv
  have htwo : seeds.nrow = 2 := by simpa [hstar, Except.toOption] using hcolors
  refine ⟨seeds, hstar, htwo, ?_⟩
  have hrun := h [1,0] (by rw [htwo]; decide) (.replicate 7 9) (by cbv)
  have hvalues : arrow.entries.map (fun e => arrowMatrix e.1 e.2) = #[1,2,3,2,3,3,5] := by cbv
  rwa [hvalues] at hrun

end Recover

end Fluxion
