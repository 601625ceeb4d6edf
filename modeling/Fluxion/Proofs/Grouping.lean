import Mathlib.Data.List.Count
import Mathlib.Data.List.Induction
import Mathlib.Data.List.Perm.Basic
import Mathlib.Data.List.Nodup
import Fluxion.Grouping

/-!
What grouping by counting comes to: the elements of the first group in the order given, then those of the second, and
so on. Group `g` begins where as many elements stand as are of a smaller group.
-/
set_option autoImplicit false

namespace Fluxion.Grouping

theorem getElem?_foldl_count (keys : List Nat) (counts : Array Nat) (k : Nat) :
    (keys.foldl (fun counts g => counts.modify g (· + 1)) counts)[k]? =
      counts[k]?.map (· + keys.count k) := by
  induction keys generalizing counts with
  | nil => simp
  | cons g keys ih =>
    rw [List.foldl_cons, ih, Array.getElem?_modify]
    by_cases hg : g = k
    · cases counts[k]? with
      | none => simp [hg]
      | some n => simp [hg]; omega
    · simp [hg]

theorem size_foldl_count (keys : List Nat) (counts : Array Nat) :
    (keys.foldl (fun counts g => counts.modify g (· + 1)) counts).size = counts.size := by
  induction keys generalizing counts with
  | nil => rfl
  | cons g keys ih => simpa using ih (counts.modify g (· + 1))

theorem countP_lt_succ (keys : List Nat) (g : Nat) :
    keys.countP (· < g+1) = keys.countP (· < g) + keys.count g := by
  induction keys with
  | nil => rfl
  | cons k keys ih =>
    rw [List.countP_cons, List.countP_cons, List.count_cons, ih]
    by_cases hlt : k < g
    · simp [hlt, Nat.lt_succ_of_lt hlt, Nat.ne_of_lt hlt]; omega
    · by_cases he : k = g
      · simp [he]; omega
      · simp [hlt, he, show ¬k < g+1 by omega]

/-- The sums up to group `n`, and the mere counts after it. -/
theorem getElem?_foldl_sums {groups : Nat} {keys : List Nat} {counts : Array Nat} (hfirst : counts[0]? = some 0)
    (hcounts : ∀ g < groups, counts[g+1]? = some (keys.count g)) {n : Nat} (hn : n ≤ groups) :
    let sums := (List.range n).foldl (fun sums g =>
      let before := sums.getD g 0
      sums.modify (g+1) (· + before)) counts
    (∀ g ≤ n, sums[g]? = some (keys.countP (· < g))) ∧ ∀ g, n < g → sums[g]? = counts[g]? := by
  induction n with
  | zero => simpa using hfirst
  | succ n ih =>
    obtain ⟨hsums, hrest⟩ := ih (by omega)
    simp only [List.range_succ, List.foldl_append, List.foldl_cons, List.foldl_nil]
    generalize (List.range n).foldl _ counts = sums at hsums hrest
    have hbefore : sums.getD n 0 = keys.countP (· < n) := by
      rw [Array.getD_eq_getD_getElem?, hsums n (Nat.le_refl n)]
      rfl
    refine ⟨fun g hg => ?_, fun g hg => ?_⟩
    · rw [Array.getElem?_modify]
      rcases Nat.lt_or_eq_of_le hg with hlt | rfl
      · rw [if_neg (by omega), hsums g (by omega)]
      · rw [if_pos rfl, hrest _ (by omega), hcounts n (by omega), hbefore, countP_lt_succ]
        simp [Nat.add_comm]
    · rw [Array.getElem?_modify, if_neg (by omega), hrest g (by omega)]

theorem getD_starts {groups g : Nat} (keys : Array Nat) (hg : g ≤ groups) :
    (starts groups keys).getD g 0 = keys.toList.countP (· < g) := by
  have hcount (k : Nat) := getElem?_foldl_count (keys.toList.map (· + 1)) (.replicate (groups+1) 0) k
  simp only [List.foldl_map, Array.foldl_toList] at hcount
  rw [starts]
  generalize Array.foldl (fun (counts : Array Nat) g => counts.modify (g+1) (· + 1)) (Array.replicate (groups+1) 0) keys =
    counts at hcount
  have hfirst : counts[0]? = some 0 := by
    rw [hcount]
    simp [List.count_eq_zero]
  have hcounts : ∀ g < groups, counts[g+1]? = some (keys.toList.count g) := by
    intro g hg
    rw [hcount, List.count_map_of_injective _ _ (fun _ _ => Nat.succ.inj)]
    simp [hg]
  rw [Array.getD_eq_getD_getElem?, (getElem?_foldl_sums hfirst hcounts (Nat.le_refl groups)).1 g hg]
  rfl

theorem size_starts (groups : Nat) (keys : Array Nat) : (starts groups keys).size = groups+1 := by
  have hcount := size_foldl_count (keys.toList.map (· + 1)) (.replicate (groups+1) 0)
  have hsums (gs : List Nat) (counts : Array Nat) :
      (gs.foldl (fun sums g =>
        let before := sums.getD g 0
        sums.modify (g+1) (· + before)) counts).size = counts.size := by
    induction gs generalizing counts with
    | nil => rfl
    | cons g gs ih => simpa using ih (counts.modify (g+1) (· + counts.getD g 0))
  rw [List.foldl_map, Array.foldl_toList, Array.size_replicate] at hcount
  rw [starts, hsums, hcount]

section Arrange

variable {α : Type} (groups : Nat) (key : α → Nat)

/-- The places of a group of which `ys` have come and `zs` are to come. -/
def block (ys zs : List α) (g : Nat) : List (Option α) :=
  (ys.filter (key · = g)).map some ++ .replicate (zs.countP (key · = g)) none

/-- The places of the groups before `g`. -/
def blocks (ys zs : List α) (g : Nat) : List (Option α) := (List.range g).flatMap (block key ys zs)

/-- Where `ys` of all elements are placed: every group has its first places filled, and the elements of no group leave
places free at the end. -/
structure Filled (ys zs : List α) (s : State α) : Prop where
  next : ∀ g < groups, s.next.getD g 0 = (ys ++ zs).countP (key · < g) + ys.countP (key · = g)
  size : groups < s.next.size
  placed : ∃ m, s.placed.toList = blocks key ys zs groups ++ .replicate m none

variable {groups key}

theorem length_block (ys zs : List α) (g : Nat) :
    (block key ys zs g).length = (ys ++ zs).countP (key · = g) := by
  simp [block, List.countP_eq_length_filter]

theorem blocks_succ (ys zs : List α) (g : Nat) :
    blocks key ys zs (g+1) = blocks key ys zs g ++ block key ys zs g := by
  simp [blocks, List.range_succ]

theorem length_blocks (ys zs : List α) (g : Nat) :
    (blocks key ys zs g).length = (ys ++ zs).countP (key · < g) := by
  have hmap (g : Nat) : (ys ++ zs).countP (key · < g) = ((ys ++ zs).map key).countP (· < g) := by
    rw [List.countP_map]
    rfl
  have hcount (g : Nat) : (ys ++ zs).countP (key · = g) = ((ys ++ zs).map key).count g := by
    rw [List.count, List.countP_map]
    rfl
  induction g with
  | zero => simp [blocks]
  | succ g ih => rw [blocks_succ, List.length_append, ih, length_block, hmap, hmap, hcount, countP_lt_succ]

theorem range_split {g n : Nat} (h : g < n) : ∃ later, List.range n = List.range g ++ g :: later ∧ ∀ k ∈ later, g < k := by
  refine ⟨List.range' (g+1) (n-(g+1)), ?_, fun k hk => (List.mem_range'_1.mp hk).1⟩
  have happend : List.range' 0 g ++ List.range' (0+g) (n-(g+1)+1) = List.range' 0 (g+(n-(g+1)+1)) := List.range'_append_1
  rw [Nat.zero_add, List.range'_succ, show g+(n-(g+1)+1) = n by omega] at happend
  rw [List.range_eq_range', List.range_eq_range', happend]

/-- The places of the other groups are left alone. -/
theorem block_of_ne {x : α} {g : Nat} (hg : key x ≠ g) (ys zs : List α) :
    block key (ys ++ [x]) zs g = block key ys (x :: zs) g := by
  simp [block, hg]

theorem block_of_eq {x : α} {g : Nat} (hg : key x = g) (ys zs : List α) :
    ∃ as bs : List (Option α), as.length = ys.countP (key · = g) ∧
      block key ys (x :: zs) g = as ++ none :: bs ∧ block key (ys ++ [x]) zs g = as ++ some x :: bs := by
  refine ⟨(ys.filter (key · = g)).map some, .replicate (zs.countP (key · = g)) none, ?_, ?_, ?_⟩
  · rw [List.length_map, List.countP_eq_length_filter]
  · simp [block, hg, List.replicate_succ]
  · simp [block, hg]

theorem Filled.place {ys zs : List α} {x : α} {s : State α} (h : Filled groups key ys (x :: zs) s) :
    Filled groups key (ys ++ [x]) zs (s.place groups key x) := by
  obtain ⟨m, hm⟩ := h.placed
  have hblocks (gs : List Nat) (hne : ∀ g ∈ gs, key x ≠ g) :
      gs.flatMap (block key (ys ++ [x]) zs) = gs.flatMap (block key ys (x :: zs)) :=
    List.flatMap_congr fun g hg => block_of_ne (hne g hg) ys zs
  by_cases hx : key x < groups
  swap
  · -- An element of no group goes nowhere.
    have hplace : s.place groups key x = s := if_neg hx
    rw [hplace]
    refine ⟨fun g hg => ?_, h.size, m, ?_⟩
    · rw [h.next g hg]
      simp [show key x ≠ g by omega]
    · rw [hm, blocks, blocks, hblocks _ fun g hg he => hx (he ▸ List.mem_range.mp hg)]
  -- The place is the first one of its group that is free.
  obtain ⟨as, bs, has, hold, hnew⟩ := block_of_eq (rfl : key x = key x) ys zs
  have hplace : s.place groups key x =
      ⟨s.next.modify (key x) (· + 1), s.placed.setIfInBounds (s.next.getD (key x) 0) (some x)⟩ := if_pos hx
  obtain ⟨later, hrange, hlater⟩ := range_split hx
  have hearlier := hblocks (List.range (key x)) fun g hg => (Nat.ne_of_lt (List.mem_range.mp hg)).symm
  have hlater := hblocks later fun g hg => Nat.ne_of_lt (hlater g hg)
  have hp : s.next.getD (key x) 0 = (blocks key ys (x :: zs) (key x) ++ as).length := by
    rw [h.next _ hx, List.length_append, length_blocks, has]
  rw [hplace]
  refine ⟨fun g hg => ?_, by simpa using h.size, m, ?_⟩
  · have hnext := h.next g hg
    have hlt : g < s.next.size := Nat.lt_trans hg h.size
    by_cases he : key x = g
    all_goals
      simp [Array.getD_eq_getD_getElem?, Array.getElem_modify, he, hlt] at hnext ⊢
      omega
  · rw [Array.toList_setIfInBounds, hm, hp]
    simp [blocks, hrange, hold, hnew, hearlier, hlater]

theorem Filled.start (xs : List α) :
    Filled groups key [] xs ⟨starts groups (xs.toArray.map key), .replicate xs.length none⟩ where
  next g hg := by
    rw [getD_starts _ (Nat.le_of_lt hg)]
    simp [List.countP_map, Function.comp_def]
  size := by simp [size_starts]
  placed := by
    have hle : (blocks key [] xs groups).length ≤ xs.length := by
      rw [length_blocks]
      exact List.countP_le_length
    have hnone : blocks key [] xs groups = .replicate (blocks key [] xs groups).length none :=
      List.eq_replicate_length.mpr (by simp [blocks, block])
    refine ⟨xs.length - (blocks key [] xs groups).length, ?_⟩
    rw [hnone, List.length_replicate, List.replicate_append_replicate, Array.toList_replicate]
    congr 1
    omega

theorem Filled.foldl {ys zs : List α} {s : State α} (h : Filled groups key ys zs s) :
    Filled groups key (ys ++ zs) [] (zs.foldl (State.place groups key) s) := by
  induction zs generalizing ys s with
  | nil => rwa [List.append_nil]
  | cons x zs ih => simpa using ih h.place

/-- Group after group, each in the order given. -/
theorem toList_arrange (xs : Array α) : (arrange groups key xs).toList =
    (List.range groups).flatMap fun g => xs.toList.filter (key · = g) := by
  have hstart : Filled groups key [] xs.toList _ := .start xs.toList
  obtain ⟨m, hm⟩ := hstart.foldl.placed
  rw [arrange, Array.toList_filterMap, ← Array.foldl_toList]
  simp only [Array.toArray_toList, Array.length_toList, List.nil_append] at hm
  rw [hm]
  simp [blocks, block, List.filterMap_flatMap]

theorem arrange_congr {key' : α → Nat} {xs : Array α} (h : ∀ x ∈ xs, key x = key' x) :
    arrange groups key xs = arrange groups key' xs := by
  apply Array.toList_inj.mp
  rw [toList_arrange, toList_arrange]
  refine List.flatMap_congr fun g _ => List.filter_congr fun x hx => ?_
  rw [h x (Array.mem_toList_iff.mp hx)]

/-- The elements that have a group, each as often as before. -/
theorem arrange_perm (xs : Array α) : (arrange groups key xs).toList.Perm (xs.toList.filter (key · < groups)) := by
  rw [toList_arrange]
  induction groups with
  | zero => simp
  | succ n ih =>
    -- The elements of the groups so far, and those of the next group.
    have hearlier : (xs.toList.filter (key · < n+1)).filter (key · < n) = xs.toList.filter (key · < n) := by
      rw [List.filter_filter]
      refine List.filter_congr fun x _ => ?_
      by_cases hx : key x < n <;> simp [hx]
      omega
    have hlast : (xs.toList.filter (key · < n+1)).filter (fun x => !decide (key x < n)) =
        xs.toList.filter (key · = n) := by
      rw [List.filter_filter]
      refine List.filter_congr fun x _ => ?_
      by_cases hx : key x = n
      · simp [hx]
      · simp [hx]
        omega
    have hsplit := List.filter_append_perm (key · < n) (xs.toList.filter (key · < n+1))
    rw [hearlier, hlast] at hsplit
    rw [List.range_succ, List.flatMap_append, List.flatMap_singleton]
    exact (ih.append_right _).trans hsplit

theorem pairwise_arrange (xs : Array α) : (arrange groups key xs).toList.Pairwise (key · ≤ key ·) := by
  have hkey {x : α} {g : Nat} (hx : x ∈ xs.toList.filter (key · = g)) : key x = g := by
    simpa using (List.mem_filter.mp hx).2
  rw [toList_arrange, List.pairwise_flatMap]
  refine ⟨fun g _ => ?_, List.pairwise_lt_range.imp fun hgh x hx y hy => ?_⟩
  · exact List.pairwise_of_forall_mem_list fun x hx y hy => Nat.le_of_eq ((hkey hx).trans (hkey hy).symm)
  · rw [hkey hx, hkey hy]
    exact Nat.le_of_lt hgh

/-- Elements of one group keep the order given. -/
theorem filter_arrange {g : Nat} (hg : g < groups) (xs : Array α) :
    (arrange groups key xs).toList.filter (key · = g) = xs.toList.filter (key · = g) := by
  obtain ⟨later, hrange, hlater⟩ := range_split hg
  have hother (gs : List Nat) (hne : ∀ k ∈ gs, k ≠ g) :
      (gs.flatMap fun k => xs.toList.filter (key · = k)).filter (key · = g) = [] := by
    simp only [List.filter_eq_nil_iff, List.mem_flatMap, List.mem_filter, decide_eq_true_eq]
    rintro x ⟨k, hk, -, rfl⟩
    exact hne _ hk
  rw [toList_arrange, hrange, List.flatMap_append, List.flatMap_cons, List.filter_append, List.filter_append,
    hother _ fun k hk => Nat.ne_of_lt (List.mem_range.mp hk), hother _ fun k hk => (Nat.ne_of_lt (hlater k hk)).symm]
  simp

end Arrange

end Fluxion.Grouping
