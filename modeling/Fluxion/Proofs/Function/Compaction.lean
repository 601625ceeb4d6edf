import Mathlib.Logic.Equiv.Basic
import Fluxion.Proofs.Tape.Sensitivities

/-!
Skipping zero seeds. The nonzero seeds are moved to the front and everything is moved back afterwards, so
each direction finds what was computed for its seed, and a zero seed finds zeros.
-/
set_option autoImplicit false

namespace Fluxion.Compaction

variable {T : Type}

theorem getElem?_swapIfInBounds {bs : Array (Block T)} {i j : Nat} (hi : i < bs.size) (hj : j < bs.size)
    (d : Nat) : (bs.swapIfInBounds i j)[d]? = bs[Equiv.swap i j d]? := by
  rw [Array.swapIfInBounds, dif_pos hi, dif_pos hj, Array.getElem?_swap, Equiv.swap_apply_def]
  by_cases hdj : j = d
  · subst hdj
    by_cases hji : j = i
    · subst hji
      simp [hj]
    · simp [hi, hji]
  · by_cases hdi : i = d
    · subst hdi
      simp [hdj, hj]
    · simp [hdj, hdi, Ne.symm hdj, Ne.symm hdi]

theorem mem_swapIfInBounds {bs : Array (Block T)} {i j : Nat} {x : Block T} (h : x ∈ bs.swapIfInBounds i j) : x ∈ bs := by
  by_cases hi : i < bs.size
  · by_cases hj : j < bs.size
    · obtain ⟨d, hd⟩ := Array.mem_iff_getElem?.mp h
      rw [getElem?_swapIfInBounds hi hj] at hd
      exact Array.mem_of_getElem? hd
    · rwa [Array.swapIfInBounds, dif_pos hi, dif_neg hj] at h
  · rwa [Array.swapIfInBounds, dif_neg hi] at h

theorem mem_of_mem_compact (isZero : T → Bool) (seeds : Array (Block T)) (n : Nat) {x : Block T}
    (h : x ∈ (compact isZero seeds n).1) : x ∈ seeds := by
  induction n with
  | zero => exact h
  | succ n ih =>
    rw [compact_succ] at h
    dsimp only at h
    split at h
    · exact ih h
    · exact ih (mem_swapIfInBounds h)

theorem size_expand (map : Compaction) (bs : Array (Block T)) : (map.expand bs).size = bs.size := by
  rw [expand]
  induction map.toList.zipIdx with
  | nil => rfl
  | cons x l ih =>
    obtain ⟨slot, d⟩ := x
    cases slot <;> simpa using ih

theorem mem_expand {map : Compaction} {bs : Array (Block T)} {x : Block T} (h : x ∈ map.expand bs) : x ∈ bs := by
  rw [expand] at h
  generalize map.toList.zipIdx = l at h
  induction l with
  | nil => exact h
  | cons e l ih =>
    obtain ⟨slot, d⟩ := e
    cases slot with
    | none => exact ih h
    | some k => exact ih (mem_swapIfInBounds h)

/-- A seed of zeros. -/
def Blank (isZero : T → Bool) (seeds : Array (Block T)) (d : Nat) : Prop :=
  (seeds.getD d #[]).all (·.all isZero) = true

/-- The first `n` seeds after the moves; `source` tells from where each place gets its block back. -/
structure Moved (isZero : T → Bool) (seeds : Array (Block T)) (n : Nat) (moved : Array (Block T))
    (map : Compaction) (count : Nat) (source : Nat → Nat) : Prop where
  expand : ∀ bs : Array (Block T), bs.size = seeds.size → ∀ d, (map.expand bs)[d]? = bs[source d]?
  front : ∀ d, d < n → ¬ Blank isZero seeds d → source d < count
  onto : ∀ c, c < count → ∃ d, d < n ∧ ¬ Blank isZero seeds d ∧ source d = c
  rest : ∀ d, n ≤ d → source d = d
  skipped : ∀ d, map[d]? = some none ↔ d < n ∧ Blank isZero seeds d

/-- The seeds that are not blank among the first `n`. -/
def nonzero (isZero : T → Bool) (seeds : Array (Block T)) (n : Nat) : Nat :=
  (List.range n).countP fun d => !(seeds.getD d #[]).all (·.all isZero)

namespace Moved

variable {isZero : T → Bool} {seeds s s' : Array (Block T)} {map : Compaction} {n count : Nat}
  {source : Nat → Nat} (hm : Moved isZero seeds n s map count source) (hmap : map.size = n)
include hm hmap

theorem skipped_push {x : Option Nat} (hx : x = none ↔ Blank isZero seeds n) (d : Nat) :
    (map.push x)[d]? = some none ↔ d < n+1 ∧ Blank isZero seeds d := by
  rw [Array.getElem?_push, hmap]
  split
  · next hd =>
    subst hd
    simp [hx]
  · next hd =>
    rw [hm.skipped]
    have hlt : d < n+1 ↔ d < n := by omega
    rw [hlt]

/-- The next seed is blank and stays where it is. -/
theorem skip (hb : Blank isZero seeds n) : Moved isZero seeds (n+1) s' (map.push none) count source where
  expand bs hbs d := by
    rw [expand_push_none]
    exact hm.expand bs hbs d
  front d hd hne := by
    rcases Nat.eq_or_lt_of_le (Nat.le_of_lt_succ hd) with rfl | hlt
    · exact absurd hb hne
    · exact hm.front d hlt hne
  onto c hc := by
    obtain ⟨d, hd, hne, hsource⟩ := hm.onto c hc
    exact ⟨d, by omega, hne, hsource⟩
  rest d hd := hm.rest d (by omega)
  skipped := hm.skipped_push hmap (by simp [hb])

/-- The next seed goes behind those in front. -/
theorem move (hcount : count ≤ n) (hn : n < seeds.size) (hne : ¬Blank isZero seeds n) :
    Moved isZero seeds (n+1) s' (map.push (some count)) (count+1)
      (fun d => Equiv.swap count n (source d)) where
  expand bs hbs d := by
    rw [expand_push_some, hmap, hm.expand _ (by simpa using hbs),
      getElem?_swapIfInBounds (by omega) (by omega)]
  front d hd hnz := by
    rcases Nat.eq_or_lt_of_le (Nat.le_of_lt_succ hd) with rfl | hlt
    · rw [hm.rest d (Nat.le_refl d), Equiv.swap_apply_right]
      omega
    · have hf := hm.front d hlt hnz
      rw [Equiv.swap_apply_of_ne_of_ne (by omega) (by omega)]
      omega
  onto c hc := by
    rcases Nat.eq_or_lt_of_le (Nat.le_of_lt_succ hc) with rfl | hlt
    · exact ⟨n, Nat.lt_succ_self n, hne, by rw [hm.rest n (Nat.le_refl n), Equiv.swap_apply_right]⟩
    · obtain ⟨d, hd, hnz, rfl⟩ := hm.onto c hlt
      exact ⟨d, by omega, hnz, Equiv.swap_apply_of_ne_of_ne (by omega) (by omega)⟩
  rest d hd := by
    rw [hm.rest d (by omega), Equiv.swap_apply_of_ne_of_ne (by omega) (by omega)]
  skipped := hm.skipped_push hmap (by simpa using hne)

omit hmap in
/-- The next seed is not moved yet. -/
theorem getD_next (hsize : s.size = seeds.size) (hexpand : map.expand s = seeds) :
    s.getD n #[] = seeds.getD n #[] := by
  have hget := hm.expand s hsize n
  rw [hexpand, hm.rest n (Nat.le_refl n)] at hget
  rw [Array.getD_eq_getD_getElem?, Array.getD_eq_getD_getElem?, hget]

end Moved

theorem compact_moved (isZero : T → Bool) (seeds : Array (Block T)) {n : Nat} (h : n ≤ seeds.size) :
    ∃ source, Moved isZero seeds n (compact isZero seeds n).1 (compact isZero seeds n).2.1
      (compact isZero seeds n).2.2 source := by
  induction n with
  | zero =>
    exact ⟨id, fun bs _ d => rfl, by simp, by simp [compact], by simp, by simp [compact]⟩
  | succ n ih =>
    obtain ⟨source, hm⟩ := ih (by omega)
    obtain ⟨hsize, hmap, hcount⟩ := compact_sizes isZero seeds n
    have hexpand := expand_compact isZero seeds (n := n) (by omega)
    rw [compact_succ]
    generalize compact isZero seeds n = c at hm hsize hmap hcount hexpand
    obtain ⟨s, map, count⟩ := c
    dsimp only at hm hsize hmap hcount hexpand ⊢
    have hlast : (s.getD n #[]).all (·.all isZero) = true ↔ Blank isZero seeds n := by
      rw [Blank, hm.getD_next hsize hexpand]
    split
    · next hzero => exact ⟨_, hm.skip hmap (hlast.mp hzero)⟩
    · next hne => exact ⟨_, hm.move hmap hcount (by omega) (hlast.not.mp hne)⟩

/-- The seeds in front are the nonzero ones. -/
theorem compact_count (isZero : T → Bool) (seeds : Array (Block T)) {n : Nat} (h : n ≤ seeds.size) :
    (compact isZero seeds n).2.2 = nonzero isZero seeds n := by
  induction n with
  | zero => rfl
  | succ n ih =>
    obtain ⟨source, hm⟩ := compact_moved isZero seeds (n := n) (by omega)
    have hnext := hm.getD_next (compact_sizes isZero seeds n).1 (expand_compact isZero seeds (by omega))
    rw [compact_succ, nonzero, List.range_succ, List.countP_append, ← nonzero, ← ih (by omega)]
    dsimp only
    rw [hnext]
    split
    · next hzero => rw [List.countP_singleton, hzero, Bool.not_true, if_neg Bool.false_ne_true, Nat.add_zero]
    · next hne =>
      rw [List.countP_singleton, Bool.eq_false_of_not_eq_true hne, Bool.not_false, if_pos rfl]

theorem size_clear (map : Compaction) (zero : T) (bs : Array (Block T)) :
    (map.clear zero bs).size = bs.size := by
  refine List.foldlRecOn (motive := fun s : Array (Block T) => s.size = bs.size) _ _ rfl ?_
  rintro s hs ⟨slot, d⟩ -
  cases slot with
  | some k => exact hs
  | none => rw [← hs]; exact Array.size_modify

/-- Clearing touches the skipped directions only. -/
theorem getElem?_clear (map : Compaction) (zero : T) (bs : Array (Block T)) (d : Nat) :
    (map.clear zero bs)[d]? =
      if map[d]? = some none then bs[d]?.map (·.map (·.map fun _ => zero)) else bs[d]? := by
  have hmap : map[d]? = map.toList[d]? := by simp
  rw [clear, hmap]
  induction map.toList using List.reverseRecOn with
  | nil => rfl
  | append_singleton l slot ih =>
    rw [List.zipIdx_append, List.foldl_append]
    generalize List.foldl _ bs l.zipIdx = done at ih ⊢
    rcases Nat.lt_trichotomy d l.length with hlt | rfl | hlt
    · have hne : l.length ≠ d := by omega
      rw [List.getElem?_append_left hlt, ← ih]
      cases slot <;> simp [Array.getElem?_modify, hne]
    · rw [List.getElem?_eq_none (Nat.le_refl _), if_neg (by simp)] at ih
      cases slot <;> simp [Array.getElem?_modify, ih]
    · have hne : l.length ≠ d := by omega
      rw [List.getElem?_eq_none (by simp; omega), if_neg (by simp)]
      rw [List.getElem?_eq_none (by omega), if_neg (by simp)] at ih
      rw [← ih]
      cases slot <;> simp [Array.getElem?_modify, hne]

theorem sizes_of_mem_clear {bs : Array (Block T)} {ns : Array Nat} (hbs : ∀ x ∈ bs, x.sizes = ns) {map : Compaction} {zero : T} :
    ∀ x ∈ map.clear zero bs, x.sizes = ns := by
  intro x hx
  obtain ⟨d, hd⟩ := Array.mem_iff_getElem?.mp hx
  rw [getElem?_clear] at hd
  split at hd
  · obtain ⟨y, hy, rfl⟩ := Option.map_eq_some_iff.mp hd
    rw [Block.clear_eq, Block.sizes_filled]
    exact hbs y (Array.mem_of_getElem? hy)
  · exact hbs x (Array.mem_of_getElem? hd)

/-- Sweeps of the moved seeds, moved back and cleared, are sweeps of all seeds, if a seed of zeros gives
zeros. -/
theorem clear_expand_sens (isZero : T → Bool) (zero : T) {seeds sens : Array (Block T)} {n : Nat}
    (hn : n ≤ seeds.size) (hs : sens.size = seeds.size) (f : Block T → Block T)
    (hf : ∀ d, d < n → Blank isZero seeds d → ∀ x, x ∈ sens ∨ x ∈ Set.range f →
      (x.map (·.map fun _ => zero) : Block T) = f (seeds.getD d #[])) :
    let c := compact isZero seeds n
    c.2.1.clear zero (c.2.1.expand (Buffers.firstBlocks c.2.2 (fun d => f (c.1.getD d #[])) sens)) =
      Buffers.firstBlocks n (fun d => f (seeds.getD d #[])) sens := by
  obtain ⟨source, hm⟩ := compact_moved isZero seeds hn
  obtain ⟨hsize, -, hcount⟩ := compact_sizes isZero seeds n
  have hexpand := expand_compact isZero seeds hn
  generalize compact isZero seeds n = c at hm hsize hcount hexpand
  obtain ⟨s, map, count⟩ := c
  dsimp only at hm hsize hcount hexpand ⊢
  have hget (x : Array (Block T)) (hx : x.size = sens.size) (d : Nat) (hd : d < sens.size) :
      ∃ y, x[source d]? = some y := by
    rw [← hm.expand x (hx.trans hs) d]
    have hd' : d < (map.expand x).size := by
      rw [size_expand, hx]
      exact hd
    exact ⟨_, Array.getElem?_eq_getElem hd'⟩
  refine Array.ext_getElem? fun d => ?_
  rw [getElem?_clear, hm.expand _ ((Buffers.size_firstBlocks _ _ _).trans hs), Buffers.getElem?_firstBlocks,
    Buffers.getElem?_firstBlocks]
  by_cases hd : d < sens.size
  · obtain ⟨x, hx⟩ := hget sens rfl d hd
    rw [hx, Array.getElem?_eq_getElem hd]
    by_cases hdn : d < n
    -- A blank direction was skipped and is cleared afterwards; any other was swept where its seed had moved.
    · by_cases hb : Blank isZero seeds d
      · rw [if_pos ((hm.skipped d).mpr ⟨hdn, hb⟩), Option.map_some, Option.map_some, Option.map_some,
          if_pos hdn]
        congr 1
        refine hf d hdn hb _ ?_
        split
        · exact .inr ⟨_, rfl⟩
        · exact .inl (Array.mem_of_getElem? hx)
      · have hseed : s.getD (source d) #[] = seeds.getD d #[] := by
          rw [Array.getD_eq_getD_getElem?, Array.getD_eq_getD_getElem?, ← hm.expand s hsize, hexpand]
        have hkeep : map[d]? ≠ some none := fun h => hb ((hm.skipped d).mp h).2
        rw [if_neg hkeep, Option.map_some, Option.map_some, if_pos (hm.front d hdn hb), if_pos hdn, hseed]
    · have hkeep : map[d]? ≠ some none := fun h => hdn ((hm.skipped d).mp h).1
      have hrest := hm.rest d (by omega)
      rw [hrest, Array.getElem?_eq_getElem hd] at hx
      rw [if_neg hkeep, hrest, Option.map_some, Option.map_some, if_neg (by omega), if_neg hdn, hx]
  · have hnone : (Buffers.firstBlocks count (fun d => f (s.getD d #[])) sens)[source d]? = none := by
      rw [← hm.expand _ ((Buffers.size_firstBlocks _ _ _).trans hs)]
      exact Array.getElem?_eq_none (by rw [size_expand, Buffers.size_firstBlocks]; omega)
    rw [Buffers.getElem?_firstBlocks] at hnone
    have hnone' : sens[d]? = none := Array.getElem?_eq_none (by omega)
    rw [hnone, hnone']
    simp

end Fluxion.Compaction

namespace Fluxion.Buffers

open Compaction

variable {K : Type} [Number K] {ins outs : Array Nat}

/-- The buffers with the nonzero ones of the first seeds in front. -/
def packed (f a : Nat) (b : Buffers K) : Buffers K := {b with
  forwardSeed := (compact Number.isZero b.forwardSeed f).1
  adjointSeed := (compact Number.isZero b.adjointSeed a).1}

/-- The directions that are in front then. -/
def inFront (f a : Nat) (b : Buffers K) : Nat × Nat :=
  ((compact Number.isZero b.forwardSeed f).2.2, (compact Number.isZero b.adjointSeed a).2.2)

/-- Once the seeds of `b` were packed, the buffers `c` with all back in its place, and zeros for zero seeds. -/
def unpacked (f a : Nat) (b c : Buffers K) : Buffers K :=
  let fmap := (compact Number.isZero b.forwardSeed f).2.1
  let amap := (compact Number.isZero b.adjointSeed a).2.1
  {c with
    forwardSeed := fmap.expand c.forwardSeed
    forwardSens := fmap.clear Number.zero (fmap.expand c.forwardSens)
    adjointSeed := amap.expand c.adjointSeed
    adjointSens := amap.clear Number.zero (amap.expand c.adjointSens)}

theorem Shaped.packed {b : Buffers K} (h : b.Shaped ins outs) (f a : Nat) : (b.packed f a).Shaped ins outs :=
  ⟨h.input, h.output, fun x hx => h.forwardSeed x (mem_of_mem_compact _ _ _ hx), h.forwardSens,
    fun x hx => h.adjointSeed x (mem_of_mem_compact _ _ _ hx), h.adjointSens,
    h.forward.trans (compact_sizes _ _ _).1.symm, h.adjoint.trans (compact_sizes _ _ _).1.symm⟩

theorem Shaped.unpacked {c : Buffers K} (h : c.Shaped ins outs) (b : Buffers K) (f a : Nat) :
    (b.unpacked f a c).Shaped ins outs := by
  refine ⟨h.input, h.output, fun x hx => h.forwardSeed x (mem_expand hx),
    sizes_of_mem_clear fun x hx => h.forwardSens x (mem_expand hx), fun x hx => h.adjointSeed x (mem_expand hx),
    sizes_of_mem_clear fun x hx => h.adjointSens x (mem_expand hx), ?_, ?_⟩
  · simp only [Buffers.unpacked, size_clear, size_expand]
    exact h.forward
  · simp only [Buffers.unpacked, size_clear, size_expand]
    exact h.adjoint

/-- The directions in front are there. -/
theorem inFront_le (b : Buffers K) {f a : Nat} (hf : f ≤ b.forward) (ha : a ≤ b.adjoint) :
    (b.inFront f a).1 ≤ (b.packed f a).forward ∧ (b.inFront f a).2 ≤ (b.packed f a).adjoint := by
  have hforward := compact_sizes Number.isZero b.forwardSeed f
  have hadjoint := compact_sizes Number.isZero b.adjointSeed a
  exact ⟨Nat.le_trans (Nat.le_trans hforward.2.2 hf) (Nat.le_of_eq hforward.1.symm),
    Nat.le_trans (Nat.le_trans hadjoint.2.2 ha) (Nat.le_of_eq hadjoint.1.symm)⟩

end Fluxion.Buffers
