import Mathlib.Algebra.BigOperators.Group.Finset.Basic
import Mathlib.Algebra.BigOperators.Ring.Finset
import Mathlib.Tactic.Ring
import Fluxion.Buffers

/-!
Inner products of blocks and of work arrays, and how the change of one element changes them.
-/
set_option autoImplicit false

namespace Fluxion

open Finset

theorem getElem?_eq_some_getD {T : Type} {xs : Array T} {i : Nat} (h : i < xs.size) (d : T) :
    xs[i]? = some (xs.getD i d) := by
  rw [Array.getD_eq_getD_getElem?, Array.getElem?_eq_getElem h, Option.getD_some]

variable {K : Type} [CommRing K]

/-- The inner product of the first `n` elements. -/
def slotDot (n : Nat) (g f : Array K) : K := ∑ s ∈ range n, g.getD s 0 * f.getD s 0

theorem getD_setIfInBounds (g : Array K) (i s : Nat) (a : K) (h : i < g.size) :
    (g.setIfInBounds i a).getD s 0 = g.getD s 0 + if i = s then a - g.getD i 0 else 0 := by
  rw [Array.getD_eq_getD_getElem?, Array.getD_eq_getD_getElem?, Array.getElem?_setIfInBounds]
  split
  · next hs =>
    subst hs
    simp [h]
  · simp

theorem getD_modify (g : Array K) (i s : Nat) (d : K) (h : i < g.size) :
    (g.modify i (· + d)).getD s 0 = g.getD s 0 + if i = s then d else 0 := by
  rw [Array.getD_eq_getD_getElem?, Array.getD_eq_getD_getElem?, Array.getElem?_modify]
  split
  · next hs =>
    subst hs
    simp [h]
  · simp

theorem modify_add_zero (work : Array K) (s : Nat) : work.modify s (· + 0) = work := by
  refine Array.ext_getElem? fun i => ?_
  rw [Array.getElem?_modify]
  split <;> simp

theorem modify_add_add (work : Array K) (s : Nat) (c d : K) :
    (work.modify s (· + c)).modify s (· + d) = work.modify s (· + (c+d)) := by
  refine Array.ext_getElem? fun i => ?_
  rw [Array.getElem?_modify, Array.getElem?_modify, Array.getElem?_modify]
  split <;> simp [Function.comp_def, add_assoc]

theorem slotDot_comm (n : Nat) (g f : Array K) : slotDot n g f = slotDot n f g :=
  sum_congr rfl fun _ _ => mul_comm _ _

theorem slotDot_set_left {n i : Nat} {g : Array K} (hg : g.size = n) (hi : i < n) (a : K) (f : Array K) :
    slotDot n (g.setIfInBounds i a) f = slotDot n g f + (a - g.getD i 0) * f.getD i 0 := by
  have hterm (s : Nat) : (g.setIfInBounds i a).getD s 0 * f.getD s 0 =
      g.getD s 0 * f.getD s 0 + if i = s then (a - g.getD i 0) * f.getD i 0 else 0 := by
    rw [getD_setIfInBounds g i s a (by omega), add_mul]
    split
    · next hs => rw [hs]
    · rw [zero_mul]
  simp only [slotDot, hterm, sum_add_distrib, sum_ite_eq, mem_range, hi, if_true]

theorem slotDot_set_right {n i : Nat} {f : Array K} (hf : f.size = n) (hi : i < n) (a : K) (g : Array K) :
    slotDot n g (f.setIfInBounds i a) = slotDot n g f + g.getD i 0 * (a - f.getD i 0) := by
  rw [slotDot_comm, slotDot_set_left hf hi, slotDot_comm n f g, mul_comm]

theorem slotDot_modify {n i : Nat} {g : Array K} (hg : g.size = n) (hi : i < n) (d : K) (f : Array K) :
    slotDot n (g.modify i (· + d)) f = slotDot n g f + d * f.getD i 0 := by
  have hterm (s : Nat) : (g.modify i (· + d)).getD s 0 * f.getD s 0 =
      g.getD s 0 * f.getD s 0 + if i = s then d * f.getD i 0 else 0 := by
    rw [getD_modify g i s d (by omega), add_mul]
    split
    · next hs => rw [hs]
    · rw [zero_mul]
  simp only [slotDot, hterm, sum_add_distrib, sum_ite_eq, mem_range, hi, if_true]

theorem slotDot_zero {n : Nat} {g : Array K} (h : ∀ s, g.getD s 0 = 0) (f : Array K) :
    slotDot n g f = 0 :=
  sum_eq_zero fun s _ => by rw [h, zero_mul]

namespace Block

/-- An entry of a block; zero where there is none. -/
def entry (x : Block K) (i k : Nat) : K := (x.get? i k).getD 0

/-- The inner product of two blocks. -/
def dot (x y : Block K) : K :=
  ∑ i ∈ range x.size, ∑ k ∈ range (x.getD i #[]).size, x.entry i k * y.entry i k

theorem entry_set {x : Block K} {i k : Nat} (h : (x.get? i k).isSome) (j n : Nat) (a : K) :
    (x.set i k a).entry j n = x.entry j n + if i = j ∧ k = n then a - x.entry i k else 0 := by
  by_cases hjn : (i,k) = (j,n)
  · cases hjn
    simp [entry, get?_set_self h]
  · have hne : ¬ (i = j ∧ k = n) := by simpa using hjn
    rw [entry, get?_set_of_ne hjn, if_neg hne, add_zero, entry]

theorem getD_filled {T : Type} (ns : Array Nat) (x : T) (i k : Nat) :
    ((filled ns x).get? i k).getD x = x := by
  cases hi : ns[i]? with
  | none => simp [get?, filled, hi]
  | some n =>
    by_cases hk : k < n <;> simp [get?, filled, hi, hk]

theorem entry_filled (ns : Array Nat) (i k : Nat) : entry (filled ns (0 : K)) i k = 0 :=
  getD_filled ns 0 i k

theorem size_of_sizes {T : Type} {x y : Block T} (h : x.sizes = y.sizes) :
    x.size = y.size ∧ ∀ i, (x.getD i #[]).size = (y.getD i #[]).size := by
  refine ⟨by simpa [sizes] using congrArg Array.size h, fun i => ?_⟩
  have hi := congrArg (fun ns : Array Nat => ns.getD i 0) h
  simp only [sizes, Array.getD_eq_getD_getElem?, Array.getElem?_map] at hi ⊢
  cases hx : x[i]? <;> cases hy : y[i]? <;> simp_all

theorem get?_isSome_iff {T : Type} (x : Block T) (i k : Nat) :
    (x.get? i k).isSome ↔ i < x.size ∧ k < (x.getD i #[]).size := by
  rw [Array.getD_eq_getD_getElem?]
  by_cases hi : i < x.size <;> simp [get?, hi]

theorem dot_comm {x y : Block K} (h : x.sizes = y.sizes) : dot x y = dot y x := by
  obtain ⟨hsize, hsizes⟩ := size_of_sizes h
  simp only [dot, hsize, hsizes, mul_comm]

theorem dot_set_left {x : Block K} {i k : Nat} (h : (x.get? i k).isSome) (a : K) (y : Block K) :
    dot (x.set i k a) y = dot x y + (a - x.entry i k) * y.entry i k := by
  obtain ⟨hsize, hsizes⟩ := size_of_sizes (sizes_set x i k a)
  obtain ⟨hi, hk⟩ := (get?_isSome_iff x i k).mp h
  have hterm (j n : Nat) : (x.set i k a).entry j n * y.entry j n = x.entry j n * y.entry j n +
      if i = j then if k = n then (a - x.entry i k) * y.entry i k else 0 else 0 := by
    rw [entry_set h, add_mul, ← ite_and]
    split
    · next hjn => rw [hjn.1, hjn.2]
    · rw [zero_mul]
  have hinner (j : Nat) : (∑ n ∈ range (x.getD j #[]).size,
      if i = j then if k = n then (a - x.entry i k) * y.entry i k else 0 else 0) =
        if i = j then (a - x.entry i k) * y.entry i k else 0 := by
    split
    · next hij =>
      subst hij
      rw [sum_ite_eq, if_pos (mem_range.mpr hk)]
    · exact sum_const_zero
  simp only [dot, hsize, hsizes, hterm, sum_add_distrib, hinner]
  rw [sum_ite_eq, if_pos (mem_range.mpr hi)]

theorem dot_set_right {x y : Block K} (hs : x.sizes = y.sizes) {i k : Nat} (h : (y.get? i k).isSome)
    (a : K) : dot x (y.set i k a) = dot x y + x.entry i k * (a - y.entry i k) := by
  rw [dot_comm (by rw [hs, sizes_set]), dot_set_left h, dot_comm hs, mul_comm]

theorem dot_zero {x : Block K} (h : ∀ i k, x.entry i k = 0) (y : Block K) : dot x y = 0 :=
  sum_eq_zero fun i _ => sum_eq_zero fun k _ => by rw [h, zero_mul]

end Block

end Fluxion
