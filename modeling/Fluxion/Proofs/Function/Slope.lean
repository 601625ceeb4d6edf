import Mathlib.Algebra.MvPolynomial.CommRing
import Mathlib.Algebra.MvPolynomial.PDeriv
import Mathlib.Data.Finsupp.Multiset
import Mathlib.Tactic.Ring
import Fluxion.Proofs.Function.Answers
import Fluxion.Proofs.Tape.Products

/-!
Derivatives of polynomials in the entries of a block. Those of degree two at most differ, on both sides of a point,
by exactly twice their derivative there.
-/
set_option autoImplicit false

namespace Fluxion

open MvPolynomial

variable {σ K : Type} [CommRing K]

namespace Polynomial

theorem monomial_of_degree_le_two {m : σ →₀ ℕ} (hm : (m.sum fun _ e => e) ≤ 2) :
    m = 0 ∨ (∃ s, m = .single s 1) ∨ ∃ s t, m = .single s 1 + .single t 1 := by
  classical
  have hcard : m.toMultiset.card = m.sum fun _ e => e := Finsupp.card_toMultiset m
  have hback : Multiset.toFinsupp m.toMultiset = m := Finsupp.toMultiset_toFinsupp m
  obtain h | h | h : m.toMultiset.card = 0 ∨ m.toMultiset.card = 1 ∨ m.toMultiset.card = 2 := by omega
  · left
    rw [← hback, Multiset.card_eq_zero.mp h, map_zero]
  · obtain ⟨s, hs⟩ := Multiset.card_eq_one.mp h
    exact .inr (.inl ⟨s, by rw [← hback, hs, Multiset.toFinsupp_singleton]⟩)
  · obtain ⟨s, t, hst⟩ := Multiset.card_eq_two.mp h
    refine .inr (.inr ⟨s, t, ?_⟩)
    rw [← hback, hst, Multiset.insert_eq_cons, ← Multiset.singleton_add, map_add, Multiset.toFinsupp_singleton,
      Multiset.toFinsupp_singleton]

/-- What holds of constants, of variables and of products of two variables, and is kept by sums, holds of all
polynomials of degree two at most. -/
theorem induction_of_degree_le_two {M : MvPolynomial σ K → Prop} (const : ∀ c, M (C c)) (var : ∀ c s, M (C c * X s))
    (product : ∀ c s t, M (C c * (X s * X t))) (add : ∀ p q, M p → M q → M (p+q)) {p : MvPolynomial σ K}
    (hp : p.totalDegree ≤ 2) : M p := by
  rw [p.as_sum]
  refine Finset.sum_induction _ M add (by simpa using const 0) fun m hm => ?_
  obtain hm | ⟨s, hm⟩ | ⟨s, t, hm⟩ := monomial_of_degree_le_two ((le_totalDegree hm).trans hp) <;>
    generalize coeff m p = c <;> subst hm
  · exact const c
  · rw [← C_mul_X_eq_monomial]
    exact var c s
  · have hproduct : monomial (.single s 1 + .single t 1) c = C c * (X s * X t) := by
      rw [X, X, monomial_mul, C_mul_monomial, mul_one, mul_one]
    rw [hproduct]
    exact product c s t

end Polynomial

/-- `D` tells the derivatives of polynomials at the point `x`, along the direction `v`. -/
structure Slope (x v : σ → K) (D : MvPolynomial σ K → K) : Prop where
  add : ∀ p q, D (p+q) = D p + D q
  mul : ∀ p q, D (p*q) = eval x p * D q + eval x q * D p
  const : ∀ c, D (C c) = 0
  var : ∀ s, D (X s) = v s

namespace Slope

variable {x v w : σ → K} {D E : MvPolynomial σ K → K}

theorem zero (x : σ → K) : Slope x 0 fun _ => 0 where
  add _ _ := (add_zero 0).symm
  mul _ _ := by rw [mul_zero, mul_zero, add_zero]
  const _ := rfl
  var _ := rfl

theorem plus (h : Slope x v D) (h' : Slope x w E) : Slope x (v+w) fun p => D p + E p where
  add p q := by rw [h.add, h'.add]; ring
  mul p q := by rw [h.mul, h'.mul]; ring
  const c := by rw [h.const, h'.const, add_zero]
  var s := by rw [h.var, h'.var, Pi.add_apply]

theorem scale (h : Slope x v D) (a : K) : Slope x (fun s => v s * a) fun p => D p * a where
  add p q := by rw [h.add]; ring
  mul p q := by rw [h.mul]; ring
  const c := by rw [h.const, zero_mul]
  var s := by rw [h.var]

theorem sum {ι : Type} {S : Finset ι} {v : ι → σ → K} {D : ι → MvPolynomial σ K → K}
    (h : ∀ i ∈ S, Slope x (v i) (D i)) : Slope x (∑ i ∈ S, v i) fun p => ∑ i ∈ S, D i p := by
  classical
  induction S using Finset.induction_on with
  | empty => exact .zero x
  | insert i S hi ih =>
    simp only [Finset.sum_insert hi]
    exact (h i (Finset.mem_insert_self i S)).plus (ih fun j hj => h j (Finset.mem_insert_of_mem hj))

/-- By one variable. -/
theorem pderiv [DecidableEq σ] (x : σ → K) (s : σ) : Slope x (Pi.single s 1) fun p => eval x (pderiv s p) where
  add p q := by rw [map_add, map_add]
  mul p q := by rw [pderiv_mul, map_add, map_mul, map_mul]; ring
  const c := by rw [pderiv_C, map_zero]
  var t := by
    rw [pderiv_X]
    obtain rfl | h := eq_or_ne t s
    · simp
    · simp [h]

/-- From one side of the point to the other, with nothing left over where the degree is two at most. -/
theorem difference (h : Slope x v D) (a : K) {p : MvPolynomial σ K} (hp : p.totalDegree ≤ 2) :
    eval (fun s => x s + a * v s) p - eval (fun s => x s + -a * v s) p = 2*a * D p := by
  refine Polynomial.induction_of_degree_le_two
    (M := fun p => eval (fun s => x s + a * v s) p - eval (fun s => x s + -a * v s) p = 2*a * D p)
    (fun c => ?_) (fun c s => ?_) (fun c s t => ?_) (fun p q hp hq => ?_) hp
  · rw [h.const]
    simp
  · rw [h.mul, h.const, h.var]
    simp only [map_mul, eval_C, eval_X]
    ring
  · rw [h.mul, h.mul, h.const, h.var, h.var]
    simp only [map_mul, eval_C, eval_X]
    ring
  · rw [h.add, map_add, map_add, mul_add, ← hp, ← hq]
    ring

end Slope

namespace Block

/-- The entries as the values of variables. -/
def point (x : Block K) (s : Nat × Nat) : K := x.entry s.1 s.2

theorem point_of_get? {x : Block K} {i k : Nat} {e : K} (h : x.get? i k = some e) : x.point (i,k) = e := by
  rw [point, entry, h, Option.getD_some]

theorem point_of_not_isSome {x : Block K} {s : Nat × Nat} (h : ¬(x.get? s.1 s.2).isSome) : x.point s = 0 := by
  rw [point, entry, Option.not_isSome_iff_eq_none.mp h, Option.getD_none]

/-- A step along one variable. -/
theorem point_set {x : Block K} {i k : Nat} {e : K} (he : x.get? i k = some e) (a : K) :
    (x.set i k (e+a)).point = fun s => x.point s + a * (Pi.single (i,k) 1 : Nat × Nat → K) s := by
  funext s
  have hentry : x.entry i k = e := point_of_get? he
  rw [point, entry_set (by rw [he]; rfl), hentry, point, add_right_inj]
  by_cases hs : s = (i,k)
  · subst hs
    simp
  · rw [Pi.single_eq_of_ne hs, if_neg fun h => hs (Prod.ext h.1.symm h.2.symm), mul_zero]

/-- Derivatives of a polynomial at the block, by every entry. -/
noncomputable def slopes (x : Block K) (p : MvPolynomial (Nat × Nat) K) : Block K :=
  x.mapIdx fun i v => v.mapIdx fun k _ => eval x.point (pderiv (i,k) p)

theorem sizes_slopes (x : Block K) (p : MvPolynomial (Nat × Nat) K) : (x.slopes p).sizes = x.sizes :=
  sizes_mapIdx x _

theorem entry_slopes {x : Block K} {i k : Nat} (h : (x.get? i k).isSome) (p : MvPolynomial (Nat × Nat) K) :
    (x.slopes p).entry i k = eval x.point (pderiv (i,k) p) := by
  obtain ⟨e, he⟩ := Option.isSome_iff_exists.mp h
  rw [entry, slopes, get?_mapIdx, he, Option.map_some, Option.getD_some]

end Block

open Finset in
/-- The inner product of the derivatives with a block is the derivative along it. -/
theorem Slope.dot {x v : Block K} (hv : v.sizes = x.sizes) : Slope x.point v.point fun p => (x.slopes p).dot v := by
  have hsum : Slope x.point _ _ := Slope.sum (S := range x.size) fun i _ =>
    Slope.sum (S := range (x.getD i #[]).size) fun k _ => (Slope.pderiv x.point (i,k)).scale (v.entry i k)
  convert hsum using 1
  · funext s
    obtain ⟨i, k⟩ := s
    simp only [Finset.sum_apply, Pi.single_apply, Prod.mk.injEq, ite_mul, one_mul, zero_mul, ite_and, sum_ite_irrel,
      sum_ite_eq, sum_const_zero, mem_range]
    have hsame : (v.get? i k).isSome ↔ i < x.size ∧ k < (x.getD i #[]).size := by
      obtain ⟨hsize, hsizes⟩ := Block.size_of_sizes hv
      rw [Block.get?_isSome_iff, hsize, hsizes]
    rw [← ite_and]
    split
    · rfl
    · next hnot => exact Block.point_of_not_isSome (mt hsame.mp hnot)
  · funext p
    obtain ⟨hsize, hsizes⟩ := Block.size_of_sizes (x.sizes_slopes p)
    rw [Block.dot, hsize]
    refine sum_congr rfl fun i hi => sum_congr (congrArg range (hsizes i)) fun k hk => ?_
    rw [Block.entry_slopes ((Block.get?_isSome_iff x i k).mpr ⟨mem_range.mp hi, mem_range.mp hk⟩)]

end Fluxion
