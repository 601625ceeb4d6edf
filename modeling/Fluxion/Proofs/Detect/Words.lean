import Fluxion.Detect.Propagation

/-!
Words through their bits. Uniting words unites their bits, so propagation through a pattern sets a bit of
a result exactly where an entry of its row leads to a seed with that bit.
-/
set_option autoImplicit false

namespace Fluxion

theorem lt_ceilDiv_iff {n d k : Nat} (hd : 0 < d) : k < ceilDiv n d ↔ k*d < n := by
  rw [ceilDiv, ← Nat.succ_le_iff, Nat.le_div_iff_mul_le hd, Nat.succ_mul]
  omega

theorem le_ceilDiv_mul (n : Nat) {d : Nat} (hd : 0 < d) : n ≤ ceilDiv n d * d :=
  Nat.le_of_not_lt (mt (lt_ceilDiv_iff hd).mpr (Nat.lt_irrefl _))

namespace Word

theorem test_eq (w : Word) {j : Nat} (h : j < size) : w.test j = w.toNat.testBit j := by
  have hj : j < 64 := h
  have hw : ((w >>> UInt64.ofNat j) &&& 1).toNat = w.toNat / 2 ^ j % 2 := by
    simp [Nat.shiftRight_eq_div_pow, Nat.mod_eq_of_lt hj]
  unfold test
  rw [Nat.testBit_eq_decide_div_mod_eq, Bool.eq_iff_iff, beq_iff_eq, decide_eq_true_iff, ← hw,
    ← UInt64.toNat_inj]
  rfl

theorem ext_test {v w : Word} (h : ∀ j, j < size → v.test j = w.test j) : v = w := by
  rw [← UInt64.toNat_inj]
  refine Nat.eq_of_testBit_eq fun j => ?_
  by_cases hj : j < size
  · rw [← test_eq v hj, ← test_eq w hj, h j hj]
  · have hp : 2 ^ 64 ≤ 2 ^ j := Nat.pow_le_pow_right (by decide) (Nat.le_of_not_lt hj)
    have hv : v.toNat < 2 ^ 64 := v.toNat_lt
    have hw : w.toNat < 2 ^ 64 := w.toNat_lt
    rw [Nat.testBit_lt_two_pow (by omega), Nat.testBit_lt_two_pow (by omega)]

@[simp] theorem test_zero (j : Nat) : (0 : Word).test j = false := by
  simp [test]

theorem test_or (v w : Word) {j : Nat} (h : j < size) : (v ||| w).test j = (v.test j || w.test j) := by
  rw [test_eq _ h, test_eq _ h, test_eq _ h, UInt64.toNat_or, Nat.testBit_or]

theorem test_bit {i j : Nat} (hi : i < size) (hj : j < size) : (bit i).test j = decide (i = j) := by
  have hi' : i < 64 := hi
  have hp : 2 ^ i < 2 ^ 64 := Nat.pow_lt_pow_right (by decide) hi'
  have hs : (UInt64.ofNat i).toNat % 64 = i := by
    rw [UInt64.toNat_ofNat']
    omega
  have hb : (bit i).toNat = 2 ^ i := by
    rw [bit, UInt64.toNat_shiftLeft, hs, UInt64.toNat_one, Nat.one_shiftLeft, Nat.mod_eq_of_lt hp]
  rw [test_eq _ hj, hb, Nat.testBit_two_pow]

theorem test_foldl (ws : List Word) (w : Word) {j : Nat} (h : j < size) :
    (ws.foldl (· ||| ·) w).test j = true ↔ w.test j = true ∨ ∃ v ∈ ws, v.test j = true := by
  induction ws generalizing w with
  | nil => simp
  | cons v ws ih =>
    rw [List.foldl_cons, ih, test_or _ _ h]
    simp [or_assoc]

theorem test_sup (ws : Array Word) {j : Nat} (h : j < size) :
    (sup ws).test j = true ↔ ∃ w ∈ ws, w.test j = true := by
  rw [sup, ← Array.foldl_toList, test_foldl _ _ h]
  simp

theorem test_sup_extract {ws : Array Word} {lo hi j : Nat} (hhi : hi ≤ ws.size) (h : j < size) :
    (sup (ws.extract lo hi)).test j = true ↔ ∃ r, lo ≤ r ∧ r < hi ∧ (ws.getD r 0).test j = true := by
  rw [test_sup _ h]
  constructor
  · rintro ⟨w, hw, ht⟩
    obtain ⟨i, hi, rfl⟩ := Array.mem_iff_getElem.mp hw
    rw [Array.size_extract] at hi
    rw [Array.getElem_extract] at ht
    have hr : lo+i < ws.size := by omega
    exact ⟨lo+i, by omega, by omega, by simpa [Array.getD_eq_getD_getElem?, hr] using ht⟩
  · rintro ⟨r, h₁, h₂, ht⟩
    have hr : r < ws.size := by omega
    refine ⟨ws.getD r 0, ?_, ht⟩
    rw [Array.mem_iff_getElem]
    refine ⟨r-lo, by rw [Array.size_extract]; omega, ?_⟩
    simp [Array.getD_eq_getD_getElem?, hr, Nat.add_sub_cancel' h₁]

end Word

namespace Pattern

/-- The pattern as a sweep sees it: one row for each result, one column for each seed. -/
def facing (p : Pattern) : Direction → Pattern
  | .forward => p
  | .reverse => p.transpose

theorem push_eq (p : Pattern) (dir : Direction) (seed : Array Word) :
    p.push dir seed = (p.facing dir).push .forward seed := by
  cases dir <;> rfl

@[simp] theorem size_push (p : Pattern) (seed : Array Word) :
    (p.push .forward seed).size = p.nrow := by
  simp [push]

theorem test_push {p : Pattern} {seed : Array Word} {r j : Nat} (hr : r < p.nrow)
    (hj : j < Word.size) :
    ((p.push .forward seed).getD r 0).test j = true ↔ ∃ c ∈ p.row r, (seed.getD c 0).test j = true := by
  have hp : (p.push .forward seed).getD r 0 = Word.sup ((p.row r).map fun c => seed.getD c 0) := by
    simp [push, Array.getD_eq_getD_getElem?, hr]
  rw [hp, Word.test_sup _ hj]
  constructor
  · rintro ⟨w, hw, ht⟩
    obtain ⟨c, hc, rfl⟩ := Array.mem_map.mp hw
    exact ⟨c, hc, ht⟩
  · rintro ⟨c, hc, ht⟩
    exact ⟨_, Array.mem_map.mpr ⟨c, hc, rfl⟩, ht⟩

/-- Words are told apart by their bits. -/
theorem eq_push {p : Pattern} {seed ws : Array Word} (hs : ws.size = p.nrow)
    (h : ∀ r, r < p.nrow → ∀ j, j < Word.size → ((ws.getD r 0).test j = true ↔
      ∃ c ∈ p.row r, (seed.getD c 0).test j = true)) : ws = p.push .forward seed := by
  refine Array.ext (by rw [hs, size_push]) fun r hr hr' => ?_
  have hrow : r < p.nrow := hs ▸ hr
  have hw : ws.getD r 0 = ws[r] := by rw [Array.getD, dif_pos hr]; rfl
  have hp : (p.push .forward seed).getD r 0 = (p.push .forward seed)[r] := by
    rw [Array.getD, dif_pos hr']; rfl
  rw [← hw, ← hp]
  refine Word.ext_test fun j hj => Bool.eq_iff_iff.mpr ?_
  rw [h r hrow j hj, test_push hrow hj]

end Pattern

namespace Detect

variable {σ : Type}

/-- Sweeps in this direction propagate exactly through the pattern. -/
def Exact (s : Propagation σ) (dir : Direction) (q : Pattern) : Prop :=
  ∀ seed st, seed.size = q.ncol → (s.sweep dir seed st).1 = q.push .forward seed

def ExactBoth (s : Propagation σ) (p : Pattern) : Prop := ∀ dir, Exact s dir (p.facing dir)

end Detect

/-- Every sweep carries words exactly through the pattern: forward along its rows, in reverse along its
columns. -/
structure Propagation.Through {σ : Type} (s : Propagation σ) (p : Pattern) : Prop where
  nnzIn : s.nnzIn = p.ncol
  nnzOut : s.nnzOut = p.nrow
  sweep : ∀ dir seed st, seed.size = s.seedSize dir → (s.sweep dir seed st).1 = p.push dir seed

theorem Propagation.Through.exactBoth {σ : Type} {s : Propagation σ} {p : Pattern}
    (h : s.Through p) : Detect.ExactBoth s p := by
  intro dir seed st hseed
  rw [h.sweep dir seed st, Pattern.push_eq]
  cases dir with
  | forward => exact hseed.trans h.nnzIn.symm
  | reverse => exact hseed.trans h.nnzOut.symm

end Fluxion
