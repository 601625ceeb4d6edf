import Mathlib.Data.List.Permutation
import Fluxion.Pattern.Family
import Fluxion.Proofs.Pattern.Transpose

/-!
Patterns as sets of entries. A list of entries makes the one valid pattern of its shape that has them; union and
symmetric closure are those of sets.
-/
set_option autoImplicit false

namespace Fluxion.Pattern

/-- A valid pattern of a shape that has the entries in a relation and no others. -/
structure Has (p : Pattern) (nrow ncol : Nat) (S : Nat → Nat → Prop) : Prop where
  valid : p.Valid
  nrow : p.nrow = nrow
  ncol : p.ncol = ncol
  mem : ∀ r c, (r,c) ∈ p.entries ↔ S r c

/-- There is one such pattern at most. -/
theorem Has.unique {p q : Pattern} {nrow ncol : Nat} {S : Nat → Nat → Prop} (hp : p.Has nrow ncol S)
    (hq : q.Has nrow ncol S) : p = q :=
  hp.valid.ext hq.valid (hp.nrow.trans hq.nrow.symm) (hp.ncol.trans hq.ncol.symm) fun r c => by
    rw [hp.mem, hq.mem]

/-- A pattern is told from others by its shape and its entries. -/
theorem Has.eq_iff {p q : Pattern} {nrow ncol : Nat} {S : Nat → Nat → Prop} (hp : p.Has nrow ncol S) (hq : q.Valid) :
    q = p ↔ q.nrow = nrow ∧ q.ncol = ncol ∧ ∀ r c, (r,c) ∈ q.entries ↔ S r c := by
  constructor
  · rintro rfl
    exact ⟨hp.nrow, hp.ncol, hp.mem⟩
  · rintro ⟨hrow, hcol, hmem⟩
    exact Has.unique ⟨hq, hrow, hcol, hmem⟩ hp

section Listed

variable {nrow ncol : Nat} {entries : Array (Nat × Nat)}

theorem ofEntries_has (h : ∀ r c, (r,c) ∈ entries → r < nrow ∧ c < ncol) :
    (ofEntries nrow ncol entries).Has nrow ncol fun r c => (r,c) ∈ entries :=
  ⟨valid_ofEntries fun r c hrc => (h r c hrc).2, rfl, rfl, fun _ _ => mem_ofEntries_of_inside h⟩

/-- Where the row starts have room, nothing else is in the way. -/
theorem make_entries (h : ∀ r c, (r,c) ∈ entries → r < nrow ∧ c < ncol) (hroom : checkRows nrow = .ok ()) :
    (Recipe.entries nrow ncol entries).make = .ok (ofEntries nrow ncol entries) := by
  have hlt : (nrow+1)*8 < UInt64.size / 2 := of_decide_eq_true (Count.checkRoom_eq_ok_iff.mp hroom)
  have hstarts : startCount nrow ≠ 0 := by
    rw [startCount, Count.wrap_of_lt (by omega)]
    exact Nat.succ_ne_zero nrow
  rw [Recipe.make, checkCounts, if_neg hstarts, hroom, ofEntries?_eq h]
  rfl

end Listed

section Closure

variable {p q : Pattern}

theorem Valid.union (hp : p.Valid) (hq : q.Valid) (hrow : p.nrow = q.nrow) (hcol : p.ncol = q.ncol) :
    ∃ u, p.union q = .ok u ∧ u.Has p.nrow p.ncol fun r c => (r,c) ∈ p.entries ∨ (r,c) ∈ q.entries := by
  refine ⟨_, if_pos ⟨hrow, hcol⟩, ?_⟩
  have hinside : ∀ r c, (r,c) ∈ p.entries ++ q.entries → r < p.nrow ∧ c < p.ncol := by
    intro r c h
    rcases Array.mem_append.mp h with h | h
    · exact hp.entry_lt h
    · rw [hrow, hcol]
      exact hq.entry_lt h
  simpa using ofEntries_has hinside

/-- A square pattern has a least symmetric one over it: its entries and their mirrors. -/
theorem Valid.symmetrize (hp : p.Valid) (hsquare : p.nrow = p.ncol) :
    ∃ s, p.symmetrize = .ok s ∧ s.Has p.nrow p.ncol (fun r c => (r,c) ∈ p.entries ∨ (c,r) ∈ p.entries) ∧
      s.isSymmetric = true := by
  obtain ⟨s, hs, hhas⟩ := hp.union hp.transpose (by simp [hsquare]) (by simp [hsquare])
  simp only [hp.mem_transpose] at hhas
  refine ⟨s, ?_, hhas, (isSymmetric_iff hhas.valid).mpr ⟨?_, fun r c h => ?_⟩⟩
  · rw [Pattern.symmetrize, if_pos (by simpa [isSquare] using hsquare), hs]
  · rw [hhas.nrow, hhas.ncol, hsquare]
  · rw [hhas.mem] at h ⊢
    exact h.symm

end Closure

/-- Entries inside a shape, in any order and with any repetition, make the one valid pattern that has them. Among
patterns of its shape it is told from others by its entries, an entry is found at its number, the union with another
pattern has the entries of both, and the symmetric closure of a square one is in every symmetric pattern that it is in. -/
theorem ofEntries_correct {nrow ncol : Nat} {entries : Array (Nat × Nat)}
    (h : ∀ r c, (r,c) ∈ entries → r < nrow ∧ c < ncol) :
    ∃ p, ofEntries? nrow ncol entries = .ok p ∧ p.Has nrow ncol (fun r c => (r,c) ∈ entries) ∧
      (checkRows nrow = .ok () → (Recipe.entries nrow ncol entries).make = .ok p) ∧
      (∀ entries', (∀ e, e ∈ entries' ↔ e ∈ entries) → ofEntries? nrow ncol entries' = .ok p) ∧
      (∀ q, q.Valid → (q = p ↔ q.nrow = nrow ∧ q.ncol = ncol ∧ ∀ r c, (r,c) ∈ q.entries ↔ (r,c) ∈ entries)) ∧
      (∀ r c k, p.find? r c = some k ↔ p.entries[k]? = some (r,c)) ∧
      (∀ q, q.Valid → q.nrow = nrow → q.ncol = ncol →
        ∃ u, p.union q = .ok u ∧ u.Has nrow ncol fun r c => (r,c) ∈ entries ∨ (r,c) ∈ q.entries) ∧
      (nrow = ncol → ∃ s, p.symmetrize = .ok s ∧ s.isSymmetric = true ∧
        s.Has nrow ncol (fun r c => (r,c) ∈ entries ∨ (c,r) ∈ entries) ∧
        ∀ q : Pattern, q.Valid → q.isSymmetric = true → (∀ e ∈ p.entries, e ∈ q.entries) → ∀ e ∈ s.entries, e ∈ q.entries) := by
  have hp := ofEntries_has h
  refine ⟨ofEntries nrow ncol entries, ofEntries?_eq h, hp, make_entries h, fun entries' hsame => ?_,
    fun q hq => hp.eq_iff hq, fun r c k => find?_eq_some hp.valid, fun q hq hrow hcol => ?_, fun hsquare => ?_⟩
  · have h' : ∀ r c, (r,c) ∈ entries' → r < nrow ∧ c < ncol := fun r c hrc => h r c ((hsame _).mp hrc)
    have hp' := ofEntries_has h'
    simp only [hsame] at hp'
    rw [ofEntries?_eq h', hp'.unique hp]
  · obtain ⟨u, hu, hhas⟩ := hp.valid.union hq hrow.symm hcol.symm
    simp only [hp.mem] at hhas
    exact ⟨u, hu, hhas⟩
  · obtain ⟨s, hs, hhas, hsymm⟩ := hp.valid.symmetrize hsquare
    simp only [hp.mem] at hhas
    refine ⟨s, hs, hsymm, hhas, fun q hq hqsymm hsub => ?_⟩
    rintro ⟨r, c⟩ he
    rcases (hhas.mem r c).mp he with he | he
    · exact hsub _ ((hp.mem r c).mpr he)
    · exact ((isSymmetric_iff hq).mp hqsymm).2 c r (hsub _ ((hp.mem c r).mpr he))

/-- Four pairs in no order, of which two are the same. The second row has none. -/
def repeated : Array (Nat × Nat) := #[(2,1), (0,2), (2,0), (2,1)]

theorem ofEntries_correct_repeated : (∀ r c, (r,c) ∈ repeated → r < 3 ∧ c < 3) ∧
    ∃ p, ofEntries? 3 3 repeated = .ok p ∧ p = ⟨3, 3, #[0,1,1,3], #[2,0,1]⟩ ∧ p.find? 2 1 = some 2 ∧
      ∃ s, p.symmetrize = .ok s ∧ s.isSymmetric = true ∧ (1,2) ∈ s.entries := by
  have hinside : ∀ r c, (r,c) ∈ repeated → r < 3 ∧ c < 3 := by
    intro r c h
    simp only [repeated, List.mem_toArray, List.mem_cons, Prod.mk.injEq, List.not_mem_nil, or_false] at h
    omega
  obtain ⟨p, hp, -, -, -, -, hfind, -, hsymm⟩ := ofEntries_correct hinside
  have hrun : ofEntries? 3 3 repeated = .ok ⟨3, 3, #[0,1,1,3], #[2,0,1]⟩ := by cbv
  obtain rfl := Except.ok.inj (hrun.symm.trans hp)
  obtain ⟨s, hs, hsymmetric, hhas, -⟩ := hsymm rfl
  exact ⟨hinside, _, hp, rfl, (hfind 2 1 2).mpr (by cbv), s, hs, hsymmetric,
    (hhas.mem 1 2).mpr (.inr (by simp [repeated]))⟩

end Fluxion.Pattern
