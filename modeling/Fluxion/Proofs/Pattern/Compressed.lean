import Mathlib.Data.List.Chain
import Fluxion.Proofs.Pattern.Rows

/-!
Compressed rows given as plain arrays. They are taken where they make a valid pattern and refused with a cause
elsewhere, unless the first row that is not sound ends after the last entry: this row is cut out of the columns
before its end is known to be there.
-/
set_option autoImplicit false

namespace Fluxion.Pattern

/-- What a pass over row `r` asks for. -/
structure SoundRow (p : Pattern) (r : Nat) : Prop where
  mono : p.start r ≤ p.start (r+1)
  inside : p.start (r+1) ≤ p.nnz
  bound : ∀ c ∈ p.row r, c < p.ncol
  strict : (p.row r).toList.Pairwise (· < ·)

/-- A row that does not decrease ends after the last entry. -/
structure PastEnd (p : Pattern) (r : Nat) : Prop where
  mono : p.start r ≤ p.start (r+1)
  past : p.nnz < p.start (r+1)

/-- The number of row starts is right, and so are the first and the last of them. -/
structure Framed (p : Pattern) : Prop where
  size : p.rowStart.size = p.nrow+1
  first : p.start 0 = 0
  last : p.start p.nrow = p.nnz

/-- Row starts leave the entries, after sound rows only. -/
structure Overshoots (p : Pattern) : Prop extends p.Framed where
  leaves : ∃ r < p.nrow, (∀ q < r, p.SoundRow q) ∧ p.PastEnd r

variable {p : Pattern}

theorem zip_tail_all_lt (xs : List Nat) :
    (xs.zip xs.tail).any (fun (a,b) => b ≤ a) = false ↔ xs.Pairwise (· < ·) := by
  rw [← List.isChain_iff_pairwise]
  induction xs with
  | nil => simp
  | cons a xs ih =>
    cases xs with
    | nil => simp
    | cons b xs =>
      rw [List.isChain_cons_cons, ← ih]
      simp

/-- A row passes where it is sound, leaves the entries where it ends after the last one, and is refused with a
cause elsewhere. -/
theorem checkRow_cases (p : Pattern) (r : Nat) :
    p.checkRow r = .ok () ∧ p.SoundRow r ∨
    p.checkRow r = .error (.violation .rowOutside) ∧ p.PastEnd r ∨
    (∃ cause, p.checkRow r = .error (.invalidPattern cause)) ∧ ¬p.SoundRow r ∧ ¬p.PastEnd r := by
  unfold checkRow
  by_cases hmono : p.start (r+1) < p.start r
  · refine .inr (.inr ⟨⟨_, if_pos hmono⟩, fun h => ?_, fun h => ?_⟩)
    · exact Nat.not_lt.mpr h.mono hmono
    · exact Nat.not_lt.mpr h.mono hmono
  rw [if_neg hmono]
  by_cases hinside : p.nnz < p.start (r+1)
  · exact .inr (.inl ⟨if_pos hinside, Nat.le_of_not_lt hmono, hinside⟩)
  have hpast : ¬p.PastEnd r := fun h => hinside h.past
  rw [if_neg hinside]
  dsimp only
  by_cases hbound : (p.row r).toList.any (p.ncol ≤ ·)
  · refine .inr (.inr ⟨⟨_, if_pos hbound⟩, fun h => ?_, hpast⟩)
    obtain ⟨c, hc, hle⟩ := List.any_eq_true.mp hbound
    exact Nat.not_lt.mpr (of_decide_eq_true hle) (h.bound c (Array.mem_toList_iff.mp hc))
  rw [if_neg hbound]
  by_cases hstrict : ((p.row r).toList.zip (p.row r).toList.tail).any (fun (a,b) => b ≤ a)
  · refine .inr (.inr ⟨⟨_, if_pos hstrict⟩, fun h => ?_, hpast⟩)
    exact absurd ((zip_tail_all_lt _).mpr h.strict) (by simp [hstrict])
  · refine .inl ⟨if_neg hstrict, Nat.le_of_not_lt hmono, Nat.le_of_not_lt hinside, fun c hc => ?_,
      (zip_tail_all_lt _).mp (by simpa using hstrict)⟩
    simp only [List.any_eq_true, decide_eq_true_eq, not_exists, not_and, Nat.not_le] at hbound
    exact hbound c (Array.mem_toList_iff.mpr hc)

/-- A loop over the numbers below `n` ends as its first step that does not return, and returns where there is
none. -/
theorem forM_range_cases {ε : Type} (f : Nat → Except ε Unit) (n : Nat) :
    (List.range n).forM f = .ok () ∧ (∀ r < n, f r = .ok ()) ∨
    ∃ r < n, (∀ q < r, f q = .ok ()) ∧ ∃ e, f r = .error e ∧ (List.range n).forM f = .error e := by
  induction n with
  | zero => exact .inl ⟨rfl, fun r hr => absurd hr (Nat.not_lt_zero r)⟩
  | succ n ih =>
    have hsplit : (List.range (n+1)).forM f = (List.range n).forM f >>= fun _ => f n := by
      rw [List.range_succ, List.forM_eq_forM, List.forM_append]
      simp
    rw [hsplit]
    rcases ih with ⟨hrun, hall⟩ | ⟨r, hr, hbefore, e, he, hrun⟩
    · rw [hrun]
      cases hn : f n with
      | ok u =>
        refine .inl ⟨rfl, fun r hr => ?_⟩
        rcases Nat.lt_succ_iff_lt_or_eq.mp hr with hr | rfl
        · exact hall r hr
        · exact hn
      | error e => exact .inr ⟨n, Nat.lt_succ_self n, hall, e, hn, rfl⟩
    · rw [hrun]
      exact .inr ⟨r, Nat.lt_succ_of_lt hr, hbefore, e, he, rfl⟩

theorem valid_iff_framed : p.Valid ↔ p.Framed ∧ ∀ r < p.nrow, p.SoundRow r := by
  constructor
  · intro h
    exact ⟨⟨h.size, h.first, h.last⟩, fun r hr => ⟨h.mono r hr, h.start_le_nnz hr, h.bound r hr, h.strict r hr⟩⟩
  · rintro ⟨hframed, h⟩
    exact ⟨hframed.size, hframed.first, hframed.last, fun r hr => (h r hr).mono, fun r hr => (h r hr).bound,
      fun r hr => (h r hr).strict⟩

theorem Valid.not_overshoots (h : p.Valid) : ¬p.Overshoots := by
  rintro ⟨-, r, hr, -, hpast⟩
  exact Nat.not_lt.mpr (h.start_le_nnz hr) hpast.past

section Arrays

variable {nrow ncol : Nat} {rowStart col : Array Nat}

/-- The rows are looked at where the first and the last start are right. -/
theorem ofCompressed_framed (h : Framed ⟨nrow, ncol, rowStart, col⟩) : ofCompressed nrow ncol rowStart col =
    (List.range nrow).forM (checkRow ⟨nrow, ncol, rowStart, col⟩) >>= fun _ => .ok ⟨nrow, ncol, rowStart, col⟩ := by
  have hsize : ¬rowStart.size ≠ nrow+1 := fun hne => hne h.size
  have hends : ¬(start ⟨nrow, ncol, rowStart, col⟩ 0 ≠ 0 || start ⟨nrow, ncol, rowStart, col⟩ nrow ≠ col.size) := by
    simp [h.first, show start ⟨nrow, ncol, rowStart, col⟩ nrow = col.size from h.last]
  unfold ofCompressed
  dsimp only
  rw [if_neg hsize, if_neg hends]
  rfl

/-- The number of row starts of a shape that can be reached is told from no other. -/
theorem ofCompressed_not_framed (hrow : nrow+1 < UInt64.size) (h : ¬Framed ⟨nrow, ncol, rowStart, col⟩) :
    ∃ cause, ofCompressed nrow ncol rowStart col = .error (.invalidPattern cause) := by
  unfold ofCompressed
  dsimp only
  by_cases hsize : rowStart.size ≠ nrow+1
  · rw [if_pos hsize, startFault, startCount, Count.wrap_of_lt hrow, if_neg hsize]
    exact ⟨_, rfl⟩
  rw [if_neg hsize]
  by_cases hends : start ⟨nrow, ncol, rowStart, col⟩ 0 ≠ 0 || start ⟨nrow, ncol, rowStart, col⟩ nrow ≠ col.size
  · exact ⟨_, if_pos hends⟩
  · simp only [Bool.or_eq_true, decide_eq_true_eq, not_or, Decidable.not_not] at hsize hends
    exact absurd ⟨hsize, hends.1, hends.2⟩ h

theorem ofCompressed_cases (ncol : Nat) (rowStart col : Array Nat) (hrow : nrow+1 < UInt64.size) :
    let p : Pattern := ⟨nrow, ncol, rowStart, col⟩
    ofCompressed nrow ncol rowStart col = .ok p ∧ p.Valid ∨
    ofCompressed nrow ncol rowStart col = .error (.violation .rowOutside) ∧ p.Overshoots ∨
    (∃ cause, ofCompressed nrow ncol rowStart col = .error (.invalidPattern cause)) ∧ ¬p.Valid ∧ ¬p.Overshoots := by
  intro p
  by_cases hframed : p.Framed
  swap
  · exact .inr (.inr ⟨ofCompressed_not_framed hrow hframed, fun hp => hframed (valid_iff_framed.mp hp).1,
      fun hp => hframed hp.toFramed⟩)
  rw [ofCompressed_framed hframed]
  have hsound {r : Nat} (h : p.checkRow r = .ok ()) : p.SoundRow r := by
    rcases p.checkRow_cases r with ⟨-, hr⟩ | ⟨he, -⟩ | ⟨⟨_, he⟩, -⟩
    · exact hr
    · cases h.symm.trans he
    · cases h.symm.trans he
  rcases forM_range_cases p.checkRow nrow with ⟨hrun, hall⟩ | ⟨r, hr, hbefore, e, he, hrun⟩
  · rw [hrun]
    exact .inl ⟨rfl, valid_iff_framed.mpr ⟨hframed, fun r hr => hsound (hall r hr)⟩⟩
  rw [hrun]
  rcases p.checkRow_cases r with ⟨hok, -⟩ | ⟨herror, hpast⟩ | ⟨⟨cause, herror⟩, hunsound, hinside⟩
  · cases he.symm.trans hok
  · cases he.symm.trans herror
    exact .inr (.inl ⟨rfl, hframed, r, hr, fun q hq => hsound (hbefore q hq), hpast⟩)
  · cases he.symm.trans herror
    refine .inr (.inr ⟨⟨cause, rfl⟩, fun hp => hunsound ((valid_iff_framed.mp hp).2 r hr), ?_⟩)
    -- The first row that is not sound is row `r`, which is inside.
    rintro ⟨-, q, hq, hsoundBefore, hpast⟩
    rcases Nat.lt_trichotomy q r with hlt | rfl | hlt
    · exact Nat.not_lt.mpr (hsound (hbefore q hlt)).inside hpast.past
    · exact hinside hpast
    · exact hunsound (hsoundBefore r hlt)

/-- Arrays are taken as they are where they make a valid pattern, and refused with a cause elsewhere, unless row
starts leave the entries after sound rows. -/
theorem ofCompressed_correct (ncol : Nat) (rowStart col : Array Nat) (hrow : nrow+1 < UInt64.size) :
    let p : Pattern := ⟨nrow, ncol, rowStart, col⟩
    (∀ q, ofCompressed nrow ncol rowStart col = .ok q ↔ q = p ∧ p.Valid) ∧
    ((∃ cause, ofCompressed nrow ncol rowStart col = .error (.invalidPattern cause)) ↔ ¬p.Valid ∧ ¬p.Overshoots) ∧
    (ofCompressed nrow ncol rowStart col = .error (.violation .rowOutside) ↔ p.Overshoots) := by
  intro p
  rcases ofCompressed_cases ncol rowStart col hrow with
    ⟨hrun, hvalid⟩ | ⟨hrun, hover⟩ | ⟨⟨cause, hrun⟩, hvalid, hover⟩
  · have hover : ¬p.Overshoots := hvalid.not_overshoots
    simp [hrun, hvalid, hover, p, eq_comm]
  · have hvalid : ¬p.Valid := fun h => h.not_overshoots hover
    simpa [hrun, hvalid] using hover
  · simp [hrun, hvalid, hover, p]

theorem ofCompressed_correct_band : 3 + 1 < UInt64.size ∧
    ofCompressed 3 2 #[0,1,1,3] #[1,0,1] = .ok ⟨3, 2, #[0,1,1,3], #[1,0,1]⟩ ∧
    ∃ cause, ofCompressed 3 2 #[0,1,1,3] #[1,1,0] = .error (.invalidPattern cause) := by
  have hrow : 3 + 1 < UInt64.size := by decide
  have hvalid : Valid ⟨3, 2, #[0,1,1,3], #[1,0,1]⟩ := by constructor <;> decide
  have hunsorted : ¬Valid ⟨3, 2, #[0,1,1,3], #[1,1,0]⟩ := fun h =>
    absurd (h.strict 2 (by decide)) (by decide)
  have hinside : ¬Overshoots ⟨3, 2, #[0,1,1,3], #[1,1,0]⟩ := by
    rintro ⟨-, r, hr, -, hpast⟩
    have hle : ∀ r < 3, start ⟨3, 2, #[0,1,1,3], #[1,1,0]⟩ (r+1) ≤ 3 := by decide
    exact Nat.not_lt.mpr (hle r hr) hpast.past
  exact ⟨hrow, ((ofCompressed_correct 2 #[0,1,1,3] #[1,0,1] hrow).1 _).mpr ⟨rfl, hvalid⟩,
    (ofCompressed_correct 2 #[0,1,1,3] #[1,1,0] hrow).2.1.mpr ⟨hunsorted, hinside⟩⟩

/-- The second start is past the last entry, and the third one is back. -/
theorem ofCompressed_past_and_back : ¬Valid ⟨2, 3, #[0,5,2], #[0,1]⟩ ∧
    ∀ cause, ofCompressed 2 3 #[0,5,2] #[0,1] ≠ .error (.invalidPattern cause) := by
  have hrun : ofCompressed 2 3 #[0,5,2] #[0,1] = .error (.violation .rowOutside) := rfl
  refine ⟨fun h => absurd (h.mono 1 (by decide)) (by decide), fun cause he => ?_⟩
  cases hrun.symm.trans he

end Arrays

end Fluxion.Pattern
