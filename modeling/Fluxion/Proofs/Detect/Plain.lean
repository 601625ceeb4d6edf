import Fluxion.Detect.Plain
import Fluxion.Proofs.Detect.Words
import Fluxion.Proofs.Pattern.Transpose
import Fluxion.Proofs.Run

/-!
Plain detection. Bit `j` of sweep `k` stands for one seed entry, so each sweep reads off the entries of a
word of columns, and all sweeps together the whole pattern.
-/
set_option autoImplicit false

namespace Fluxion.Detect

variable {σ : Type}

theorem test_plainSeed {n k i j : Nat} (hi : i < n) (hj : j < Word.size) :
    ((plainSeed n k).getD i 0).test j = true ↔ i = Word.size*k+j := by
  have hg : (plainSeed n k).getD i 0 =
      if i / Word.size = k then Word.bit (i % Word.size) else 0 := by
    simp [plainSeed, Array.getD_eq_getD_getElem?, hi]
  have hm : i % Word.size < Word.size := Nat.mod_lt _ (by decide)
  have hd := Nat.div_add_mod i Word.size
  rw [hg]
  split
  · rename_i hk
    rw [Word.test_bit hm hj, decide_eq_true_iff, ← hk]
    omega
  · rename_i hk
    rw [Word.test_zero]
    constructor
    · intro h
      cases h
    · rintro rfl
      exact absurd (by rw [Nat.mul_add_div (by decide), Nat.div_eq_of_lt hj, Nat.add_zero]) hk

/-- The entry of a result `el` and a seed `i`. -/
def entryOf (dir : Direction) (el i : Nat) : Nat × Nat :=
  match dir with
  | .forward => (el,i)
  | .reverse => (i,el)

theorem mem_facing {p : Pattern} (hp : p.Valid) {dir : Direction} {el i : Nat} :
    (el,i) ∈ (p.facing dir).entries ↔ entryOf dir el i ∈ p.entries := by
  cases dir with
  | forward => exact Iff.rfl
  | reverse => exact hp.mem_transpose

theorem entryOf_inj {dir : Direction} {el el' i i' : Nat} :
    entryOf dir el i = entryOf dir el' i' ↔ el = el' ∧ i = i' := by
  cases dir <;> simp [entryOf, and_comm]

theorem exists_entryOf (dir : Direction) (r c : Nat) : ∃ el i, (r,c) = entryOf dir el i := by
  cases dir with
  | forward => exact ⟨r, c, rfl⟩
  | reverse => exact ⟨c, r, rfl⟩

theorem mem_plainEntries_iff {dir : Direction} {k el i : Nat} {sens : Array Word} :
    entryOf dir el i ∈ plainEntries dir k sens ↔
      ∃ j, el < sens.size ∧ j < Word.size ∧ (sens.getD el 0).test j = true ∧ i = Word.size*k+j := by
  have hf : plainEntries dir k sens = sens.zipIdx.flatMap fun e =>
      (e.1.bits.map fun j => entryOf dir e.2 (Word.size*k+j)).toArray := by
    cases dir <;> rfl
  rw [hf]
  simp only [Array.mem_flatMap, List.mem_toArray, List.mem_map, Word.mem_bits,
    Array.mem_zipIdx_iff_getElem?]
  constructor
  · rintro ⟨⟨w, el'⟩, hw, j, ⟨hj, ht⟩, he⟩
    dsimp only at hw ht he
    obtain ⟨rfl, rfl⟩ := entryOf_inj.mp he
    obtain ⟨hel, -⟩ := Array.getElem?_eq_some_iff.mp hw
    exact ⟨j, hel, hj, by simpa [Array.getD_eq_getD_getElem?, hw] using ht, rfl⟩
  · rintro ⟨j, hel, hj, ht, rfl⟩
    refine ⟨(sens.getD el 0, el), ?_, j, ⟨hj, ht⟩, rfl⟩
    simp [Array.getD_eq_getD_getElem?, hel]

theorem mem_plainEntries {dir : Direction} {k el i : Nat} {q : Pattern} (hq : q.Valid) :
    entryOf dir el i ∈ plainEntries dir k (q.push .forward (plainSeed q.ncol k)) ↔
      (el,i) ∈ q.entries ∧ i / Word.size = k := by
  rw [mem_plainEntries_iff, Pattern.size_push]
  constructor
  · rintro ⟨j, hel, hj, ht, rfl⟩
    obtain ⟨c, hc, htc⟩ := (Pattern.test_push hel hj).mp ht
    have he : (el,c) ∈ q.entries := Pattern.mem_entries.mpr ⟨hel, hc⟩
    rw [test_plainSeed (hq.entry_lt he).2 hj] at htc
    rw [htc] at he
    refine ⟨he, ?_⟩
    rw [Nat.mul_add_div (by decide), Nat.div_eq_of_lt hj, Nat.add_zero]
  · rintro ⟨he, rfl⟩
    obtain ⟨hel, hc⟩ := Pattern.mem_entries.mp he
    have hj : i % Word.size < Word.size := Nat.mod_lt _ (by decide)
    have hd := (Nat.div_add_mod i Word.size).symm
    exact ⟨i % Word.size, hel, hj, (Pattern.test_push hel hj).mpr
      ⟨i, hc, (test_plainSeed (hq.entry_lt he).2 hj).mpr hd⟩, hd⟩

theorem div_lt_ceilDiv {n i : Nat} (hi : i < n) : i / Word.size < ceilDiv n Word.size :=
  (lt_ceilDiv_iff (by decide)).mpr (Nat.lt_of_le_of_lt (Nat.div_mul_le_self _ _) hi)

/-- What sweeps have found are the entries whose seed was in one of them. -/
theorem run_plainSweeps {s : Propagation σ} {p : Pattern} (hp : p.Valid) (exact : ExactBoth s p) (dir : Direction)
    (ks : List Nat) (st : σ) :
    ∃ found st', (ks.foldlM (fun acc k => do
        let sens ← s.sweep dir (plainSeed (p.facing dir).ncol k)
        return acc ++ plainEntries dir k sens) #[] : ExceptT Fault (StateM σ) (Array (Nat × Nat))).run st =
          (.ok found, st') ∧
      ∀ el i, entryOf dir el i ∈ found ↔ (el,i) ∈ (p.facing dir).entries ∧ i / Word.size ∈ ks := by
  have hv : (p.facing dir).Valid := by
    cases dir with
    | forward => exact hp
    | reverse => exact hp.transpose
  refine run_foldlM (f := fun (acc : Array (Nat × Nat)) k => (do
      let sens ← s.sweep dir (plainSeed (p.facing dir).ncol k)
      return acc ++ plainEntries dir k sens : ExceptT Fault (StateM σ) (Array (Nat × Nat))))
    (fun done acc => ∀ el i, entryOf dir el i ∈ acc ↔
      (el,i) ∈ (p.facing dir).entries ∧ i / Word.size ∈ done) ?_ ks [] #[] st (by simp)
  intro done k acc st h
  refine ⟨_, _, rfl, fun el i => ?_⟩
  have hs := exact dir (plainSeed (p.facing dir).ncol k) st (by simp [plainSeed])
  change entryOf dir el i ∈ acc ++ plainEntries dir k (s.sweep dir _ st).1 ↔ _
  rw [hs, Array.mem_append, h, mem_plainEntries hv]
  simp only [List.mem_append, List.mem_singleton]
  exact and_or_left.symm

/-- Plain detection finds exactly the pattern that the sweeps propagate through. -/
theorem plain_run {s : Propagation σ} {p : Pattern} (hp : p.Valid) (exact : ExactBoth s p)
    (hin : s.nnzIn = p.ncol) (hout : s.nnzOut = p.nrow) (mode : AdMode) (st : σ) :
    ∃ st', (plain s mode).run st = (.ok p, st') := by
  unfold plain
  dsimp only
  generalize plainDirection s mode = dir
  have hn : s.seedSize dir = (p.facing dir).ncol := by
    cases dir with
    | forward => exact hin
    | reverse => exact hout
  rw [hn, hin, hout]
  obtain ⟨found, st', he, hfound⟩ := run_plainSweeps hp exact dir
    (List.range (ceilDiv (p.facing dir).ncol Word.size)) st
  rw [run_bind_ok he]
  refine ⟨st', ?_⟩
  -- Every seed is in one of the sweeps.
  have hmem (r c : Nat) : (r,c) ∈ found ↔ (r,c) ∈ p.entries := by
    obtain ⟨el, i, hrc⟩ := exists_entryOf dir r c
    rw [hrc, hfound, ← mem_facing hp, List.mem_range]
    refine and_iff_left_of_imp fun h => div_lt_ceilDiv ?_
    cases dir with
    | forward => exact (hp.entry_lt h).2
    | reverse => exact (hp.transpose.entry_lt h).2
  rw [hp.ofEntries?_of_mem_iff hmem]
  rfl

end Fluxion.Detect
