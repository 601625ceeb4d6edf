import Fluxion.Function.Derived
import Fluxion.Proofs.Coloring.Star
import Fluxion.Proofs.Function.Ready

/-!
Colors that are used. Whatever the pattern, every color of a block is the color of one of its columns or rows, so the
unit seed of a color is not zero and there are no more colors than columns or rows.
-/
set_option autoImplicit false

namespace Fluxion

variable {K : Type}

namespace Partition

/-- Every color has one of the columns, or of the rows. -/
def Used (rows cols : Nat) : Partition → Prop
  | forward s => ∀ k < s.nrow, ∃ c ∈ s.row k, c < cols
  | adjoint s => ∀ k < s.nrow, ∃ r ∈ s.row k, r < rows

/-- Every column, or every row, has one color. -/
def Seeds (rows cols : Nat) : Partition → Prop
  | forward s => Coloring.Seeds cols s
  | adjoint s => Coloring.Seeds rows s

/-- Of two counts the one on the side of the colors. -/
def select (side : Partition) (n : Nat × Nat) : Nat :=
  match side with
  | forward _ => n.1
  | adjoint _ => n.2

variable {side : Partition} {rows cols : Nat}

theorem Seeds.used (h : side.Seeds rows cols) : side.Used rows cols := by
  cases side with
  | forward s => exact fun k hk => Coloring.Seeds.exists_lt h hk
  | adjoint s => exact fun k hk => Coloring.Seeds.exists_lt h hk

theorem Seeds.colors_le (h : side.Seeds rows cols) : side.colors ≤ side.select (cols, rows) := by
  cases side with
  | forward s => exact Coloring.Seeds.nrow_le h
  | adjoint s => exact Coloring.Seeds.nrow_le h

end Partition

namespace Definition

variable {d : Definition K} {iind oind : Nat} {p : Pattern} {side : Partition}

theorem seeds_partition {symmetric : Bool} (hp : d.jacSparsity iind oind true symmetric = .ok p)
    (hside : d.partition iind oind true symmetric = .ok side) : side.Seeds p.nrow p.ncol := by
  rw [partition, hp, ok_bind] at hside
  cases symmetric with
  | true =>
    obtain ⟨s, hs, hside⟩ := exists_of_bind_eq_ok hside
    obtain rfl := Except.ok.inj hside
    exact Coloring.seeds_star hs
  | false =>
    have hcolumns : Partition.Seeds p.nrow p.ncol (.forward (Coloring.columns p)) := Coloring.seeds_columns p
    have hrows : Partition.Seeds p.nrow p.ncol (.adjoint (Coloring.rows p)) := Coloring.seeds_rows p
    simp only [Bool.false_eq_true, if_false, Bool.not_true] at hside
    split at hside
    · exact Except.ok.inj hside ▸ hcolumns
    · exact Except.ok.inj hside ▸ hrows
    · split at hside
      · exact Except.ok.inj hside ▸ hcolumns
      · exact Except.ok.inj hside ▸ hrows

theorem shape_symmetrize {q : Pattern} (h : p.symmetrize = .ok q) : q.nrow = p.nrow ∧ q.ncol = p.ncol := by
  rw [Pattern.symmetrize] at h
  split at h
  · rw [Pattern.union] at h
    split at h
    · obtain rfl := Except.ok.inj h
      simp
    · cases h
  · cases h

/-- What is no tape reports patterns of the shape of their blocks. -/
theorem shape_jacSparsity (ht : d.tape? = none) {symmetric : Bool}
    (hp : d.jacSparsity iind oind true symmetric = .ok p) : ∃ inp out, d.sig.inputs[iind]? = some inp ∧
      d.sig.outputs[oind]? = some out ∧ p.nrow = out.nnz ∧ p.ncol = inp.nnz := by
  rw [jacSparsity] at hp
  obtain ⟨inp, hin, hp⟩ := exists_of_bind_eq_ok hp
  obtain ⟨out, hout, hp⟩ := exists_of_bind_eq_ok hp
  obtain ⟨q, hq, hp⟩ := exists_of_bind_eq_ok hp
  obtain rfl : q = p := Except.ok.inj hp
  refine ⟨inp, out, Signature.inputs_of_checkInput hin, Signature.outputs_of_checkOutput hout, ?_⟩
  rw [detectPattern, hin, ok_bind, hout, ok_bind, ht] at hq
  obtain ⟨-, hq⟩ := ok_of_guard hq
  split at hq
  · next r _ =>
    obtain ⟨hshape, hq⟩ := ok_of_guard hq
    have hdims : r.nrow = out.nnz ∧ r.ncol = inp.nnz := by simpa using hshape
    split at hq
    · obtain ⟨hrow, hcol⟩ := shape_symmetrize hq
      exact ⟨hrow.trans hdims.1, hcol.trans hdims.2⟩
    · exact Except.ok.inj hq ▸ hdims
  · obtain rfl := Except.ok.inj hq
    simp

theorem used_diagonal (rows cols : Nat) : (Partition.forward (.diagonal cols)).Used rows cols ∧
    (Partition.adjoint (.diagonal rows)).Used rows cols := by
  have hmem (n k : Nat) (hk : k < (Pattern.diagonal n).nrow) : ∃ c ∈ (Pattern.diagonal n).row k, c < n := by
    have hk : k < n := by simpa [Pattern.diagonal, Pattern.ofRows] using hk
    exact ⟨k, by simp [Pattern.diagonal, Pattern.row_ofRows, hk], hk⟩
  exact ⟨hmem cols, hmem rows⟩

/-- The colors that a numeric Jacobian sweeps are used. -/
theorem used_numericSource {ps : Pattern × Source} (h : d.numericSource iind oind = .ok ps)
    (hside : ps.2 = .sweeps side) : ∃ inp out, d.sig.inputs[iind]? = some inp ∧ d.sig.outputs[oind]? = some out ∧
      side.Used out.nnz inp.nnz := by
  rw [numericSource] at h
  obtain ⟨inp, hin, h⟩ := exists_of_bind_eq_ok h
  obtain ⟨out, hout, h⟩ := exists_of_bind_eq_ok h
  have hin := Signature.inputs_of_checkInput hin
  have hout := Signature.outputs_of_checkOutput hout
  have hdense {s : Partition} (hs : s = .adjoint (.diagonal out.nnz) ∨ s = .forward (.diagonal inp.nnz)) :
      s.Used out.nnz inp.nnz := by
    obtain rfl | rfl := hs
    · exact (used_diagonal _ _).2
    · exact (used_diagonal _ _).1
  cases d with
  | expressions | jacobian | derivative =>
    obtain rfl := Except.ok.inj h
    obtain rfl := Source.sweeps.inj hside
    exact ⟨inp, out, hin, hout, hdense (by split <;> simp)⟩
  | external sig c =>
    change (if (c.jacobian iind oind).isSome then _ else _) = Except.ok ps at h
    split at h
    · obtain ⟨p, hp, h⟩ := exists_of_bind_eq_ok h
      obtain rfl := Except.ok.inj h
      cases hside
    · split at h
      · obtain ⟨p, hp, h⟩ := exists_of_bind_eq_ok h
        obtain ⟨side', hpart, h⟩ := exists_of_bind_eq_ok h
        obtain rfl := Except.ok.inj h
        obtain rfl := Source.sweeps.inj hside
        obtain ⟨inp', out', hin', hout', hrow, hcol⟩ := shape_jacSparsity rfl hp
        exact ⟨inp', out', hin', hout', hrow ▸ hcol ▸ (seeds_partition hp hpart).used⟩
      · obtain rfl := Except.ok.inj h
        obtain rfl := Source.sweeps.inj hside
        exact ⟨inp, out, hin, hout, hdense (by split <;> simp)⟩

end Definition

end Fluxion
