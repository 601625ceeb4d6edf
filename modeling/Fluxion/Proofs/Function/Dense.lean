import Fluxion.Proofs.Function.Recover
import Fluxion.Proofs.Pattern.Enlarge
import Fluxion.Proofs.Tape.Live

/-!
Dense forms. A matrix whose rows and columns are the entries of another one has, over all elements of that
one, each value in the row and the column of the elements that it belongs to, and zero elsewhere.
-/
set_option autoImplicit false

namespace Fluxion

variable {T U : Type}

/-- All elements, each from its row and its column. -/
def table (nrow ncol : Nat) (M : Nat → Nat → T) : Array (Array T) :=
  (Array.range nrow).map fun r => (Array.range ncol).map (M r)

namespace Block

theorem get?_table {nrow ncol r c : Nat} {M : Nat → Nat → T} {x : T} :
    get? (table nrow ncol M) r c = some x ↔ r < nrow ∧ c < ncol ∧ M r c = x := by
  by_cases hr : r < nrow
  · by_cases hc : c < ncol <;> simp [get?, table, hr, hc]
  · simp [get?, table, hr]

theorem sizes_foldl_set (M : Nat → Nat → T) (es : List (Nat × Nat)) (b : Block T) :
    (es.foldl (fun b e => b.set e.1 e.2 (M e.1 e.2)) b).sizes = b.sizes := by
  induction es generalizing b with
  | nil => rfl
  | cons e es ih => rw [List.foldl_cons, ih, sizes_set]

/-- What is there after elements have been set one after the other. -/
theorem get?_foldl_set (M : Nat → Nat → T) {es : List (Nat × Nat)} {b : Block T}
    (h : ∀ e ∈ es, (b.get? e.1 e.2).isSome) (r c : Nat) :
    (es.foldl (fun b e => b.set e.1 e.2 (M e.1 e.2)) b).get? r c =
      if (r,c) ∈ es then some (M r c) else b.get? r c := by
  induction es generalizing b with
  | nil => simp
  | cons e es ih =>
    have hget (r c : Nat) : (b.set e.1 e.2 (M e.1 e.2)).get? r c =
        if e = (r,c) then some (M r c) else b.get? r c := by
      by_cases he : e = (r,c)
      · subst he
        rw [if_pos rfl, get?_set_self (h _ List.mem_cons_self)]
      · rw [if_neg he, get?_set_of_ne he]
    have hstill : ∀ d ∈ es, ((b.set e.1 e.2 (M e.1 e.2)).get? d.1 d.2).isSome := by
      intro d hd
      rw [hget]
      split
      · rfl
      · exact h d (List.mem_cons_of_mem _ hd)
    rw [List.foldl_cons, ih hstill, hget]
    by_cases hes : (r,c) ∈ es
    · simp [hes]
    · simp [hes, eq_comm]

end Block

namespace Matrix

/-- The dense form of values that are zero outside of the pattern. -/
theorem toRows_eq {p : Pattern} (hp : p.Valid) {zero : T} {M : Nat → Nat → T}
    (hzero : ∀ r c, r < p.nrow → c < p.ncol → (r,c) ∉ p.entries → M r c = zero) :
    (⟨p, p.entries.map fun e => M e.1 e.2⟩ : Matrix T).toRows zero = table p.nrow p.ncol M := by
  have hfold : (⟨p, p.entries.map fun e => M e.1 e.2⟩ : Matrix T).toRows zero =
      p.entries.toList.foldl (fun (b : Block T) e => Block.set b e.1 e.2 (M e.1 e.2))
        (table p.nrow p.ncol fun _ _ => zero) := by
    have hzip : (p.entries.zip (p.entries.map fun e => M e.1 e.2)).toList =
        p.entries.toList.map fun e => (e, M e.1 e.2) := by
      rw [Array.toList_zip, Array.toList_map, List.zip_map_right, List.zip_eq_zipWith]
      simp [List.zipWith_self]
    rw [toRows, ← Array.foldl_toList, hzip, List.foldl_map]
    refine congrArg (List.foldl _ · _) ?_
    simp [table, Array.map_const']
  have hstart : ∀ e ∈ p.entries.toList, (Block.get? (table p.nrow p.ncol fun _ _ => zero) e.1 e.2).isSome := by
    intro e he
    obtain ⟨hr, hc⟩ := hp.entry_lt (Array.mem_toList_iff.mp he)
    exact Option.isSome_of_eq_some (Block.get?_table.mpr ⟨hr, hc, rfl⟩)
  rw [hfold]
  refine Block.ext_get? ?_ fun r c x hx => ?_
  · rw [Block.sizes_foldl_set]
    simp [Block.sizes, table]
  · rw [Block.get?_foldl_set M hstart] at hx
    split at hx
    · next he =>
      obtain ⟨hr, hc⟩ := hp.entry_lt (Array.mem_toList_iff.mp he)
      exact Block.get?_table.mpr ⟨hr, hc, Option.some.inj hx⟩
    · next he =>
      obtain ⟨hr, hc, rfl⟩ := Block.get?_table.mp hx
      exact Block.get?_table.mpr ⟨hr, hc, hzero r c hr hc (mt Array.mem_toList_iff.mpr he)⟩

/-- The value of an element by its row-major number. -/
def element? (m : Matrix T) (a : Nat) : Option T := m.get? (a/m.pattern.ncol) (a%m.pattern.ncol)

theorem element?_eq_some {m : Matrix T} (hm : m.pattern.Valid)
    (hsize : m.pattern.nrow*m.pattern.ncol < 2 ^ 64) {a : Nat} {x : T} :
    m.element? a = some x ↔ ∃ k : Nat, m.pattern.elements[k]? = some a ∧ m.values[k]? = some x := by
  rw [element?, get?, Option.bind_eq_some_iff]
  refine exists_congr fun (k : Nat) => and_congr_left fun _ => ?_
  rw [Pattern.find?_eq_some hm, hm.elements_eq hsize, Array.getElem?_map, Option.map_eq_some_iff]
  constructor
  · intro he
    exact ⟨_, he, Nat.div_add_mod' a _⟩
  · rintro ⟨⟨r, c⟩, he, rfl⟩
    obtain ⟨-, hc⟩ := hm.entry_lt (Array.mem_of_getElem? he)
    have hpos : 0 < m.pattern.ncol := Nat.zero_lt_of_lt hc
    have hdiv : (r*m.pattern.ncol+c)/m.pattern.ncol = r := by
      rw [Nat.add_comm, Nat.add_mul_div_right _ _ hpos, Nat.div_eq_of_lt hc, Nat.zero_add]
    have hmod : (r*m.pattern.ncol+c)%m.pattern.ncol = c := by
      rw [Nat.add_comm, Nat.add_mul_mod_self_right, Nat.mod_eq_of_lt hc]
    rw [he, hdiv, hmod]

/-- A value for every pair of elements that are entries, zero for the others. -/
def pairs (m : Matrix T) (zero : U) (W : T → T → U) (a b : Nat) : U :=
  match m.element? a, m.element? b with
  | some x, some y => W x y
  | _, _ => zero

theorem pairs_comm (m : Matrix T) (zero : U) {W : T → T → U} (hW : ∀ x y, W x y = W y x) (a b : Nat) :
    m.pairs zero W a b = m.pairs zero W b a := by
  rw [pairs, pairs]
  cases m.element? a <;> cases m.element? b <;> first | rfl | exact hW _ _

/-- A value for every element of `n` with every element of `m` where both are entries, zero for the others. -/
def across (n m : Matrix T) (zero : U) (W : T → T → U) (a b : Nat) : U :=
  match n.element? a, m.element? b with
  | some y, some x => W y x
  | _, _ => zero

theorem pairs_eq_across (m : Matrix T) (zero : U) (W : T → T → U) : m.pairs zero W = m.across m zero W := rfl

/-- An entry has the element that it is spread to. -/
theorem element?_getD_elements {m : Matrix T} (hm : m.pattern.Valid) (hs : m.values.size = m.pattern.nnz)
    (hsize : m.pattern.nrow*m.pattern.ncol < 2 ^ 64) {k : Nat} (hk : k < m.values.size) :
    ∃ x, m.values[k]? = some x ∧ m.element? (m.pattern.elements.getD k 0) = some x := by
  have hmap : k < m.pattern.elements.size := by rwa [hm.size_elements, ← hs]
  refine ⟨m.values[k], Array.getElem?_eq_getElem hk,
    (element?_eq_some hm hsize).mpr ⟨k, ?_, Array.getElem?_eq_getElem hk⟩⟩
  simp [Array.getD_eq_getD_getElem?, hmap]

/-- Entries for rows and columns over all elements of the rows and of the columns. -/
theorem exists_spread {n m : Matrix T} (hn : n.pattern.Valid) (hm : m.pattern.Valid)
    (hsn : n.values.size = n.pattern.nnz) (hsm : m.values.size = m.pattern.nnz)
    (hroom : Pattern.checkRows (n.pattern.nrow*n.pattern.ncol) = .ok ())
    (hsize : m.pattern.nrow*m.pattern.ncol < 2 ^ 64) {p : Pattern} (hp : p.Valid)
    (hrow : p.nrow = n.values.size) (hcol : p.ncol = m.values.size) :
    ∃ q, p.enlarge? n.pattern.numel m.pattern.numel n.pattern.elements m.pattern.elements = .ok q ∧
      q.nnz = p.nnz ∧ ∀ (zero : U) (W : T → T → U) (V : Nat × Nat → U),
        (∀ r c y x, n.values[r]? = some y → m.values[c]? = some x → V (r,c) = W y x) →
        (∀ r c, (r,c) ∉ p.entries → V (r,c) = zero) →
        (⟨q, p.entries.map V⟩ : Matrix U).toRows zero =
          table (n.pattern.nrow*n.pattern.ncol) (m.pattern.nrow*m.pattern.ncol) (n.across m zero W) := by
  have hsizen := Pattern.size_lt_of_checkRows hroom
  have hnumel : n.pattern.numel = n.pattern.nrow*n.pattern.ncol ∧ m.pattern.numel = m.pattern.nrow*m.pattern.ncol :=
    ⟨Count.wrap_of_lt hsizen, Count.wrap_of_lt hsize⟩
  obtain ⟨q, hq, hv, hqr, hqc, hentries⟩ := Pattern.enlarge?_eq hp hroom (hn.size_elements.trans (hsn.symm.trans hrow.symm))
    (hm.size_elements.trans (hsm.symm.trans hcol.symm)) (hn.pairwise_elements hsizen) (hm.pairwise_elements hsize)
    (fun _ => hn.mem_elements_lt hsizen) fun _ => hm.mem_elements_lt hsize
  refine ⟨q, by rw [hnumel.1, hnumel.2, hq], ?_, fun zero W V hV hzero => ?_⟩
  · rw [← hv.size_entries, hentries, Pattern.images, Array.size_map, hp.size_entries]
  have hvalues : p.entries.map V = q.entries.map fun e => n.across m zero W e.1 e.2 := by
    rw [hentries, Pattern.images, Array.map_map]
    refine Array.map_congr_left fun e he => ?_
    obtain ⟨hr, hc⟩ := hp.entry_lt he
    obtain ⟨y, hy, hye⟩ := element?_getD_elements hn hsn hsizen (hrow ▸ hr)
    obtain ⟨x, hx, hxe⟩ := element?_getD_elements hm hsm hsize (hcol ▸ hc)
    simp only [Function.comp_apply, across, hye, hxe]
    exact hV e.1 e.2 y x hy hx
  rw [hvalues, toRows_eq hv, hqr, hqc]
  intro a b _ _ hab
  rw [across]
  split
  · next y x hy hx =>
    obtain ⟨r, hr, hy⟩ := (element?_eq_some hn hsizen).mp hy
    obtain ⟨c, hc, hx⟩ := (element?_eq_some hm hsize).mp hx
    rw [← hV r c y x hy hx]
    refine hzero r c fun hrc => hab ?_
    rw [hentries, Pattern.images]
    refine Array.mem_map.mpr ⟨(r,c), hrc, ?_⟩
    simp [Array.getD_eq_getD_getElem?, hr, hc]
  · rfl

end Matrix

end Fluxion
