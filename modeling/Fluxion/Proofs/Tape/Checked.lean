import Mathlib
import Fluxion.Proofs.Exact
import Fluxion.Proofs.Run
import Fluxion.Proofs.Tape.Values
import Fluxion.Tape.Store

/-!
Stored tapes. A record that is accepted makes a tape in which every slot is written before an operation
takes it as one of the operands it has, and every output entry is stored once. An operation of one operand
names a second one all the same, which is not checked but is looked up: a tape runs to its end if these
slots are there, and on none of its inputs if one of them is not.
-/
set_option autoImplicit false

namespace Fluxion.Tape

variable {K : Type}

/-- A slot is the result of an element. -/
def Written (els : List (Element K)) (slot : Nat) : Prop := ∃ el ∈ els, el.op ≠ .output ∧ el.result = slot

theorem written_append {els els' : List (Element K)} {slot : Nat} :
    Written (els ++ els') slot ↔ Written els slot ∨ Written els' slot := by
  simp [Written, or_and_right, exists_or]

theorem written_singleton {el : Element K} {slot : Nat} :
    Written [el] slot ↔ el.op ≠ .output ∧ el.result = slot := by
  simp [Written]

/-- The element stores entry `e.2` of output `e.1`. -/
def Stores (e : Nat × Nat) (el : Element K) : Bool := el.op == .output && (el.result, el.right) == e

/-- An element may come after the elements `before`. -/
structure Follows (t : Tape K) (before : List (Element K)) (el : Element K) : Prop where
  reads : ∀ slot ∈ [el.left, el.right].take el.op.arity, Written before slot
  writes : el.op ≠ .output → el.result < t.worksize
  inside : el.op = .output → el.right < t.outputSizes.getD el.result 0
  once : el.op = .output → before.countP (Stores (el.result, el.right)) = 0

/-- Elements each of which follows those before it. -/
def Ordered (t : Tape K) (els : List (Element K)) : Prop :=
  ∀ before el after, els = before ++ el :: after → t.Follows before el

theorem ordered_nil (t : Tape K) : t.Ordered [] := fun before el after h => by simp at h

theorem Ordered.concat {t : Tape K} {els : List (Element K)} {el : Element K} (h : t.Ordered els)
    (hel : t.Follows els el) : t.Ordered (els ++ [el]) := by
  intro before d after heq
  rcases List.eq_nil_or_concat after with rfl | ⟨after, e, rfl⟩
  · obtain ⟨rfl, heq⟩ := List.append_inj' heq rfl
    obtain rfl : el = d := by simpa using heq
    exact hel
  · rw [List.concat_eq_append, ← List.cons_append, ← List.append_assoc] at heq
    obtain ⟨heq, -⟩ := List.append_inj' heq rfl
    exact h before d after heq

/-- Progress after elements: what they wrote and what they stored. -/
structure Progress.After (s : Progress) (els : List (Element K)) : Prop where
  written : ∀ slot, s.written.contains slot = true ↔ Written els slot
  stored : ∀ e, s.stored.contains e = true ↔ els.countP (Stores e) ≠ 0

theorem Progress.After.start : Progress.After ⟨∅, ∅⟩ ([] : List (Element K)) :=
  ⟨by simp [Written], by simp⟩

theorem Progress.After.write {s : Progress} {els : List (Element K)} {el : Element K} (h : s.After els)
    (hel : el.op ≠ .output) : Progress.After {s with written := s.written.insert el.result} (els ++ [el]) where
  written slot := by
    simp [written_append, written_singleton, h.written, hel, or_comm]
  stored e := by
    have hstores : Stores e el = false := by simp [Stores, hel]
    simp [h.stored, hstores]

theorem Progress.After.store {s : Progress} {els : List (Element K)} {el : Element K} (h : s.After els)
    (hel : el.op = .output) :
    Progress.After {s with stored := s.stored.insert (el.result, el.right)} (els ++ [el]) where
  written slot := by
    simp [written_append, written_singleton, h.written, hel]
  stored e := by
    by_cases he : (el.result, el.right) = e
    · simp [Stores, hel, he]
    · simp [h.stored, Stores, hel, he]

theorem Progress.step_eq_some {t : Tape K} {s s' : Progress} {els : List (Element K)} {el : Element K}
    (h : s.After els) (hs : Progress.step t s el = some s') :
    t.Follows els el ∧ s'.After (els ++ [el]) := by
  have hwrite (hop : el.op ≠ .output) (hreads : ∀ slot ∈ [el.left, el.right].take el.op.arity, Written els slot)
      (hw : (if el.result < t.worksize then some {s with written := s.written.insert el.result} else none) =
        some s') : t.Follows els el ∧ s'.After (els ++ [el]) := by
    by_cases hlt : el.result < t.worksize
    · rw [if_pos hlt] at hw
      obtain rfl := Option.some.inj hw
      exact ⟨⟨hreads, fun _ => hlt, fun ho => absurd ho hop, fun ho => absurd ho hop⟩, h.write hop⟩
    · rw [if_neg hlt] at hw
      cases hw
  unfold Progress.step at hs
  extract_lets write at hs
  split at hs
  · next hop =>
    split at hs
    · next hc =>
      simp only [Bool.and_eq_true, Bool.not_eq_true', decide_eq_true_eq] at hc
      obtain ⟨⟨hread, hin⟩, honce⟩ := hc
      obtain rfl := Option.some.inj hs
      have hcount : els.countP (Stores (el.result, el.right)) = 0 := by
        have hn := h.stored (el.result, el.right)
        rw [honce] at hn
        simpa using hn
      refine ⟨⟨fun slot hslot => ?_, fun ho => absurd hop ho, fun _ => hin, fun _ => hcount⟩, h.store hop⟩
      obtain rfl : slot = el.left := by simpa [hop, Op.arity] using hslot
      exact (h.written _).mp hread
    · cases hs
  · next hop => exact hwrite (by simp [hop]) (by simp [hop, Op.arity]) hs
  · next hop => exact hwrite (by simp [hop]) (by simp [hop, Op.arity]) hs
  · next hop => exact hwrite (by simp [hop]) (by simp [hop, Op.arity]) hs
  · next hout hin hconst hparam =>
    split at hs
    · next hc =>
      refine hwrite hout (fun slot hslot => (h.written _).mp ?_) hs
      exact List.all_eq_true.mp hc slot hslot
    · cases hs

theorem Progress.foldlM_eq_some {t : Tape K} {s s' : Progress} {before els : List (Element K)}
    (h : s.After before) (ho : t.Ordered before) (hs : els.foldlM (Progress.step t) s = some s') :
    t.Ordered (before ++ els) ∧ s'.After (before ++ els) := by
  induction els generalizing s before with
  | nil =>
    obtain rfl := Option.some.inj hs
    simpa using ⟨ho, h⟩
  | cons el els ih =>
    rw [List.foldlM_cons] at hs
    obtain ⟨s₁, h₁, hs⟩ := Option.bind_eq_some_iff.mp hs
    obtain ⟨hfollows, hafter⟩ := step_eq_some h h₁
    simpa using ih hafter (ho.concat hfollows) hs

/-- What a stored tape has been checked for. -/
structure Checked (t : Tape K) : Prop where
  ordered : t.Ordered t.elements.toList
  stored : ∀ i k, k < t.outputSizes.getD i 0 → t.elements.toList.countP (Stores (i,k)) = 1
  loads : ∀ el ∈ t.elements, el.op = .input → el.right < t.inputSizes.getD el.left 0
  closed : ∀ el ∈ t.elements, el.op ≠ .parameter
  free : t.free = #[]

theorem Ordered.countP_le_one {t : Tape K} {els : List (Element K)} (h : t.Ordered els) (e : Nat × Nat) :
    els.countP (Stores e) ≤ 1 := by
  induction els using List.reverseRecOn with
  | nil => simp
  | append_singleton els el ih =>
    have hels : t.Ordered els := fun before d after heq => h before d (after ++ [el]) (by simp [heq])
    have hle := ih hels
    rw [List.countP_append, List.countP_singleton]
    split
    · next hs =>
      obtain ⟨hop, rfl⟩ : el.op = .output ∧ (el.result, el.right) = e := by simpa [Stores] using hs
      have hzero := (h els el [] rfl).once hop
      omega
    · omega

theorem isOrdered_eq_true {t : Tape K} (h : t.isOrdered = true) : t.Ordered t.elements.toList ∧
    ∀ i k, k < t.outputSizes.getD i 0 → t.elements.toList.countP (Stores (i,k)) = 1 := by
  unfold isOrdered at h
  split at h
  · cases h
  · next s hs =>
    rw [← Array.foldlM_toList] at hs
    obtain ⟨hordered, hafter⟩ := Progress.foldlM_eq_some .start (ordered_nil t) hs
    rw [List.nil_append] at hordered hafter
    refine ⟨hordered, fun i k hk => ?_⟩
    have hi : i < t.outputSizes.size := by
      by_contra hn
      simp [Array.getD_eq_getD_getElem?, hn] at hk
    have hle := Ordered.countP_le_one hordered (i,k)
    have hmem : (t.outputSizes[i], i) ∈ t.outputSizes.zipIdx :=
      Array.mk_mem_zipIdx_iff_getElem?.mpr (Array.getElem?_eq_getElem hi)
    have hall := Array.all_eq_true'.mp h _ hmem
    have hk' : k < t.outputSizes[i] := by simpa [Array.getD_eq_getD_getElem?, hi] using hk
    have hstored := List.all_eq_true.mp hall k (List.mem_range.mpr hk')
    have hne := (hafter.stored (i,k)).mp hstored
    omega

theorem Columns.op_mem {c : Columns K} {el : Element K} (h : el ∈ c.elements) : el.op ∈ c.ops := by
  obtain ⟨⟨⟨op, operands⟩, result, value⟩, hmem, rfl⟩ := Array.mem_map.mp h
  exact (Array.of_mem_zip (Array.of_mem_zip hmem).1).1

theorem checked_of_ofRecord [Number K] {r : Record K} {t : Tape K} (h : ofRecord r = .ok t) : t.Checked := by
  unfold ofRecord at h
  cases hc : Columns.ofRecord? r with
  | none =>
    rw [hc] at h
    cases h
  | some c =>
    rw [hc] at h
    obtain ⟨-, h⟩ := ok_of_guard h
    obtain ⟨hparameter, h⟩ := ok_of_guard h
    obtain ⟨hloads, h⟩ := ok_of_guard h
    obtain ⟨-, h⟩ := ok_of_guard h
    split at h
    · next hordered =>
      obtain rfl := Except.ok.inj h
      obtain ⟨hfollows, hstored⟩ := isOrdered_eq_true hordered
      refine ⟨hfollows, hstored, fun el hel hop => ?_, fun el hel hop => hparameter ?_, rfl⟩
      · simp only [Bool.not_eq_true', Bool.not_eq_false, loadsInRange] at hloads
        simpa [hop] using Array.all_eq_true'.mp hloads el hel
      · rw [Array.contains_iff_mem, ← hop]
        exact Columns.op_mem hel
    · cases h

/-- The places of an element are there, apart from a second operand that it does not have. -/
structure Within (t : Tape K) (el : Element K) : Prop where
  reads : ∀ slot ∈ [el.left, el.right].take el.op.arity, slot < t.worksize
  stores : el.op = .output → el.right < t.outputSizes.getD el.result 0
  loads : el.op = .input → el.right < t.inputSizes.getD el.left 0
  closed : el.op ≠ .parameter

theorem Checked.within {t : Tape K} (h : t.Checked) {el : Element K} (hel : el ∈ t.elements) :
    t.Within el := by
  obtain ⟨before, after, heq⟩ := List.mem_iff_append.mp (Array.mem_toList_iff.mpr hel)
  have hf := h.ordered before el after heq
  refine ⟨fun slot hslot => ?_, hf.inside, h.loads el hel, h.closed el hel⟩
  obtain ⟨d, hd, hop, rfl⟩ := hf.reads slot hslot
  obtain ⟨first, rest, rfl⟩ := List.mem_iff_append.mp hd
  exact (h.ordered first d (rest ++ el :: after) (by simp [heq])).writes hop

/-- The sizes in the middle of a replay. -/
structure Fits (t : Tape K) (s : Replay K) : Prop where
  work : s.work.size = t.worksize
  input : s.buffers.input.sizes = t.inputSizes
  output : s.buffers.output.sizes = t.outputSizes

theorem Fits.write {t : Tape K} {s : Replay K} (h : t.Fits s) (slot : Nat) (x : K) :
    t.Fits (s.write slot x) := by
  obtain ⟨hwork, hin, hout⟩ := h
  exact ⟨by simpa [Replay.write] using hwork, hin, hout⟩

theorem isSome_of_sizes {b : Block K} {ns : Array Nat} (h : b.sizes = ns) {i k : Nat}
    (hk : k < ns.getD i 0) : (b.get? i k).isSome := by
  rw [Block.get?_isSome h]
  cases hi : ns[i]? with
  | none => simp [Array.getD_eq_getD_getElem?, hi] at hk
  | some n => exact ⟨n, rfl, by simpa [Array.getD_eq_getD_getElem?, hi] using hk⟩

theorem Within.left {t : Tape K} {el : Element K} (h : t.Within el) (hop : el.op.isStructural = false) :
    el.left < t.worksize := by
  have harity : el.op.arity ≠ 0 := by
    cases ho : el.op <;> simp [ho, Op.isStructural, Op.arity] at hop ⊢
  obtain ⟨n, hn⟩ := Nat.exists_eq_succ_of_ne_zero harity
  exact h.reads _ (by simp [hn])

variable [Number K]

theorem step_within {t : Tape K} {s : Replay K} {el : Element K} (hel : t.Within el) (hs : t.Fits s)
    (hright : el.op.isStructural = false → el.right < t.worksize) :
    ∃ s', Replay.step (.numeric : Arithmetic K K Id) t false s el = pure s' ∧ t.Fits s' := by
  unfold Replay.step
  split
  · next hop =>
    obtain ⟨x, hx⟩ := Option.isSome_iff_exists.mp (isSome_of_sizes hs.input (hel.loads hop))
    rw [hx]
    exact ⟨_, rfl, hs.write _ _⟩
  · next hop =>
    have hleft : el.left < s.work.size := by
      rw [hs.work]
      exact hel.reads _ (by simp [hop, Op.arity])
    obtain ⟨y, hy⟩ := Option.isSome_iff_exists.mp (isSome_of_sizes hs.output (hel.stores hop))
    rw [hy, Array.getElem?_eq_getElem hleft]
    exact ⟨_, rfl, hs.work, hs.input, (Block.sizes_set _ _ _ _).trans hs.output⟩
  · exact ⟨_, rfl, hs.write _ _⟩
  · next hop => exact absurd hop hel.closed
  · next hin hout hconst hparam =>
    have hop : el.op.isStructural = false := by
      cases ho : el.op <;> simp_all [Op.isStructural]
    have hleft : el.left < s.work.size := by
      rw [hs.work]
      exact hel.left hop
    have hright : el.right < s.work.size := by
      rw [hs.work]
      exact hright hop
    rw [Array.getElem?_eq_getElem hleft, Array.getElem?_eq_getElem hright]
    exact ⟨_, rfl, hs.write _ _⟩

theorem step_outside {t : Tape K} {s : Replay K} {el : Element K} (hs : t.Fits s)
    (hop : el.op.isStructural = false) (hright : t.worksize ≤ el.right) :
    Replay.step (.numeric : Arithmetic K K Id) t false s el = s.stop (.violation .slotOutside) := by
  have hnone : s.work[el.right]? = none := by
    rw [Array.getElem?_eq_none_iff, hs.work]
    exact hright
  unfold Replay.step
  split
  · next ho => simp [ho, Op.isStructural] at hop
  · next ho => simp [ho, Op.isStructural] at hop
  · next ho => simp [ho, Op.isStructural] at hop
  · next ho => simp [ho, Op.isStructural] at hop
  · rw [hnone]
    cases s.work[el.left]? <;> rfl

/-- The slots that an operation looks up beside its first one. -/
def SecondSlots (t : Tape K) (els : List (Element K)) : Prop :=
  ∀ el ∈ els, el.op.isStructural = false → el.right < t.worksize

theorem foldlM_within {t : Tape K} {els : List (Element K)} (hels : ∀ el ∈ els, t.Within el)
    (hright : t.SecondSlots els) {s : Replay K} (hs : t.Fits s) :
    ∃ s', els.foldlM (Replay.step (.numeric : Arithmetic K K Id) t false) s = pure s' ∧ t.Fits s' := by
  induction els generalizing s with
  | nil => exact ⟨s, rfl, hs⟩
  | cons el els ih =>
    obtain ⟨s₁, hstep, hs₁⟩ := step_within (hels el (by simp)) hs (hright el (by simp))
    obtain ⟨s₂, hrun, hs₂⟩ := ih (fun d hd => hels d (by simp [hd])) (fun d hd => hright d (by simp [hd])) hs₁
    refine ⟨s₂, ?_, hs₂⟩
    rw [List.foldlM_cons, hstep, pure_bind, hrun]

theorem foldlM_outside {t : Tape K} {els : List (Element K)} (hels : ∀ el ∈ els, t.Within el)
    (hright : ¬t.SecondSlots els) {s : Replay K} (hs : t.Fits s) :
    ∃ b, els.foldlM (Replay.step (.numeric : Arithmetic K K Id) t false) s =
      throw ⟨.violation .slotOutside, b⟩ := by
  induction els generalizing s with
  | nil => exact absurd (fun el hel => by simp at hel) hright
  | cons el els ih =>
    by_cases hel : el.op.isStructural = false → el.right < t.worksize
    · have hrest : ¬t.SecondSlots els := fun h => hright (by simpa [SecondSlots] using ⟨hel, h⟩)
      obtain ⟨s₁, hstep, hs₁⟩ := step_within (hels el (by simp)) hs hel
      obtain ⟨b, hrun⟩ := ih (fun d hd => hels d (by simp [hd])) hrest hs₁
      refine ⟨b, ?_⟩
      rw [List.foldlM_cons, hstep, pure_bind, hrun]
    · obtain ⟨hop, hout⟩ := Classical.not_imp.mp hel
      refine ⟨s.buffers, ?_⟩
      rw [List.foldlM_cons, step_outside hs hop (Nat.le_of_not_lt hout)]
      rfl

/-- A record that is accepted makes a tape that has been checked. At inputs of the right sizes it answers
an entry for every output entry if every operation finds its second slot, and ends with a fault if one
does not. -/
theorem ofRecord_evalNumeric {r : Record K} {t : Tape K} (h : ofRecord r = .ok t) {x : Block K}
    (hx : x.sizes = t.inputSizes) : t.Checked ∧
    (t.SecondSlots t.elements.toList → ∃ y, t.evalNumeric x = .ok y ∧ y.sizes = t.outputSizes) ∧
    (¬t.SecondSlots t.elements.toList → t.evalNumeric x = .error (.violation .slotOutside)) := by
  have hc := checked_of_ofRecord h
  have hels : ∀ el ∈ t.elements.toList, t.Within el := fun el hel => hc.within (Array.mem_toList_iff.mp hel)
  generalize hb : ({Buffers.filled t.inputSizes t.outputSizes 0 0 (Number.zero : K) with input := x} :
    Buffers K) = b
  have hstart : t.Fits ⟨.replicate t.worksize (Number.zero : K), #[], b⟩ := by
    subst hb
    exact ⟨Array.size_replicate, hx, Block.sizes_filled _ _⟩
  have hevaluate : t.evaluate (.numeric : Arithmetic K K Id) b 0 0 = (do
      let s ← t.elements.toList.foldlM (Replay.step (.numeric : Arithmetic K K Id) t false)
        ⟨.replicate t.worksize (Number.zero : K), #[], b⟩
      return s.buffers) := by
    rw [Array.foldlM_toList]
    rfl
  refine ⟨hc, fun hright => ?_, fun hright => ?_⟩
  · obtain ⟨s, hrun, hs⟩ := foldlM_within hels hright hstart
    rw [evalNumeric_eq hc.free hx, hb, hevaluate, hrun]
    exact ⟨s.buffers.output, rfl, hs.output⟩
  · obtain ⟨b', hrun⟩ := foldlM_outside hels hright hstart
    rw [evalNumeric_eq hc.free hx, hb, hevaluate, hrun]
    rfl

/-- The stored form of a square of one input, with `second` for the slot of the operand that it does not
have. -/
def squareRecord (second : Int) : Record ℚ :=
  .fields [
    ("opcodes", .list [.text "Input", .text "Sq", .text "Output"]),
    ("arg_indices", .list [.list [.integer 0, .integer 0], .list [.integer 0, .integer second],
      .list [.integer 1, .integer 0]]),
    ("results", .list [.integer 0, .integer 1, .integer 0]),
    ("constants", .list [.integer 0, .integer 0, .integer 0]),
    ("worksize", .integer 2),
    ("input_nnz", .list [.integer 1]),
    ("output_nnz", .list [.integer 1])]

def squareTape (second : Nat) : Tape ℚ :=
  ⟨#[⟨.input, 0, 0, 0, 0⟩, ⟨.sq, 1, 0, second, 0⟩, ⟨.output, 0, 1, 0, 0⟩], 2, #[1], #[1], #[]⟩

/-- The square of three, whose second slot is the first one again. -/
theorem ofRecord_evalNumeric_square : ofRecord (squareRecord 0) = .ok (squareTape 0) ∧
    Block.sizes (#[#[3]] : Block ℚ) = (squareTape 0).inputSizes ∧ (squareTape 0).SecondSlots (squareTape 0).elements.toList ∧
    ∃ y, (squareTape 0).evalNumeric #[#[3]] = .ok y ∧ y.sizes = #[1] := by
  have hr : ofRecord (squareRecord 0) = .ok (squareTape 0) := by cbv
  have hx : Block.sizes (#[#[3]] : Block ℚ) = (squareTape 0).inputSizes := by
    simp [Block.sizes, squareTape]
  have hslots : (squareTape 0).SecondSlots (squareTape 0).elements.toList := by
    simp [SecondSlots, squareTape]
  exact ⟨hr, hx, hslots, (ofRecord_evalNumeric hr hx).2.1 hslots⟩

/-- With a second slot outside of the two work slots the record is accepted all the same. -/
theorem evalNumeric_second_outside : ofRecord (squareRecord 7) = .ok (squareTape 7) ∧
    Block.sizes (#[#[3]] : Block ℚ) = (squareTape 7).inputSizes ∧
    (squareTape 7).evalNumeric #[#[3]] = .error (.violation .slotOutside) :=
  ⟨by cbv, by simp [Block.sizes, squareTape], by cbv⟩

end Fluxion.Tape
