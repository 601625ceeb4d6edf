import Mathlib
import Fluxion.Proofs.Tape.Values

/-!
How many work slots a tape needs. A value is live while an element is to come that reads it. With live variables a
tape has as many slots as there are values live at one time, and on fewer slots some value would be written over
before it is read.
-/
set_option autoImplicit false

namespace Fluxion.Tape

variable {K : Type}

open Slots (isValue reads)

/-- The slot that element `p` writes. -/
def target (els : List (Element K)) (p : Nat) : Nat := (els[p]?.map Element.result).getD 0

/-- The slots that element `r` reads. -/
def sources (els : List (Element K)) (r : Nat) : List Nat := (els[r]?.map reads).getD []

/-- Element `r` reads what element `q` wrote: it reads the slot, which no element between them writes. -/
def HandsTo (els : List (Element K)) (q r : Nat) : Prop :=
  q < r ∧ isValue els q ∧ target els q ∈ sources els r ∧
    ∀ i < r, q < i → isValue els i → target els i ≠ target els q

instance (els : List (Element K)) (q r : Nat) : Decidable (HandsTo els q r) :=
  inferInstanceAs (Decidable (_ ∧ _))

/-- Elements that write slots: all but the output stores. -/
def values (els : List (Element K)) : Finset Nat := (Finset.range els.length).filter (isValue els ·)

/-- Values from before element `i` that an element after it reads. -/
def liveAcross (els : List (Element K)) (i : Nat) : Finset Nat :=
  (Finset.range i).filter fun q => ∃ r < els.length, i < r ∧ HandsTo els q r

/-- The most values that are live at one time: an element's own and those that are live across it. -/
def peak (els : List (Element K)) : Nat := (values els).sup fun i => (liveAcross els i).card + 1

/-- The slots that are written. -/
def slotsOf (els : List (Element K)) : Finset Nat := (values els).image (target els)

/-- The same values on other slots: every element reads what it read before. -/
structure Reassigns (els els' : List (Element K)) : Prop where
  value : ∀ p, isValue els' p = isValue els p
  hands : ∀ q r, HandsTo els q r → HandsTo els' q r

theorem mem_values {els : List (Element K)} {p : Nat} : p ∈ values els ↔ isValue els p := by
  rw [values, Finset.mem_filter, Finset.mem_range, and_iff_right_iff_imp]
  exact Slots.lt_of_isValue

theorem lt_of_handsTo {els : List (Element K)} {q r : Nat} (h : HandsTo els q r) : r < els.length := by
  by_contra hr
  have hread := h.2.2.1
  rw [sources, List.getElem?_eq_none (Nat.le_of_not_lt hr)] at hread
  cases hread

theorem mem_liveAcross {els : List (Element K)} {i q : Nat} :
    q ∈ liveAcross els i ↔ q < i ∧ ∃ r, i < r ∧ HandsTo els q r := by
  rw [liveAcross, Finset.mem_filter, Finset.mem_range]
  refine and_congr_right fun _ => exists_congr fun r => ?_
  exact ⟨fun h => h.2, fun h => ⟨lt_of_handsTo h.2, h⟩⟩

section Bound

variable {els els' : List (Element K)}

theorem Reassigns.refl (els : List (Element K)) : Reassigns els els := ⟨fun _ => rfl, fun _ _ h => h⟩

/-- A value that is read after element `i` has another slot than any value that comes after it, up to `i`. -/
theorem Reassigns.target_ne (h : Reassigns els els') {q j i r : Nat} (hqj : q < j) (hji : j ≤ i) (hir : i < r)
    (hj : isValue els j) (hq : HandsTo els q r) : target els' j ≠ target els' q := by
  obtain ⟨-, -, -, hkept⟩ := h.hands q r hq
  exact hkept j (Nat.lt_of_le_of_lt hji hir) hqj (by rw [h.value, hj])

/-- What is live at one time stands in as many slots. -/
theorem Reassigns.peak_le (h : Reassigns els els') : peak els ≤ (slotsOf els').card := by
  refine Finset.sup_le fun i hi => ?_
  have hvalue := mem_values.mp hi
  have hfresh : i ∉ liveAcross els i := fun hmem => Nat.lt_irrefl i (mem_liveAcross.mp hmem).1
  have hlive : ∀ q ∈ insert i (liveAcross els i), isValue els q := by
    intro q hq
    rcases Finset.mem_insert.mp hq with rfl | hq
    · exact hvalue
    · obtain ⟨-, r, -, hhands⟩ := mem_liveAcross.mp hq
      exact hhands.2.1
  -- Of two live values the earlier one is read after `i`, whether or not the later one is element `i` itself.
  have hne : ∀ q ∈ insert i (liveAcross els i), ∀ j ∈ insert i (liveAcross els i), q < j →
      target els' j ≠ target els' q := by
    intro q hq j hj hqj
    have hji : j ≤ i := by
      rcases Finset.mem_insert.mp hj with rfl | hj
      · exact Nat.le_refl _
      · exact Nat.le_of_lt (mem_liveAcross.mp hj).1
    rcases Finset.mem_insert.mp hq with rfl | hq
    · omega
    · obtain ⟨-, r, hir, hhands⟩ := mem_liveAcross.mp hq
      exact h.target_ne hqj hji hir (hlive j hj) hhands
  rw [← Finset.card_insert_of_notMem hfresh]
  refine Finset.card_le_card_of_injOn (target els') (fun q hq => ?_) fun q hq j hj he => ?_
  · exact Finset.mem_image_of_mem _ (mem_values.mpr ((h.value q).trans (hlive q hq)))
  · rcases Nat.lt_trichotomy q j with hlt | heq | hlt
    · exact absurd he.symm (hne q hq j hj hlt)
    · exact heq
    · exact absurd he (hne j hj q hq hlt)

end Bound

namespace Slots

theorem op_relabel (slot : Nat → Nat) (el : Element K) : (relabel slot el).op = el.op := by
  rw [relabel]
  split
  · rfl
  · split <;> rfl

theorem result_relabel (slot : Nat → Nat) {el : Element K} (h : el.op ≠ .output) :
    (relabel slot el).result = slot el.result := by
  rw [relabel, if_neg h]
  split <;> rfl

theorem reads_relabel (slot : Nat → Nat) (el : Element K) : reads (relabel slot el) = (reads el).map slot := by
  rw [reads, op_relabel, reads, relabel]
  split
  · next h => simp [h, Op.arity]
  · split
    · next h => simp [h]
    · next h => simp [h]
    · simp [List.map_take]

theorem isValue_map_relabel (slot : Nat → Nat) (els : List (Element K)) (p : Nat) :
    isValue (els.map (relabel slot)) p = isValue els p := by
  rw [isValue, isValue, List.getElem?_map]
  cases els[p]? <;> simp [op_relabel]

theorem exists_of_isValue {els : List (Element K)} {p : Nat} (h : isValue els p) :
    ∃ el, els[p]? = some el ∧ el.op ≠ .output := by
  simpa [isValue, Option.any_eq_true] using h

theorem target_map_relabel (slot : Nat → Nat) {els : List (Element K)} (h : Positional els) {p : Nat}
    (hp : isValue els p) : target (els.map (relabel slot)) p = slot p := by
  obtain ⟨el, hel, hop⟩ := exists_of_isValue hp
  simp [target, hel, result_relabel slot hop, h.result p el hel hop]

theorem sources_map_relabel (slot : Nat → Nat) (els : List (Element K)) (r : Nat) :
    sources (els.map (relabel slot)) r = (sources els r).map slot := by
  rw [sources, sources, List.getElem?_map]
  cases els[r]? <;> simp [reads_relabel]

theorem mem_sources {els : List (Element K)} {q r : Nat} :
    q ∈ sources els r ↔ ∃ el, els[r]? = some el ∧ q ∈ reads el := by
  rw [sources]
  cases els[r]? <;> simp

theorem mem_readings_drop {els : List (Element K)} {n q : Nat} :
    q ∈ readings (els.drop n) ↔ ∃ r, n ≤ r ∧ q ∈ sources els r := by
  rw [readings, List.mem_flatMap]
  constructor
  · rintro ⟨el, hel, hq⟩
    obtain ⟨k, hk⟩ := List.mem_iff_getElem?.mp hel
    rw [List.getElem?_drop] at hk
    exact ⟨n+k, Nat.le_add_right n k, mem_sources.mpr ⟨el, hk, hq⟩⟩
  · rintro ⟨r, hr, hq⟩
    obtain ⟨el, hel, hq⟩ := mem_sources.mp hq
    refine ⟨el, List.mem_iff_getElem?.mpr ⟨r-n, ?_⟩, hq⟩
    rwa [List.getElem?_drop, Nat.add_sub_cancel' hr]

theorem Positional.of_source {els : List (Element K)} (h : Positional els) {q r : Nat} (hq : q ∈ sources els r) :
    q < r ∧ isValue els q := by
  obtain ⟨el, hel, hq⟩ := mem_sources.mp hq
  exact h.reads r el hel q hq

section Allocated

variable {els done : List (Element K)} {n : Nat} {slot : Nat → Nat}

/-- On slots, elements read the values that they read by position. -/
theorem Allocation.handsTo_iff (ha : Allocation els done n slot) (h : Positional els) {q r : Nat} :
    HandsTo done q r ↔ q ∈ sources els r := by
  have hne {q i r : Nat} (hqi : q < i) (hir : i < r) (hi : isValue els i) (hq : q ∈ sources els r) :
      slot q ≠ slot i := by
    obtain ⟨el, hel, hq⟩ := mem_sources.mp hq
    exact ha.apart q i r el hqi hir hi hel hq
  rw [ha.elements, HandsTo, isValue_map_relabel, sources_map_relabel]
  constructor
  · rintro ⟨hqr, hv, hread, hkept⟩
    rw [target_map_relabel slot h hv, List.mem_map] at hread
    obtain ⟨p, hp, hslot⟩ := hread
    obtain ⟨hpr, hpv⟩ := h.of_source hp
    -- A value that is read keeps its slot to itself, and so does `q`.
    rcases Nat.lt_trichotomy p q with hlt | rfl | hlt
    · exact absurd hslot (hne hlt hqr hv hp)
    · exact hp
    · have hkept := hkept p hpr hlt (by rwa [isValue_map_relabel])
      rw [target_map_relabel slot h hpv, target_map_relabel slot h hv] at hkept
      exact absurd hslot hkept
  · intro hq
    obtain ⟨hqr, hv⟩ := h.of_source hq
    rw [target_map_relabel slot h hv]
    refine ⟨hqr, hv, List.mem_map_of_mem hq, fun i hir hqi hi => ?_⟩
    rw [isValue_map_relabel] at hi
    rw [target_map_relabel slot h hi]
    exact (hne hqi hir hi hq).symm

/-- The values that keep their slots at an element are those that are live across it. -/
theorem Allocation.card_liveAcross (ha : Allocation els done n slot) (h : Positional els) {i : Nat}
    (hi : i ≤ els.length) :
    (liveAcross done i).card = (held true (els.take i) (readings (els.drop (i+1)))).length := by
  rw [← List.toFinset_card_of_nodup (nodup_held _ _ _)]
  congr 1
  ext q
  simp only [mem_liveAcross, ha.handsTo_iff h, List.mem_toFinset, mem_held, List.length_take, Nat.min_eq_left hi,
    mem_readings_drop, Nat.succ_le_iff, forall_const]
  refine and_congr_right fun hq => ⟨?_, fun h => h.2⟩
  rintro ⟨r, hir, hread⟩
  have hsplit := isValue_append_left (m := els.drop i) (l := els.take i) (q := q) (by simpa [Nat.min_eq_left hi] using hq)
  rw [List.take_append_drop] at hsplit
  exact ⟨hsplit ▸ (h.of_source hread).2, r, hir, hread⟩

theorem Allocation.values_eq (ha : Allocation els done n slot) : values done = values els := by
  ext p
  rw [mem_values, mem_values, ha.elements, isValue_map_relabel]

theorem Allocation.peak_eq (ha : Allocation els done n slot) (h : Positional els) :
    peak done = (values els).sup fun i => (held true (els.take i) (readings (els.drop (i+1)))).length + 1 := by
  rw [peak, ha.values_eq]
  refine Finset.sup_congr rfl fun i hi => ?_
  rw [ha.card_liveAcross h (Nat.le_of_lt (lt_of_isValue (mem_values.mp hi)))]

theorem Allocation.slotsOf_subset (ha : Allocation els done n slot) (h : Positional els) :
    slotsOf done ⊆ Finset.range n := by
  intro k hk
  obtain ⟨p, hp, rfl⟩ := Finset.mem_image.mp hk
  rw [ha.values_eq] at hp
  have hv := mem_values.mp hp
  rw [ha.elements, target_map_relabel slot h hv]
  exact Finset.mem_range.mpr (ha.bound p hv)

end Allocated

/-- A slot is added where none is free, which is where all of them are held. -/
theorem Balanced.count_take {live : Bool} {n : Nat} {l : List (Element K)} {rest : List Nat} {s : Slots}
    (h : Balanced live n l rest s) (p : Nat) :
    (s.take live p).2.count = max s.count ((held live l rest).length + 1) := by
  have hlength := h.perm.length_eq
  rw [List.length_append, List.length_map, List.length_range] at hlength
  obtain ⟨ha, hc⟩ | ⟨ha, -, -, hc⟩ := take_cases s live p
  all_goals
    rw [ha] at hlength
    simp only [List.length_cons, List.length_nil] at hlength
    omega

theorem values_snoc_output {l : List (Element K)} {el : Element K} (h : el.op = .output) :
    values (l ++ [el]) = values l := by
  ext p
  rw [mem_values, mem_values]
  exact ⟨isValue_snoc_output h, fun hp => by rwa [isValue_append_left (lt_of_isValue hp)]⟩

theorem values_snoc {l : List (Element K)} {el : Element K} (h : el.op ≠ .output) :
    values (l ++ [el]) = insert l.length (values l) := by
  ext p
  rw [Finset.mem_insert, mem_values, mem_values]
  by_cases hp : p < l.length
  · rw [isValue_append_left hp, or_iff_right (Nat.ne_of_lt hp)]
  · have hnot : ¬isValue l p := fun hv => hp (lt_of_isValue hv)
    rw [or_iff_left hnot]
    refine ⟨fun hv => ?_, fun hv => by simp [hv, isValue_append_self, h]⟩
    have hlt := lt_of_isValue hv
    rw [List.length_append, List.length_singleton] at hlt
    omega

theorem assign_snd {el : Element K} (h : el.op ≠ .output) (live : Bool) (s : Slots) (p : Nat) :
    (s.assign live el p).2 = s.next live el p := by
  simp only [assign, h, if_false, next]
  rcases el.op.arity with _ | _ | _ <;> rfl

/-- Element for element, the slots are as many as were held at one time so far. -/
theorem count_fill {live : Bool} {els : Array (Element K)} (h : Positional els.toList) (l rest : List (Element K))
    (he : els.toList = l ++ rest) : (fill live els l).2.count =
      (values l).sup fun i => (held live (els.toList.take i) (readings (els.toList.drop (i+1)))).length + 1 := by
  induction l using List.reverseRecOn generalizing rest with
  | nil => rfl
  | append_singleton l el ih =>
    have he' : els.toList = l ++ el :: rest := by simpa using he
    have hcount := ih (el :: rest) he'
    rw [fill_snoc]
    by_cases hv : el.op = .output
    · rw [values_snoc_output hv, assign_output hv, count_releases, hcount]
    · have htake : els.toList.take l.length = l := by simp [he']
      have hdrop : els.toList.drop (l.length+1) = rest := by simp [he']
      have hbalanced := ((filled live h l (el :: rest) he').released h he').count_take l.length
      rw [values_snoc hv, Finset.sup_insert, htake, hdrop, ← hcount, assign_snd hv, next, hbalanced, count_releases]
      exact Nat.max_comm _ _

theorem card_values (els : List (Element K)) : (values els).card = els.countP (·.op != .output) := by
  induction els using List.reverseRecOn with
  | nil => rfl
  | append_singleton l el ih =>
    rw [List.countP_append, ← ih]
    by_cases hv : el.op = .output
    · rw [values_snoc_output hv]
      simp [hv]
    · have hfresh : l.length ∉ values l := fun h => Nat.lt_irrefl _ (lt_of_isValue (mem_values.mp h))
      rw [values_snoc hv, Finset.card_insert_of_notMem hfresh]
      simp [hv]

theorem length_held_false (els : List (Element K)) (rest : List Nat) :
    (held false els rest).length = (values els).card := by
  rw [← List.toFinset_card_of_nodup (nodup_held _ _ _)]
  congr 1
  ext p
  rw [List.mem_toFinset, mem_held, mem_values]
  exact ⟨fun h => h.2.1, fun h => ⟨lt_of_isValue h, h, by simp⟩⟩

section Count

variable {els : Array (Element K)}

theorem count_allocate_true (h : Positional els.toList) :
    (allocate true els).2 = peak (allocate true els).1.toList := by
  obtain ⟨slot, ha⟩ := allocate_allocation true h
  rw [ha.peak_eq h, allocate_eq, count_fill h els.toList [] (by simp)]

theorem count_allocate_false (h : Positional els.toList) :
    (allocate false els).2 = (values els.toList).card := by
  have hlength := (filled false h els.toList [] (by simp)).balanced.perm.length_eq
  rw [List.length_append, List.length_map, List.length_range, length_held_false] at hlength
  rw [allocate_eq]
  simpa [available] using hlength.symm

end Count

end Slots

/-- Elements do what the nodes of an order ask for, one each: where a node reads an expression, its element reads the
value of the element of that expression. -/
structure Serves (els : List (Element K)) (l : List (Node K)) : Prop where
  length : els.length = l.length
  value : ∀ p, isValue els p ↔ ∃ e, l[p]? = some (.expr e)
  hands : ∀ q r, HandsTo els q r ↔ ∃ e n, l[q]? = some (.expr e) ∧ l[r]? = some n ∧ e.id ∈ n.reads

variable [Number K] {inputs outputs : Array (Matrix (Expr K))} {live : Bool} {sorting : Sorting} {t : Tape K}

theorem Laid.serves {places : Std.HashMap Nat (Nat × Nat)} {l : List (Node K)} {pos : Nat → Nat}
    {els : Array (Element K)} (hd : Laid inputs outputs live places l pos els t)
    (h : Expr.Coherent (Matrix.entries outputs)) : Serves t.elements.toList l := by
  obtain ⟨slot, ha⟩ := Slots.allocate_allocation live hd.positional
  have hproper := hd.complete.proper h
  rw [hd.elements]
  refine ⟨?_, fun p => ?_, fun q r => ?_⟩
  · rw [ha.elements, List.length_map, hd.layout, Tape.layout, List.length_mapIdx]
  · rw [← mem_values, ha.values_eq, mem_values, hd.layout, isValue_layout places pos hproper]
  · rw [ha.handsTo_iff hd.positional, Slots.mem_sources, hd.layout, layout_getElem?]
    constructor
    · rintro ⟨el, hel, hq⟩
      obtain ⟨n, hn, rfl⟩ := Option.map_eq_some_iff.mp hel
      rw [reads_elementAt _ _ _ (hproper n (List.mem_of_getElem? hn))] at hq
      obtain ⟨id, hid, rfl⟩ := List.mem_map.mp hq
      obtain ⟨e, he, rfl⟩ := hd.complete.placed.reads hn hid
      obtain ⟨p, hp⟩ := List.mem_iff_getElem?.mp (List.mem_of_mem_take (Order.mem_exprs.mp he))
      exact ⟨e, n, by rwa [hd.position p e hp], hn, hid⟩
    · rintro ⟨e, n, he, hn, hid⟩
      refine ⟨_, Option.map_eq_some_iff.mpr ⟨n, hn, rfl⟩, ?_⟩
      rw [reads_elementAt _ _ _ (hproper n (List.mem_of_getElem? hn)), ← hd.position q e he]
      exact List.mem_map_of_mem hid

/-- With live variables the work array of a tape has as many slots as values are live at one time, all of them are used,
and the same elements in the same order have as many on any slots on which each reads what it should. Without live
variables it has one slot for each element that is no output store. -/
theorem worksize_eq_peak (h : Expr.Coherent (Matrix.entries outputs))
    (ht : ofGraph inputs outputs live sorting = .ok t) :
    Serves t.elements.toList (Order.sorted outputs sorting).toList ∧
      (live = true → t.worksize = peak t.elements.toList ∧
        slotsOf t.elements.toList = Finset.range t.worksize ∧
        ∀ els', Reassigns t.elements.toList els' → t.worksize ≤ (slotsOf els').card) ∧
      (live = false → t.worksize = t.elements.toList.countP (·.op != .output)) := by
  obtain ⟨places, pos, els, hd⟩ := ofGraph_laid h ht
  obtain ⟨slot, ha⟩ := Slots.allocate_allocation live hd.positional
  refine ⟨hd.serves h, ?_, ?_⟩
  · rintro rfl
    have hpeak : t.worksize = peak t.elements.toList := by
      rw [hd.worksize, hd.elements, Slots.count_allocate_true hd.positional]
    refine ⟨hpeak, ?_, fun els' h' => hpeak ▸ h'.peak_le⟩
    rw [hd.worksize, hd.elements]
    refine Finset.eq_of_subset_of_card_le (ha.slotsOf_subset hd.positional) ?_
    rw [Finset.card_range, ← hd.worksize, hpeak, hd.elements]
    exact (Reassigns.refl _).peak_le
  · rintro rfl
    rw [← Slots.card_values, hd.worksize, hd.elements, ha.values_eq, Slots.count_allocate_false hd.positional]

/-- The sum takes the slot of the first symbol, once the product has taken that of the second one. -/
theorem worksize_eq_peak_sample : Expr.Coherent (Matrix.entries sampleOutputs) ∧
    ∃ t, ofGraph sampleInputs sampleOutputs true .depthFirst = .ok t ∧ t.worksize = 2 ∧ peak t.elements.toList = 2 ∧
      ∀ els', Reassigns t.elements.toList els' → 2 ≤ (slotsOf els').card := by
  have hsize : (ofGraph sampleInputs sampleOutputs true .depthFirst).map (·.worksize) = .ok 2 := by cbv
  obtain ⟨t, ht⟩ := exists_ofGraph sample_closed.distinct sampleOutputs true .depthFirst
  rw [ht] at hsize
  have hsize : t.worksize = 2 := Except.ok.inj hsize
  obtain ⟨-, hlive, -⟩ := worksize_eq_peak sample_closed.coherent ht
  obtain ⟨hpeak, -, hleast⟩ := hlive rfl
  rw [hsize] at hpeak hleast
  exact ⟨sample_closed.coherent, t, ht, hsize, hpeak.symm, hleast⟩

end Fluxion.Tape
