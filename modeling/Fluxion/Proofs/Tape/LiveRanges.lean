import Mathlib.Data.List.Induction
import Mathlib.Data.List.Perm.Basic
import Mathlib.Data.List.Nodup
import Fluxion.Proofs.Grouping
import Fluxion.Tape.Slots

/-!
Live ranges. A value lives from the element that makes it to the last element that reads it. However slots
are used again, no other value takes the slot of a value that lives.
-/
set_option autoImplicit false

namespace Fluxion.Tape.Slots

variable {K : Type}

/-- Positions that the elements of a list read, as often as they are read. -/
def readings (els : List (Element K)) : List Nat := els.flatMap reads

@[simp] theorem readings_cons (el : Element K) (els : List (Element K)) :
    readings (el :: els) = reads el ++ readings els := rfl

/-- Whether an element makes a value. -/
def isValue (els : List (Element K)) (p : Nat) : Bool := els[p]?.any (·.op != .output)

/-- Elements that refer to each other by positions: they read earlier values, and every value is read. -/
structure Positional (els : List (Element K)) : Prop where
  result : ∀ (p : Nat) (el : Element K), els[p]? = some el → el.op ≠ .output → el.result = p
  reads : ∀ (p : Nat) (el : Element K), els[p]? = some el → ∀ q ∈ reads el, q < p ∧ isValue els q
  used : ∀ p, isValue els p → ∃ (r : Nat) (el : Element K), p < r ∧ els[r]? = some el ∧ p ∈ Slots.reads el

/-- The element with slots for positions. -/
def relabel (slot : Nat → Nat) (el : Element K) : Element K :=
  if el.op = .output then {el with left := slot el.left}
  else match el.op.arity with
    | 0 => {el with result := slot el.result}
    | 1 => {el with result := slot el.result, left := slot el.left, right := slot el.left}
    | _ => {el with result := slot el.result, left := slot el.left, right := slot el.right}

/-- The slot of a position. -/
def slotOf (s : Slots) (p : Nat) : Nat := s.slot.getD p 0

/-- Slots that may be taken again. -/
def available (live : Bool) (s : Slots) : List Nat := if live then s.unused else []

/-- Values among the elements so far that keep their slot, given the readings to come. -/
def held (live : Bool) (l : List (Element K)) (rest : List Nat) : List Nat :=
  (List.range l.length).filter fun q => isValue l q && (!live || rest.contains q)

theorem mem_held {live : Bool} {l : List (Element K)} {rest : List Nat} {q : Nat} :
    q ∈ held live l rest ↔ q < l.length ∧ isValue l q ∧ (live → q ∈ rest) := by
  cases live <;> simp [held]

theorem nodup_held (live : Bool) (l : List (Element K)) (rest : List Nat) : (held live l rest).Nodup :=
  List.nodup_range.filter _

/-- The invariant: readings to come are counted, and the slots in use are those that may be taken again
and those of the values held, each once. -/
structure Balanced (live : Bool) (n : Nat) (l : List (Element K)) (rest : List Nat) (s : Slots) :
    Prop where
  uses_size : s.uses.size = n
  slot_size : s.slot.size = n
  uses : ∀ q, s.uses.getD q 0 = rest.count q
  perm : (available live s ++ (held live l rest).map s.slotOf).Perm (List.range s.count)

theorem isValue_append_left {l m : List (Element K)} {q : Nat} (h : q < l.length) :
    isValue (l ++ m) q = isValue l q := by
  simp [isValue, List.getElem?_append_left h]

theorem isValue_append_self (l : List (Element K)) (el : Element K) :
    isValue (l ++ [el]) l.length = (el.op != .output) := by
  simp [isValue]

theorem lt_of_isValue {l : List (Element K)} {q : Nat} (h : isValue l q) : q < l.length := by
  by_cases hq : q < l.length
  · exact hq
  · simp [isValue, List.getElem?_eq_none (Nat.le_of_not_lt hq)] at h

/-- A value whose last reading is done is held no longer. -/
theorem held_cons_perm {l : List (Element K)} {rest : List Nat} {q : Nat} (hq : isValue l q)
    (hn : q ∉ rest) : (held true l (q :: rest)).Perm (q :: held true l rest) := by
  have hmem : q ∈ held true l (q :: rest) := mem_held.mpr ⟨lt_of_isValue hq, hq, by simp⟩
  refine (List.perm_cons_erase hmem).trans (.cons q (.of_eq ?_))
  rw [(nodup_held _ _ _).erase_eq_filter, held, held, List.filter_filter]
  refine List.filter_congr fun r _ => ?_
  by_cases h : r = q
  · subst h
    simp [hn]
  · simp [h]

theorem held_cons_of_mem {live : Bool} {l : List (Element K)} {rest : List Nat} {q : Nat}
    (h : live = true → q ∈ rest) : held live l (q :: rest) = held live l rest := by
  refine List.filter_congr fun r _ => ?_
  by_cases hr : r = q
  · subst hr
    cases live <;> simp_all
  · simp [hr]

theorem release_unused (s : Slots) (q : Nat) : (s.release q).unused =
    if s.uses.getD q 0 - 1 = 0 then s.slotOf q :: s.unused else s.unused := rfl

theorem Balanced.release {live : Bool} {n : Nat} {l : List (Element K)} {rest : List Nat} {s : Slots}
    {q : Nat} (h : Balanced live n l (q :: rest) s) (hn : l.length ≤ n) (hq : isValue l q) :
    Balanced live n l rest (s.release q) := by
  have hlt : q < n := Nat.lt_of_lt_of_le (lt_of_isValue hq) hn
  have hcount : s.uses.getD q 0 - 1 = rest.count q := by rw [h.uses]; simp
  refine ⟨by simp [Slots.release, h.uses_size], h.slot_size, fun r => ?_, ?_⟩
  · simp only [Slots.release, hcount]
    by_cases hr : q = r
    · subst hr
      simp [Array.getD_eq_getD_getElem?, h.uses_size, hlt]
    · have hu := h.uses r
      rw [List.count_cons_of_ne hr] at hu
      rw [← hu]
      simp [Array.getD_eq_getD_getElem?, Array.getElem?_setIfInBounds_ne hr]
  · have hslot : (s.release q).slotOf = s.slotOf := rfl
    have hcnt : (s.release q).count = s.count := rfl
    have hp := h.perm
    rw [hslot, hcnt]
    -- A last reading frees the slot; any other leaves the value held.
    by_cases hlive : live = true ∧ q ∉ rest
    · obtain ⟨rfl, hnot⟩ := hlive
      have hun : available true (s.release q) = s.slotOf q :: s.unused := by
        rw [available, if_pos rfl, release_unused, hcount, if_pos (List.count_eq_zero.mpr hnot)]
      rw [hun]
      refine .trans ?_ hp
      have hh := ((held_cons_perm hq hnot).map s.slotOf).symm
      simpa [available] using (List.perm_middle.symm.trans (hh.append_left s.unused))
    · have hmem : live = true → q ∈ rest := fun hl => by simpa [hl] using hlive
      rw [held_cons_of_mem hmem] at hp
      have hav : available live (s.release q) = available live s := by
        cases live with
        | false => rfl
        | true =>
          have hpos : rest.count q ≠ 0 := fun h => List.count_eq_zero.mp h (hmem rfl)
          rw [available, if_pos rfl, release_unused, hcount, if_neg hpos]
          rfl
      rwa [hav]

theorem Balanced.congr {live : Bool} {n : Nat} {l : List (Element K)} {rest rest' : List Nat}
    {s : Slots} (h : Balanced live n l rest s) (hp : rest.Perm rest') : Balanced live n l rest' s := by
  have hheld : held live l rest' = held live l rest := by
    refine List.filter_congr fun q _ => ?_
    have hm : rest'.contains q = rest.contains q := by
      rw [Bool.eq_iff_iff]
      simpa using hp.symm.mem_iff
    rw [hm]
  exact ⟨h.uses_size, h.slot_size, fun q => by rw [h.uses, hp.count_eq], by rw [hheld]; exact h.perm⟩

theorem slotOf_releases (s : Slots) (qs : List Nat) :
    (qs.foldr (fun q s => s.release q) s).slotOf = s.slotOf := by
  induction qs with
  | nil => rfl
  | cons q qs ih => exact ih

theorem size_slot_releases (s : Slots) (qs : List Nat) :
    (qs.foldr (fun q s => s.release q) s).slot.size = s.slot.size := by
  induction qs with
  | nil => rfl
  | cons q qs ih => exact ih

theorem count_releases (s : Slots) (qs : List Nat) :
    (qs.foldr (fun q s => s.release q) s).count = s.count := by
  induction qs with
  | nil => rfl
  | cons q qs ih => exact ih

theorem Balanced.releases {live : Bool} {n : Nat} {l : List (Element K)} {s : Slots}
    (hn : l.length ≤ n) (qs : List Nat) (hq : ∀ q ∈ qs, isValue l q) {rest : List Nat}
    (h : Balanced live n l (qs ++ rest) s) :
    Balanced live n l rest (qs.foldr (fun q s => s.release q) s) := by
  induction qs generalizing rest with
  | nil => exact h
  | cons q qs ih =>
    have h' : Balanced live n l (qs ++ q :: rest) s := h.congr List.perm_middle.symm
    exact (ih (fun r hr => hq r (by simp [hr])) h').release hn (hq q (by simp))

/-- A slot that was free, or one more when none is. -/
theorem take_cases (s : Slots) (live : Bool) (p : Nat) :
    (available live s = (s.take live p).1 :: available live (s.take live p).2 ∧
        (s.take live p).2.count = s.count) ∨
      (available live s = [] ∧ available live (s.take live p).2 = [] ∧
        (s.take live p).1 = s.count ∧ (s.take live p).2.count = s.count+1) := by
  cases live with
  | false => exact .inr ⟨rfl, rfl, rfl, rfl⟩
  | true =>
    cases h : s.unused with
    | nil => exact .inr (by simp [Slots.take, available, h])
    | cons k rest => exact .inl (by simp [Slots.take, available, h])

theorem take_uses (s : Slots) (live : Bool) (p : Nat) : (s.take live p).2.uses = s.uses := by
  unfold Slots.take
  split <;> rfl

theorem take_slot (s : Slots) (live : Bool) (p : Nat) :
    (s.take live p).2.slot = s.slot.setIfInBounds p (s.take live p).1 := by
  unfold Slots.take
  split <;> rfl

theorem slotOf_take (live : Bool) {s : Slots} {p : Nat} (h : p < s.slot.size) (q : Nat) :
    (s.take live p).2.slotOf q = if q = p then (s.take live p).1 else s.slotOf q := by
  rw [slotOf, take_slot]
  by_cases hq : q = p
  · subst hq
    simp [Array.getD_eq_getD_getElem?, h]
  · rw [if_neg hq, slotOf]
    simp [Array.getD_eq_getD_getElem?, Array.getElem?_setIfInBounds_ne (Ne.symm hq)]

/-- The value at the end is held from now on. -/
theorem held_snoc {live : Bool} {l : List (Element K)} {rest : List Nat} {el : Element K}
    (hv : el.op ≠ .output) (hu : l.length ∈ rest) :
    held live (l ++ [el]) rest = held live l rest ++ [l.length] := by
  have hlast : (isValue (l ++ [el]) l.length && (!live || rest.contains l.length)) = true := by
    simp [isValue_append_self, hv, hu]
  rw [held, List.length_append, List.length_singleton, List.range_succ, List.filter_append]
  congr 1
  · refine List.filter_congr fun q hq => ?_
    rw [isValue_append_left (List.mem_range.mp hq)]
  · exact List.filter_cons_of_pos hlast

theorem held_snoc_output {live : Bool} {l : List (Element K)} {rest : List Nat} {el : Element K}
    (hv : el.op = .output) : held live (l ++ [el]) rest = held live l rest := by
  have hlast : isValue (l ++ [el]) l.length = false := by simp [isValue_append_self, hv]
  have hnone : [l.length].filter (fun q => isValue (l ++ [el]) q && (!live || rest.contains q)) = [] := by
    simp [hlast]
  rw [held, List.length_append, List.length_singleton, List.range_succ, List.filter_append, hnone,
    List.append_nil]
  refine List.filter_congr fun q hq => ?_
  rw [isValue_append_left (List.mem_range.mp hq)]

theorem Balanced.take {live : Bool} {n : Nat} {l : List (Element K)} {rest : List Nat} {s : Slots}
    {el : Element K} (h : Balanced live n l rest s) (hn : l.length < n) (hv : el.op ≠ .output)
    (hu : l.length ∈ rest) : Balanced live n (l ++ [el]) rest (s.take live l.length).2 := by
  have hmap : (held live l rest).map (s.take live l.length).2.slotOf = (held live l rest).map s.slotOf := by
    refine List.map_congr_left fun q hq => ?_
    rw [slotOf_take _ (by rw [h.slot_size]; exact hn), if_neg (Nat.ne_of_lt (mem_held.mp hq).1)]
  refine ⟨?_, ?_, ?_, ?_⟩
  · rw [take_uses, h.uses_size]
  · simp [take_slot, h.slot_size]
  · intro q
    rw [take_uses, h.uses]
  · rw [held_snoc hv hu, List.map_append, hmap, List.map_singleton,
      slotOf_take _ (by rw [h.slot_size]; exact hn), if_pos rfl]
    obtain ⟨ha, hc⟩ | ⟨ha, ha', hk, hc⟩ := take_cases s live l.length
    · rw [hc]
      refine .trans ?_ h.perm
      rw [ha, ← List.append_assoc]
      exact List.perm_append_singleton _ _
    · have hp := h.perm
      rw [ha, List.nil_append] at hp
      rw [ha', hk, hc, List.nil_append, List.range_succ]
      exact hp.append_right _

theorem Balanced.slotOf_lt {live : Bool} {n : Nat} {l : List (Element K)} {rest : List Nat} {s : Slots}
    (h : Balanced live n l rest s) {q : Nat} (hq : q ∈ held live l rest) : s.slotOf q < s.count :=
  List.mem_range.mp (h.perm.mem_iff.mp (List.mem_append_right _ (List.mem_map_of_mem hq)))

/-- A slot that is taken belongs to no value that is held. -/
theorem Balanced.take_ne {live : Bool} {n : Nat} {l : List (Element K)} {rest : List Nat} {s : Slots}
    (h : Balanced live n l rest s) (p : Nat) {q : Nat} (hq : q ∈ held live l rest) :
    s.slotOf q ≠ (s.take live p).1 := by
  have hmem : s.slotOf q ∈ (held live l rest).map s.slotOf := List.mem_map_of_mem hq
  obtain ⟨ha, -⟩ | ⟨-, -, hk, -⟩ := take_cases s live p
  · intro he
    have hnd := h.perm.nodup_iff.mpr List.nodup_range
    rw [ha, List.cons_append, List.nodup_cons, ← he] at hnd
    exact hnd.1 (List.mem_append_right _ hmem)
  · rw [hk]
    exact Nat.ne_of_lt (h.slotOf_lt hq)

theorem getD_foldl_count {qs : List Nat} {uses : Array Nat} (h : ∀ q ∈ qs, q < uses.size) (q : Nat) :
    (qs.foldl (fun uses p => uses.modify p (· + 1)) uses).getD q 0 = uses.getD q 0 + qs.count q := by
  rw [Array.getD_eq_getD_getElem?, Array.getD_eq_getD_getElem?, Grouping.getElem?_foldl_count]
  cases hq : uses[q]? with
  | some n => rfl
  | none =>
    have hnot : q ∉ qs := fun hmem => Nat.not_lt.mpr (Array.getElem?_eq_none_iff.mp hq) (h q hmem)
    simp [List.count_eq_zero.mpr hnot]

theorem Balanced.start {live : Bool} {els : Array (Element K)} (h : Positional els.toList) :
    Balanced live els.size ([] : List (Element K)) (readings els.toList) (Slots.start els) := by
  have huses : (Slots.start els).uses =
      (readings els.toList).foldl (fun uses p => uses.modify p (· + 1)) (Array.replicate els.size 0) := by
    simp [Slots.start, readings, List.foldl_flatMap]
  have hlt : ∀ q ∈ readings els.toList, q < (Array.replicate els.size 0).size := by
    intro q hq
    obtain ⟨el, hel, hq⟩ := List.mem_flatMap.mp hq
    obtain ⟨p, hp⟩ := List.mem_iff_getElem?.mp hel
    simpa using lt_of_isValue (h.reads p el hp q hq).2
  refine ⟨by rw [huses, Grouping.size_foldl_count]; simp, by simp [Slots.start], fun q => ?_, ?_⟩
  · rw [huses, getD_foldl_count hlt]
    simp only [Array.getD_eq_getD_getElem?, Array.getElem?_replicate]
    split <;> simp
  · cases live <;> simp [available, held, Slots.start]

theorem assign_output {el : Element K} (h : el.op = .output) (live : Bool) (s : Slots) (p : Nat) :
    s.assign live el p =
      (relabel s.slotOf el, (reads el).foldr (fun q s => s.release q) s) := by
  have hslot := slotOf_releases s (reads el)
  simp only [assign, h, if_true, relabel]
  rw [← hslot]
  rfl

/-- The slots after an element that makes a value. -/
def next (live : Bool) (s : Slots) (el : Element K) (p : Nat) : Slots :=
  (((reads el).foldr (fun q s => s.release q) s).take live p).2

theorem assign_value {el : Element K} (h : el.op ≠ .output) (live : Bool) (s : Slots) {p : Nat}
    (hr : el.result = p) (hp : p < s.slot.size) :
    s.assign live el p = (relabel (s.next live el p).slotOf el, s.next live el p) := by
  have hsize : p < ((reads el).foldr (fun q s => s.release q) s).slot.size := by rwa [size_slot_releases]
  have hk := slotOf_take live hsize p
  rw [if_pos rfl] at hk
  simp only [assign, h, if_false, relabel, hr, next]
  rw [hk]
  rcases el.op.arity with _ | _ | _ <;> rfl

/-- The elements and slots after a part of a tape. -/
def fill (live : Bool) (els : Array (Element K)) (l : List (Element K)) : Array (Element K) × Slots :=
  l.zipIdx.foldl (fun (done, s) (el, p) =>
    let (el, s) := s.assign live el p
    (done.push el, s)) (#[], Slots.start els)

theorem allocate_eq (live : Bool) (els : Array (Element K)) :
    allocate live els = ((fill live els els.toList).1, (fill live els els.toList).2.count) := by
  rw [allocate, fill, ← Array.foldl_toList, Array.toList_zipIdx]

theorem fill_snoc (live : Bool) (els : Array (Element K)) (l : List (Element K)) (el : Element K) :
    fill live els (l ++ [el]) =
      ((fill live els l).1.push ((fill live els l).2.assign live el l.length).1,
        ((fill live els l).2.assign live el l.length).2) := by
  simp [fill, List.zipIdx_append]

/-- No value takes the slot of an earlier one that is still to be read. -/
def Apart (els : List (Element K)) (slot : Nat → Nat) (n : Nat) : Prop :=
  ∀ q i r el, q < i → i < r → i < n → isValue els i → els[r]? = some el → q ∈ reads el →
    slot q ≠ slot i

/-- What holds of the slots after a part `l` of the tape. -/
structure Filled (live : Bool) (els : Array (Element K)) (l rest : List (Element K)) : Prop where
  balanced : Balanced live els.size l (readings rest) (fill live els l).2
  elements : (fill live els l).1.toList = l.map (relabel (fill live els l).2.slotOf)
  bound : ∀ p, isValue l p → (fill live els l).2.slotOf p < (fill live els l).2.count
  apart : Apart els.toList (fill live els l).2.slotOf l.length

theorem relabel_congr {slot slot' : Nat → Nat} {el : Element K} (hr : ∀ q ∈ reads el, slot q = slot' q)
    (hv : el.op ≠ .output → slot el.result = slot' el.result) : relabel slot el = relabel slot' el := by
  by_cases h : el.op = .output
  · have hl := hr el.left (by simp [reads, h, Op.arity])
    simp [relabel, h, hl]
  · rw [relabel, relabel, if_neg h, if_neg h, hv h]
    rcases ha : el.op.arity with _ | _ | n
    · rfl
    · simp [hr el.left (by simp [reads, ha])]
    · rw [hr el.left (by simp [reads, ha]), hr el.right (by simp [reads, ha])]

theorem isValue_snoc_output {l : List (Element K)} {el : Element K} (h : el.op = .output) {p : Nat}
    (hp : isValue (l ++ [el]) p) : isValue l p := by
  have hlt := lt_of_isValue hp
  rw [List.length_append, List.length_singleton] at hlt
  by_cases he : p = l.length
  · subst he
    simp [isValue_append_self, h] at hp
  · rwa [isValue_append_left (by omega)] at hp

theorem getElem?_middle (l : List (Element K)) (el : Element K) (rest : List (Element K)) :
    (l ++ el :: rest)[l.length]? = some el := by simp

theorem Filled.snoc_output {live : Bool} {els : Array (Element K)} {l rest : List (Element K)}
    {el : Element K} (he : els.toList = l ++ el :: rest) (hv : el.op = .output)
    (hb : Balanced live els.size l (readings rest)
      ((reads el).foldr (fun q s => s.release q) (fill live els l).2))
    (hf : Filled live els l (el :: rest)) : Filled live els (l ++ [el]) rest := by
  have hfill := fill_snoc live els l el
  rw [assign_output hv] at hfill
  refine ⟨?_, ?_, ?_, ?_⟩
  · rw [hfill]
    refine ⟨hb.uses_size, hb.slot_size, hb.uses, ?_⟩
    rw [held_snoc_output hv]
    exact hb.perm
  · rw [hfill]
    simp [slotOf_releases, hf.elements]
  · intro p hp
    rw [hfill, slotOf_releases, count_releases]
    exact hf.bound p (isValue_snoc_output hv hp)
  · intro q i r d hqi hir hin hi hr hq
    rw [hfill, slotOf_releases]
    refine hf.apart q i r d hqi hir ?_ hi hr hq
    have hne : i ≠ l.length := by
      intro h
      subst h
      simp [isValue, he, hv] at hi
    simp at hin
    omega

theorem slotOf_next_of_ne (live : Bool) (el : Element K) {s : Slots} {p q : Nat} (h : p < s.slot.size)
    (hq : q ≠ p) : (s.next live el p).slotOf q = s.slotOf q := by
  rw [next, slotOf_take live (by rwa [size_slot_releases]), if_neg hq, slotOf_releases]

theorem count_le_next (live : Bool) (s : Slots) (el : Element K) (p : Nat) :
    s.count ≤ (s.next live el p).count := by
  rw [next]
  obtain ⟨-, hc⟩ | ⟨-, -, -, hc⟩ := take_cases ((reads el).foldr (fun q s => s.release q) s) live p
  all_goals
    rw [count_releases] at hc
    omega

theorem mem_readings_of_lt {els l rest : List (Element K)} {el d : Element K} {r q : Nat}
    (he : els = l ++ el :: rest) (hlr : l.length < r) (hr : els[r]? = some d) (hq : q ∈ reads d) :
    q ∈ readings rest := by
  rw [he, List.getElem?_append_right (by omega), show r - l.length = (r - l.length - 1) + 1 by omega,
    List.getElem?_cons_succ] at hr
  exact List.mem_flatMap.mpr ⟨d, List.mem_of_getElem? hr, hq⟩

/-- Relabelling the elements before a position asks for the slots below it. -/
theorem Positional.map_relabel_congr {els l rest : List (Element K)} (h : Positional els) (he : els = l ++ rest)
    {slot slot' : Nat → Nat} (hs : ∀ q, q < l.length → slot q = slot' q) :
    l.map (relabel slot) = l.map (relabel slot') := by
  refine List.map_congr_left fun d hd => ?_
  obtain ⟨p, hp⟩ := List.mem_iff_getElem?.mp hd
  have hpl := (List.getElem?_eq_some_iff.mp hp).1
  have hpe : els[p]? = some d := by rw [he, List.getElem?_append_left hpl, hp]
  refine relabel_congr (fun q hq => hs q ?_) fun hdv => hs _ ?_
  · exact Nat.lt_trans (h.reads p d hpe q hq).1 hpl
  · rwa [h.result p d hpe hdv]

/-- The slot that the next element takes belongs to no earlier value that is read after it. -/
theorem Balanced.slotOf_ne_next {live : Bool} {els l rest : List (Element K)} (h : Positional els) {n : Nat}
    {s : Slots} {el d : Element K} (he : els = l ++ el :: rest) (hn : l.length < n)
    (hb : Balanced live n l (readings rest) ((reads el).foldr (fun q s => s.release q) s)) {q r : Nat}
    (hq : q < l.length) (hlr : l.length < r) (hr : els[r]? = some d) (hqd : q ∈ reads d) :
    s.slotOf q ≠ (s.next live el l.length).slotOf l.length := by
  have hqv : isValue l q := by
    have hv := (h.reads r d hr q hqd).2
    rwa [he, isValue_append_left hq] at hv
  have hne := hb.take_ne l.length (mem_held.mpr ⟨hq, hqv, fun _ => mem_readings_of_lt he hlr hr hqd⟩)
  rw [next, slotOf_take live (by rwa [hb.slot_size]), if_pos rfl, ← slotOf_releases s (reads el)]
  exact hne

theorem Filled.snoc_value {live : Bool} {els : Array (Element K)} (h : Positional els.toList)
    {l rest : List (Element K)} {el : Element K} (he : els.toList = l ++ el :: rest)
    (hv : el.op ≠ .output)
    (hb : Balanced live els.size l (readings rest)
      ((reads el).foldr (fun q s => s.release q) (fill live els l).2))
    (hf : Filled live els l (el :: rest)) : Filled live els (l ++ [el]) rest := by
  have hn : l.length < els.size := by
    rw [← Array.length_toList, he]
    simp
  have hval : isValue els.toList l.length := by simp [isValue, he, hv]
  -- The value is read later, so its slot is not free again at once.
  have hused : l.length ∈ readings rest := by
    obtain ⟨r, d, hlr, hr, hd⟩ := h.used l.length hval
    exact mem_readings_of_lt he hlr hr hd
  have hsize : l.length < (fill live els l).2.slot.size := by rwa [hf.balanced.slot_size]
  have hfill := fill_snoc live els l el
  rw [assign_value hv live _ (h.result l.length el (by rw [he, getElem?_middle]) hv) hsize] at hfill
  -- Slots that were handed out before stay what they are.
  have hold (q : Nat) (hq : q < l.length) :
      ((fill live els l).2.next live el l.length).slotOf q = (fill live els l).2.slotOf q :=
    slotOf_next_of_ne live el hsize (Nat.ne_of_lt hq)
  have hbt := hb.take hn hv hused
  have hlast {p : Nat} (hp : p < (l ++ [el]).length) (hpl : ¬p < l.length) : p = l.length := by
    rw [List.length_append, List.length_singleton] at hp
    omega
  refine ⟨?_, ?_, ?_, ?_⟩
  · rw [hfill]
    exact hbt
  · rw [hfill]
    simp only [Array.toList_push, hf.elements, List.map_append, List.map_singleton]
    rw [h.map_relabel_congr he hold]
  · intro p hp
    rw [hfill]
    by_cases hpl : p < l.length
    · rw [hold p hpl]
      exact Nat.lt_of_lt_of_le (hf.bound p (by rwa [isValue_append_left hpl] at hp)) (count_le_next ..)
    · obtain rfl := hlast (lt_of_isValue hp) hpl
      exact hbt.slotOf_lt (mem_held.mpr ⟨by simp, hp, fun _ => hused⟩)
  · intro q i r d hqi hir hin hi hr hq
    rw [hfill]
    by_cases hil : i < l.length
    · simp only [hold q (Nat.lt_trans hqi hil), hold i hil]
      exact hf.apart q i r d hqi hir hil hi hr hq
    · obtain rfl := hlast hin hil
      simp only [hold q hqi]
      exact hb.slotOf_ne_next h he hn hqi hir hr hq

/-- The operands of the next element are released. -/
theorem Filled.released {live : Bool} {els : Array (Element K)} (h : Positional els.toList)
    {l rest : List (Element K)} {el : Element K} (he : els.toList = l ++ el :: rest)
    (hf : Filled live els l (el :: rest)) : Balanced live els.size l (readings rest)
      ((reads el).foldr (fun q s => s.release q) (fill live els l).2) := by
  have hn : l.length ≤ els.size := by
    rw [← Array.length_toList, he]
    simp
  have hq : ∀ q ∈ reads el, isValue l q := by
    intro q hq
    obtain ⟨hlt, hv⟩ := h.reads l.length el (by rw [he, getElem?_middle]) q hq
    rwa [he, isValue_append_left hlt] at hv
  exact Balanced.releases hn (reads el) hq hf.balanced

theorem Filled.snoc {live : Bool} {els : Array (Element K)} (h : Positional els.toList)
    {l rest : List (Element K)} {el : Element K} (he : els.toList = l ++ el :: rest)
    (hf : Filled live els l (el :: rest)) : Filled live els (l ++ [el]) rest := by
  have hb := hf.released h he
  by_cases hv : el.op = .output
  · exact hf.snoc_output he hv hb
  · exact hf.snoc_value h he hv hb

theorem filled (live : Bool) {els : Array (Element K)} (h : Positional els.toList)
    (l rest : List (Element K)) (he : els.toList = l ++ rest) : Filled live els l rest := by
  -- On the part of the tape that is done.
  induction l using List.reverseRecOn generalizing rest with
  | nil =>
    rw [List.nil_append] at he
    refine ⟨?_, by simp [fill], by simp [isValue], fun q i r el _ _ hi => by simp at hi⟩
    rw [← he]
    exact .start h
  | append_singleton l el ih =>
    have he' : els.toList = l ++ el :: rest := by simpa using he
    exact (ih (el :: rest) he').snoc h he'

/-- Elements on slots: every value has a slot of the work array, which no other value takes while the
value lives. -/
structure Allocation (els done : List (Element K)) (n : Nat) (slot : Nat → Nat) : Prop where
  elements : done = els.map (relabel slot)
  bound : ∀ p, isValue els p → slot p < n
  apart : ∀ q i r el, q < i → i < r → isValue els i → els[r]? = some el → q ∈ reads el →
    slot q ≠ slot i

theorem allocate_allocation (live : Bool) {els : Array (Element K)} (h : Positional els.toList) :
    ∃ slot, Allocation els.toList (allocate live els).1.toList (allocate live els).2 slot := by
  have hf := filled live h els.toList [] (by simp)
  rw [allocate_eq]
  refine ⟨_, hf.elements, hf.bound, ?_⟩
  intro q i r el hqi hir hi hr hq
  exact hf.apart q i r el hqi hir (lt_of_isValue hi) hi hr hq

end Fluxion.Tape.Slots
