import Fluxion.Proofs.Order.Levels
import Fluxion.Proofs.Tape.Inputs
import Fluxion.Proofs.Tape.LiveRanges

/-!
Elements of a tape, node by node. Each node of the order becomes one element, in which the number of an
operand is replaced by the slot where its value stands.
-/
set_option autoImplicit false

namespace Fluxion

variable {K : Type}

/-- Numbers of the expressions that a node reads. -/
def Node.reads : Node K → List Nat
  | .expr e => e.operands.map Expr.id
  | .store _ _ id => [id]

/-- What a node reads stands before it. -/
theorem Order.Placed.reads {l : List (Node K)} (h : Order.Placed l) {p : Nat} {n : Node K}
    (hn : l[p]? = some n) {id : Nat} (hid : id ∈ n.reads) :
    ∃ a ∈ Order.exprs (l.take p), a.id = id := by
  have hready := h p n hn
  cases n with
  | store i k id' =>
    obtain rfl : id = id' := by simpa [Node.reads] using hid
    exact hready
  | expr e =>
    obtain ⟨a, ha, rfl⟩ := List.mem_map.mp hid
    exact ⟨a, hready.1 a ha, rfl⟩

namespace Tape

/-- The element of a node; `slot` gives the slot of a number, and `free` counts the symbols without a
place before it. -/
def elementAt [Number K] (places : Std.HashMap Nat (Nat × Nat)) (slot : Nat → Nat) (free : Nat) :
    Node K → Element K
  | .store index entry id => ⟨.output, index, slot id, entry, Number.zero⟩
  | .expr (.const i v) => ⟨.const, slot i, 0, 0, v⟩
  | .expr (.symbol s) =>
    match places[s.id]? with
    | some (i,k) => ⟨.input, slot s.id, i, k, Number.zero⟩
    | none => ⟨.parameter, slot s.id, free, 0, Number.zero⟩
  | .expr (.unary i op a) => ⟨op, slot i, slot a.id, slot a.id, Number.zero⟩
  | .expr (.binary i op a b) => ⟨op, slot i, slot a.id, slot b.id, Number.zero⟩

/-- Symbols without a place. -/
def freeAmong (places : Std.HashMap Nat (Nat × Nat)) (es : List (Expr K)) : List Symbol :=
  (es.filterMap Expr.symbol?).filter fun s => places[s.id]?.isNone

@[simp] theorem freeAmong_append (places : Std.HashMap Nat (Nat × Nat)) (es fs : List (Expr K)) :
    freeAmong places (es ++ fs) = freeAmong places es ++ freeAmong places fs := by
  simp [freeAmong]

theorem mem_freeAmong {places : Std.HashMap Nat (Nat × Nat)} {es : List (Expr K)} {s : Symbol} :
    s ∈ freeAmong places es ↔ .symbol s ∈ es ∧ places[s.id]? = none := by
  rw [freeAmong, List.mem_filter, List.mem_filterMap, Option.isNone_iff_eq_none]
  refine and_congr_left fun _ => ⟨?_, fun h => ⟨_, h, rfl⟩⟩
  rintro ⟨e, he, hes⟩
  cases e <;> cases hes
  exact he

/-- Where no symbol is free, every symbol has a place. -/
theorem exists_place {places : Std.HashMap Nat (Nat × Nat)} {es : List (Expr K)}
    (h : freeAmong places es = []) {y : Symbol}
    (hy : .symbol y ∈ es) : ∃ i k, places[y.id]? = some (i,k) := by
  cases hp : places[y.id]? with
  | none => exact absurd (mem_freeAmong.mpr ⟨hy, hp⟩) (by simp [h])
  | some p => exact ⟨p.1, p.2, rfl⟩

theorem positions_getD {nodes : Array (Node K)} (h : Order.Placed nodes.toList) {p : Nat} {e : Expr K}
    (hp : nodes.toList[p]? = some (.expr e)) : (Order.positions nodes).getD e.id 0 = p := by
  let place (at' : Std.HashMap Nat Nat) (x : Node K × Nat) : Std.HashMap Nat Nat :=
    match x.1 with
    | .expr e => at'.insert e.id x.2
    | .store _ _ _ => at'
  have general (l : List (Node K)) (hl : Order.Placed l) (p : Nat) (hp : l[p]? = some (.expr e)) :
      (l.zipIdx.foldl place ∅).getD e.id 0 = p := by
    induction l using List.reverseRecOn generalizing p with
    | nil => simp at hp
    | append_singleton l n ih =>
      rw [List.zipIdx_append, List.foldl_append]
      by_cases hlt : p < l.length
      · rw [List.getElem?_append_left hlt] at hp
        have hi := ih hl.of_append p hp
        cases n with
        | store i k id => exact hi
        | expr d =>
          have hne := hl.last.2 e (Order.mem_exprs.mpr (List.mem_of_getElem? hp))
          simpa [place, Std.HashMap.getD_insert, Ne.symm hne] using hi
      · have hle := (List.getElem?_eq_some_iff.mp hp).1
        obtain rfl : p = l.length := by simp at hle; omega
        simp only [List.getElem?_concat_length, Option.some.injEq] at hp
        subst hp
        simp [place]
  have hfold : Order.positions nodes = nodes.zipIdx.foldl place ∅ := rfl
  rw [hfold, ← Array.foldl_toList, Array.toList_zipIdx]
  exact general _ h p hp

variable [Number K]

theorem elementOf_eq (places : Std.HashMap Nat (Nat × Nat)) (position : Std.HashMap Nat Nat)
    (free : Array Symbol) {p : Nat} {n : Node K}
    (hp : ∀ e, n = .expr e → position.getD e.id 0 = p) :
    elementOf places position free p n =
      (elementAt places (position.getD · 0) free.size n,
        free ++ (freeAmong places (Order.exprs [n])).toArray) := by
  cases n with
  | store i k id => simp [elementOf, elementAt, freeAmong]
  | expr e =>
    have hpe := hp e rfl
    cases e with
    | symbol s =>
      rw [Expr.id] at hpe
      cases hs : places[s.id]? <;>
        simp [elementOf, elementAt, freeAmong, hs, hpe, Expr.symbol?]
    | _ =>
      rw [Expr.id] at hpe
      simp [elementOf, elementAt, freeAmong, hpe, Expr.symbol?]

/-- The elements of an order. -/
def layout (places : Std.HashMap Nat (Nat × Nat)) (slot : Nat → Nat) (l : List (Node K)) :
    List (Element K) :=
  l.mapIdx fun p n => elementAt places slot (freeAmong places (Order.exprs (l.take p))).length n

theorem layout_getElem? (places : Std.HashMap Nat (Nat × Nat)) (slot : Nat → Nat) (l : List (Node K))
    (p : Nat) : (layout places slot l)[p]? =
      l[p]?.map (elementAt places slot (freeAmong places (Order.exprs (l.take p))).length) := by
  simp [layout]

theorem layout_snoc (places : Std.HashMap Nat (Nat × Nat)) (slot : Nat → Nat) (l : List (Node K))
    (n : Node K) : layout places slot (l ++ [n]) =
      layout places slot l ++ [elementAt places slot (freeAmong places (Order.exprs l)).length n] := by
  rw [layout, layout, List.mapIdx_append]
  congr 1
  · refine List.mapIdx_eq_mapIdx_iff.mpr fun p hp => ?_
    rw [List.take_append_of_le_length (Nat.le_of_lt hp)]
  · simp

/-- One node of the pass that makes the elements. -/
def addElement (places : Std.HashMap Nat (Nat × Nat)) (position : Std.HashMap Nat Nat)
    (x : Array (Element K) × Array Symbol) (y : Node K × Nat) : Array (Element K) × Array Symbol :=
  let (el, free) := elementOf places position x.2 y.2 y.1
  (x.1.push el, free)

theorem foldl_addElement (places : Std.HashMap Nat (Nat × Nat)) {nodes : Array (Node K)}
    (h : Order.Placed nodes.toList) (l m : List (Node K)) (hl : nodes.toList = l ++ m) :
    let done := l.zipIdx.foldl (addElement places (Order.positions nodes)) (#[], #[])
    done.1.toList = layout places ((Order.positions nodes).getD · 0) l ∧
      done.2.toList = freeAmong places (Order.exprs l) := by
  induction l using List.reverseRecOn generalizing m with
  | nil => simp [layout, freeAmong, Order.exprs]
  | append_singleton l n ih =>
    obtain ⟨h1, h2⟩ := ih (n :: m) (by simpa using hl)
    have hn : nodes.toList[l.length]? = some n := by simp [hl]
    have hp : ∀ e, n = .expr e → (Order.positions nodes).getD e.id 0 = l.length := by
      rintro e rfl
      exact positions_getD h hn
    rw [List.zipIdx_append, List.foldl_append, layout_snoc]
    generalize l.zipIdx.foldl (addElement places (Order.positions nodes)) (#[], #[]) = done at h1 h2
    have hsize : done.2.size = (freeAmong places (Order.exprs l)).length := by
      rw [← Array.length_toList, h2]
    simp only [List.zipIdx_cons, List.zipIdx_nil, List.foldl_cons, List.foldl_nil, Nat.zero_add,
      Order.exprs_append, freeAmong_append, addElement]
    rw [elementOf_eq places (Order.positions nodes) _ hp]
    simp [h1, h2, hsize]

theorem elementsOf_eq (places : Std.HashMap Nat (Nat × Nat)) {nodes : Array (Node K)}
    (h : Order.Placed nodes.toList) :
    (elementsOf places nodes).1.toList =
        layout places ((Order.positions nodes).getD · 0) nodes.toList ∧
      (elementsOf places nodes).2.toList = freeAmong places (Order.exprs nodes.toList) := by
  rw [elementsOf, ← Array.foldl_toList, Array.toList_zipIdx]
  exact foldl_addElement places h nodes.toList [] (by simp)

end Tape

/-- The expression of a node takes the operands of its operations. -/
def Node.Proper : Node K → Prop
  | .expr e => e.Proper
  | .store _ _ _ => True

theorem Order.Complete.proper {outputs : Array (Matrix (Expr K))} {l : List (Node K)}
    (hc : Order.Complete outputs l) (h : Expr.Coherent (Matrix.entries outputs)) :
    ∀ n ∈ l, n.Proper := by
  intro n hn
  cases n with
  | store i k id => trivial
  | expr e => exact h.proper e ((hc.mem_exprs e).mp (Order.mem_exprs.mpr hn))

namespace Tape

variable [Number K]

theorem op_elementAt_expr (places : Std.HashMap Nat (Nat × Nat)) (slot : Nat → Nat) (free : Nat)
    {e : Expr K} (he : e.Proper) : (elementAt places slot free (.expr e)).op ≠ .output := by
  cases e with
  | symbol s => rw [elementAt]; split <;> simp
  | const i v => simp [elementAt]
  | unary i op a =>
    rintro rfl
    cases he.1
  | binary i op a b =>
    rintro rfl
    cases he.1

theorem result_elementAt (places : Std.HashMap Nat (Nat × Nat)) (slot : Nat → Nat) (free : Nat)
    (e : Expr K) : (elementAt places slot free (.expr e)).result = slot e.id := by
  cases e with
  | symbol s =>
    rw [elementAt]
    split <;> rfl
  | _ => rfl

/-- An operation reads the slots of its operands and writes its own. -/
theorem elementAt_operation (places : Std.HashMap Nat (Nat × Nat)) (slot : Nat → Nat) {e : Expr K}
    (he : e.op.isStructural = false) :
    ∃ a b, (∀ d, d ∈ e.operands ↔ d = a ∨ d = b) ∧
      elementAt places slot 0 (.expr e) = ⟨e.op, slot e.id, slot a.id, slot b.id, Number.zero⟩ := by
  cases e with
  | symbol s => cases he
  | const i v => cases he
  | unary i op a => exact ⟨a, a, by simp [Expr.operands], rfl⟩
  | binary i op a b => exact ⟨a, b, by simp [Expr.operands], rfl⟩

omit [Number K] in
theorem leaf_cases {e : Expr K} (hp : e.Proper) (he : e.op.isStructural = true) :
    (∃ s, e = .symbol s) ∨ ∃ i v, e = .const i v := by
  cases e with
  | symbol s => exact .inl ⟨s, rfl⟩
  | const i v => exact .inr ⟨i, v, rfl⟩
  | unary i op a => exact absurd he (by simp [Expr.op, hp.1])
  | binary i op a b => exact absurd he (by simp [Expr.op, Op.isStructural_of_arity hp.1])

theorem reads_elementAt (places : Std.HashMap Nat (Nat × Nat)) (slot : Nat → Nat) (free : Nat)
    {n : Node K} (hn : n.Proper) :
    Slots.reads (elementAt places slot free n) = n.reads.map slot := by
  cases n with
  | store i k id => rfl
  | expr e =>
    cases e with
    | symbol s =>
      rw [elementAt]
      split <;> rfl
    | const i v => rfl
    | unary i op a => simp [elementAt, Slots.reads, Node.reads, Expr.operands, hn.2.1]
    | binary i op a b => simp [elementAt, Slots.reads, Node.reads, Expr.operands, hn.1]

theorem relabel_elementAt (places : Std.HashMap Nat (Nat × Nat)) (slot next : Nat → Nat) (free : Nat)
    {n : Node K} (hn : n.Proper) :
    Slots.relabel next (elementAt places slot free n) =
      elementAt places (fun id => next (slot id)) free n := by
  cases n with
  | store i k id => rfl
  | expr e =>
    rw [Slots.relabel, if_neg (op_elementAt_expr places slot free hn)]
    cases e with
    | symbol s => cases hs : places[s.id]? <;> simp [elementAt, hs, Op.arity]
    | const i v => rfl
    | unary i op a => simp [elementAt, hn.2.1]
    | binary i op a b => simp [elementAt, hn.1]

theorem layout_relabel (places : Std.HashMap Nat (Nat × Nat)) (slot next : Nat → Nat)
    {l : List (Node K)} (hl : ∀ n ∈ l, n.Proper) :
    (layout places slot l).map (Slots.relabel next) = layout places (fun id => next (slot id)) l := by
  refine List.ext_getElem? fun p => ?_
  rw [List.getElem?_map, layout_getElem?, layout_getElem?]
  cases hp : l[p]? with
  | none => rfl
  | some n => simp [relabel_elementAt places slot next _ (hl n (List.mem_of_getElem? hp))]

/-- Where every symbol has a place, an element depends on its node only. -/
theorem layout_eq_map (places : Std.HashMap Nat (Nat × Nat)) (slot : Nat → Nat) {l : List (Node K)}
    (h : freeAmong places (Order.exprs l) = []) :
    layout places slot l = l.map (elementAt places slot 0) := by
  refine List.ext_getElem? fun p => ?_
  rw [layout_getElem?, List.getElem?_map]
  have hl : freeAmong places (Order.exprs (l.take p)) = [] := by
    have hsplit := List.take_append_drop p l
    rw [← hsplit, Order.exprs_append, freeAmong_append] at h
    exact (List.append_eq_nil_iff.mp h).1
  rw [hl, List.length_nil]

/-- What does not look at the number of a free symbol sees in an element its node only. -/
theorem map_layout {α : Type} (places : Std.HashMap Nat (Nat × Nat)) (slot : Nat → Nat) (l : List (Node K))
    {f : Element K → α} (h : ∀ free n, f (elementAt places slot free n) = f (elementAt places slot 0 n)) :
    (layout places slot l).map f = (l.map (elementAt places slot 0)).map f := by
  refine List.ext_getElem? fun p => ?_
  rw [List.getElem?_map, layout_getElem?, List.getElem?_map, List.getElem?_map]
  cases l[p]? with
  | none => rfl
  | some n => exact congrArg some (h _ n)

theorem isValue_layout (places : Std.HashMap Nat (Nat × Nat)) (slot : Nat → Nat) {l : List (Node K)}
    (hl : ∀ n ∈ l, n.Proper) (p : Nat) :
    Slots.isValue (layout places slot l) p ↔ ∃ e, l[p]? = some (.expr e) := by
  rw [Slots.isValue, layout_getElem?]
  cases hp : l[p]? with
  | none => simp
  | some n =>
    cases n with
    | store i k id => simp [elementAt]
    | expr e => simpa using op_elementAt_expr places slot _ (hl _ (List.mem_of_getElem? hp))

omit [Number K] in
/-- An expression is read after it was made: by the store of the output that it is, or by the operation above it. -/
theorem exists_reader {outputs : Array (Matrix (Expr K))} {l : List (Node K)}
    (h : Expr.Coherent (Matrix.entries outputs)) (hc : Order.Complete outputs l) {e : Expr K}
    (he : e ∈ Order.exprs l) : ∃ r n, l[r]? = some n ∧ e.id ∈ n.reads ∧ e ∈ Order.exprs (l.take r) := by
  have hreached := (hc.mem_exprs e).mp he
  obtain hroot | ⟨d, hd, ha⟩ := hreached.parent
  · obtain ⟨i, k, m, hm, hk⟩ := Matrix.mem_entries.mp hroot
    have hst : (i,k,e.id) ∈ Order.stores l := by
      rw [hc.stores_eq]
      exact List.mem_map.mpr ⟨(i,k,e), Order.mem_targets.mpr ⟨m, hm, hk⟩, rfl⟩
    obtain ⟨r, hr⟩ := List.mem_iff_getElem?.mp (Order.mem_stores.mp hst)
    obtain ⟨a, ha, hid⟩ := hc.placed r _ hr
    have hal : a ∈ Order.exprs l := Order.mem_exprs.mpr (List.mem_of_mem_take (Order.mem_exprs.mp ha))
    have hae := h.unique a e ((hc.mem_exprs a).mp hal) hreached hid
    exact ⟨r, _, hr, by simp [Node.reads], hae ▸ ha⟩
  · obtain ⟨r, hr⟩ := List.mem_iff_getElem?.mp (Order.mem_exprs.mp ((hc.mem_exprs d).mpr hd))
    exact ⟨r, _, hr, List.mem_map_of_mem ha, (hc.placed r _ hr).1 e ha⟩

/-- A complete order makes elements that read earlier values only and leave none unread. -/
theorem positional_layout (places : Std.HashMap Nat (Nat × Nat)) {pos : Nat → Nat}
    {outputs : Array (Matrix (Expr K))} {l : List (Node K)}
    (h : Expr.Coherent (Matrix.entries outputs)) (hc : Order.Complete outputs l)
    (hpos : ∀ p e, l[p]? = some (.expr e) → pos e.id = p) :
    Slots.Positional (layout places pos l) := by
  have hproper := hc.proper h
  have hearlier : ∀ p (e : Expr K), e ∈ Order.exprs (l.take p) → pos e.id < p ∧
      l[pos e.id]? = some (.expr e) := by
    intro p e he
    obtain ⟨q, hqp, hq⟩ := Order.exists_getElem?_of_mem_take (Order.mem_exprs.mp he)
    rw [hpos q e hq]
    exact ⟨hqp, hq⟩
  -- Values are at their own positions, read earlier values only, and each is read.
  refine ⟨fun p el hp hv => ?_, fun p el hp q hq => ?_, fun p hp => ?_⟩
  · rw [layout_getElem?] at hp
    obtain ⟨n, hn, rfl⟩ := Option.map_eq_some_iff.mp hp
    cases n with
    | store i k id => exact absurd rfl hv
    | expr e =>
      have hr := hpos p e hn
      cases e with
      | symbol s =>
        simp only [elementAt]
        split <;> exact hr
      | _ => exact hr
  · rw [layout_getElem?] at hp
    obtain ⟨n, hn, rfl⟩ := Option.map_eq_some_iff.mp hp
    rw [reads_elementAt _ _ _ (hproper n (List.mem_of_getElem? hn))] at hq
    obtain ⟨id, hid, rfl⟩ := List.mem_map.mp hq
    obtain ⟨a, ha, rfl⟩ := hc.placed.reads hn hid
    obtain ⟨hlt, hl⟩ := hearlier p a ha
    exact ⟨hlt, (isValue_layout places pos hproper _).mpr ⟨a, hl⟩⟩
  · obtain ⟨e, he⟩ := (isValue_layout places pos hproper p).mp hp
    obtain ⟨r, n, hr, hread, htake⟩ := exists_reader h hc (Order.mem_exprs.mpr (List.mem_of_getElem? he))
    obtain ⟨hlt, -⟩ := hearlier r e htake
    rw [hpos p e he] at hlt
    refine ⟨r, _, hlt, by rw [layout_getElem?, hr]; rfl, ?_⟩
    rw [reads_elementAt _ _ _ (hproper n (List.mem_of_getElem? hr)), ← hpos p e he]
    exact List.mem_map_of_mem hread

end Tape

end Fluxion
