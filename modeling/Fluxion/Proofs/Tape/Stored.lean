import Fluxion.Proofs.Tape.Inside

/-!
Tapes that are stored and read again. The columns of a tape read back as they were written, unless a value is not
finite: that is stored as nothing. A tape that is made from a graph without free symbols passes every check of the
reader, since its order puts each value before those that read it and stores each output entry once.
-/
set_option autoImplicit false

namespace Fluxion

namespace Record

variable {K α β : Type}

theorem natural?_ofNat {bound n : Nat} (h : n < bound) : natural? bound (ofNat n : Record K) = some n := by
  rw [ofNat, natural?, if_pos ⟨Int.natCast_nonneg n, by exact_mod_cast h⟩, Int.toNat_natCast]

theorem number?_ofNumber [Number K] (x : K) : number? (ofNumber x) = if Number.finite x then some x else none := by
  rw [ofNumber]
  split <;> rfl

variable {read : Record K → Option β} {write : α → Record K}

/-- A list reads back if each of its items does. -/
theorem listOf?_ofList {f : α → β} {xs : Array α} (h : ∀ x ∈ xs, read (write x) = some (f x)) :
    listOf? read (ofList write xs) = some (xs.map f) := by
  have hlist (l : List α) (hl : ∀ x ∈ l, read (write x) = some (f x)) : (l.map write).mapM read = some (l.map f) := by
    induction l with
    | nil => rfl
    | cons x l ih =>
      rw [List.map_cons, List.mapM_cons, hl x (.head _), ih fun y hy => hl y (.tail _ hy)]
      rfl
  rw [listOf?, ofList, list?, Option.bind_eq_bind, Option.bind_some,
    hlist _ fun x hx => h x (Array.mem_toList_iff.mp hx), Option.bind_eq_bind, Option.bind_some, ← Array.toList_map]
  rfl

/-- A list with an item that does not read back is refused. -/
theorem listOf?_ofList_eq_none {xs : Array α} {x : α} (hx : x ∈ xs) (h : read (write x) = none) :
    listOf? read (ofList write xs) = none := by
  have hlist (l : List α) (hl : x ∈ l) : (l.map write).mapM read = none := by
    induction l with
    | nil => cases hl
    | cons y l ih =>
      rw [List.map_cons, List.mapM_cons]
      obtain rfl | hl := List.mem_cons.mp hl
      · rw [h]
        rfl
      · rw [ih hl]
        cases read (write y) <;> rfl
  rw [listOf?, ofList, list?, Option.bind_eq_bind, Option.bind_some, hlist _ (Array.mem_toList_iff.mpr hx)]
  rfl

end Record

namespace Tape

/-! ### Columns -/

section Columns

variable {K : Type} {t : Tape K}

def columns (t : Tape K) : Columns K where
  ops := t.elements.map (·.op)
  operands := t.elements.map fun el => (el.left, el.right)
  results := t.elements.map (·.result)
  values := t.elements.map (·.value)
  worksize := t.worksize
  inputSizes := t.inputSizes
  outputSizes := t.outputSizes

theorem elements_columns (t : Tape K) : t.columns.elements = t.elements := by
  refine Array.toList_inj.mp ?_
  simp [Columns.elements, columns, List.zip_map', Function.comp_def]

/-- The numbers of a tape are in the words that hold them: operands and results in half a word each, and there is
room for a mark of each slot and of each output entry. -/
structure InWords (t : Tape K) : Prop where
  halves : ∀ el ∈ t.elements, el.result < 2 ^ 32 ∧ el.left < 2 ^ 32 ∧ el.right < 2 ^ 32
  slots : t.worksize < 2 ^ 63
  inputs : ∀ n ∈ t.inputSizes, n < 2 ^ 64
  outputs : ∀ n ∈ t.outputSizes, n < 2 ^ 63

variable [Number K] {r : Record K}

/-- The columns as they are written. -/
def stored (t : Tape K) : List (String × Record K) := [
  ("opcodes", .ofList (fun el => .text el.op.tag) t.elements),
  ("arg_indices", .ofList (fun el => .list [.ofNat el.left, .ofNat el.right]) t.elements),
  ("results", .ofList (fun el => .ofNat el.result) t.elements),
  ("constants", .ofList (fun el => .ofNumber el.value) t.elements),
  ("worksize", .ofNat t.worksize),
  ("input_nnz", .ofList .ofNat t.inputSizes),
  ("output_nnz", .ofList .ofNat t.outputSizes)]

theorem record_eq_ok_iff : t.record = .ok r ↔ t.free = #[] ∧ r = .fields t.stored := by
  rw [record]
  split
  · next hfree =>
    have hne : t.free ≠ #[] := by simpa using hfree
    exact ⟨(nomatch ·), fun h => absurd h.1 hne⟩
  · next hfree =>
    have hempty : t.free = #[] := by simpa using hfree
    exact ⟨fun h => ⟨hempty, (Except.ok.inj h).symm⟩, fun h => h.2 ▸ rfl⟩

/-- The columns that do not hold the values read back. -/
structure ReadsBack (t : Tape K) : Prop where
  ops : Record.field? t.stored "opcodes" (Record.listOf? (·.choice?.bind Op.ofTag?)) = some t.columns.ops
  operands : Record.field? t.stored "arg_indices" (Record.listOf? operands?) = some t.columns.operands
  results : Record.field? t.stored "results" (Record.listOf? index?) = some t.columns.results
  worksize : Record.field? t.stored "worksize" Record.count? = some t.worksize
  inputSizes : Record.field? t.stored "input_nnz" (Record.listOf? Record.count?) = some t.inputSizes
  outputSizes : Record.field? t.stored "output_nnz" (Record.listOf? Record.count?) = some t.outputSizes

theorem InWords.readsBack (hw : t.InWords) : t.ReadsBack := by
  have hcount {n : Nat} (hn : n < 2 ^ 64) : Record.count? (.ofNat n : Record K) = some n := Record.natural?_ofNat hn
  have hindex {n : Nat} (hn : n < 2 ^ 32) : index? (.ofNat n : Record K) = some n := Record.natural?_ofNat hn
  have hcounts {ns : Array Nat} (hns : ∀ n ∈ ns, n < 2 ^ 64) :
      Record.listOf? Record.count? (.ofList .ofNat ns : Record K) = some ns := by
    refine (Record.listOf?_ofList (f := id) fun n hn => hcount (hns n hn)).trans ?_
    rw [Array.map_id]
  constructor
  · exact Record.listOf?_ofList fun el _ => Op.ofTag?_tag el.op
  · refine Record.listOf?_ofList fun el hel => ?_
    obtain ⟨-, hleft, hright⟩ := hw.halves el hel
    rw [operands?, hindex hleft, hindex hright]
    rfl
  · exact Record.listOf?_ofList fun el hel => hindex (hw.halves el hel).1
  · have hlookup : t.stored.lookup "worksize" = some (.ofNat t.worksize) := rfl
    have hslots := hw.slots
    rw [Record.field?, hlookup, Option.bind_some, hcount (by omega)]
  · exact hcounts hw.inputs
  · refine hcounts fun n hn => ?_
    have houtputs := hw.outputs n hn
    omega

theorem ofRecord?_stored (hw : t.InWords) (hfinite : ∀ el ∈ t.elements, Number.finite el.value = true) :
    Columns.ofRecord? (.fields t.stored) = some t.columns := by
  obtain ⟨hops, hoperands, hresults, hworksize, hinputs, houtputs⟩ := hw.readsBack
  have hvalues : Record.field? t.stored "constants" (Record.listOf? Record.number?) = some t.columns.values :=
    Record.listOf?_ofList fun el hel => by rw [Record.number?_ofNumber, if_pos (hfinite el hel)]
  simp only [Columns.ofRecord?, Record.structure?, Option.bind_eq_bind, Option.bind_some, hops, hoperands, hresults,
    hvalues, hworksize, hinputs, houtputs]
  rfl

theorem ofRecord?_stored_eq_none {el : Element K} (hel : el ∈ t.elements) (hvalue : Number.finite el.value = false) :
    Columns.ofRecord? (.fields t.stored) = none := by
  have hvalues : Record.field? t.stored "constants" (Record.listOf? Record.number?) = none :=
    Record.listOf?_ofList_eq_none hel (by rw [Record.number?_ofNumber, hvalue]; rfl)
  simp [Columns.ofRecord?, Record.structure?, hvalues]

end Columns

/-! ### Order -/

section Order

variable {K : Type} {t : Tape K}

/-- An element that may come next passes the check. -/
theorem Progress.exists_step {s : Progress} {els : List (Element K)} {el : Element K} (h : s.After els)
    (hf : t.Follows els el) : ∃ s', Progress.step t s el = some s' ∧ s'.After (els ++ [el]) := by
  have hread (slot : Nat) (hslot : slot ∈ [el.left, el.right].take el.op.arity) : s.written.contains slot = true :=
    (h.written slot).mpr (hf.reads slot hslot)
  have hwrite (hop : el.op ≠ .output) : ∃ s', (if el.result < t.worksize then
      some {s with written := s.written.insert el.result} else none) = some s' ∧ s'.After (els ++ [el]) :=
    ⟨_, if_pos (hf.writes hop), h.write hop⟩
  unfold Progress.step
  extract_lets write
  split
  · next hop =>
    have hleft := hread el.left (by simp [hop, Op.arity])
    have hnew : s.stored.contains (el.result, el.right) = false := by
      have hstored := h.stored (el.result, el.right)
      simpa [hf.once hop] using hstored
    have hpasses : (s.written.contains el.left && decide (el.right < t.outputSizes.getD el.result 0) &&
        !s.stored.contains (el.result, el.right)) = true := by
      rw [hleft, hnew, decide_eq_true (hf.inside hop)]
      rfl
    exact ⟨_, if_pos hpasses, h.store hop⟩
  · next hop => exact hwrite (by simp [hop])
  · next hop => exact hwrite (by simp [hop])
  · next hop => exact hwrite (by simp [hop])
  · next hout _ _ _ =>
    rw [if_pos (List.all_eq_true.mpr fun slot hslot => hread slot hslot)]
    exact hwrite hout

theorem Progress.exists_foldlM {s : Progress} {before els : List (Element K)} (ho : t.Ordered (before ++ els))
    (h : s.After before) : ∃ s', els.foldlM (Progress.step t) s = some s' ∧ s'.After (before ++ els) := by
  induction els generalizing s before with
  | nil => exact ⟨s, rfl, by rwa [List.append_nil]⟩
  | cons el els ih =>
    obtain ⟨s₁, hstep, hafter⟩ := Progress.exists_step h (ho before el els rfl)
    obtain ⟨s₂, hrun, hend⟩ := ih (by simpa using ho) hafter
    exact ⟨s₂, by rw [List.foldlM_cons, hstep, Option.bind_eq_bind, Option.bind_some, hrun], by simpa using hend⟩

/-- Elements in order that store every output entry pass the check. -/
theorem isOrdered_of_ordered (ho : t.Ordered t.elements.toList)
    (hs : ∀ i n k, t.outputSizes[i]? = some n → k < n → t.elements.toList.countP (Stores (i,k)) ≠ 0) :
    t.isOrdered = true := by
  have hwhole : t.Ordered ([] ++ t.elements.toList) := ho
  obtain ⟨s, hrun, hafter⟩ := Progress.exists_foldlM hwhole .start
  rw [isOrdered, ← Array.foldlM_toList, hrun, Array.all_eq_true']
  rintro ⟨n, i⟩ hn
  rw [List.all_eq_true]
  intro k hk
  exact (hafter.stored (i,k)).mpr (hs i n k (Array.mk_mem_zipIdx_iff_getElem?.mp hn) (List.mem_range.mp hk))

end Order

section Compiled

variable {K : Type} [Number K] {inputs outputs : Array (Matrix (Expr K))} {places : Std.HashMap Nat (Nat × Nat)}
  {l : List (Node K)} {slot : Nat → Nat} {t : Tape K}

/-- Only constants have a value. -/
theorem value_elementAt (places : Std.HashMap Nat (Nat × Nat)) (slot : Nat → Nat) (free : Nat) (n : Node K) :
    (elementAt places slot free n).op = .const ∨ (elementAt places slot free n).value = Number.zero := by
  cases n with
  | store i k id => exact .inr rfl
  | expr e =>
    cases e with
    | symbol s =>
      rw [elementAt]
      split <;> exact .inr rfl
    | const i v => exact .inl rfl
    | unary i op a => exact .inr rfl
    | binary i op a b => exact .inr rfl

/-- Of a tape without free symbols each element may come after those before it. -/
theorem Compiled.ordered (hc : Compiled inputs outputs places l slot t)
    (hu : Expr.Coherent (Matrix.entries outputs)) (hfree : t.free = #[]) : t.Ordered t.elements.toList := by
  have hnone : freeAmong places (Order.exprs l) = [] := by rw [← hc.free, hfree]
  intro before el after heq
  have hreads := hc.reads_written hu heq
  rw [hc.elements, layout_eq_map places slot hnone] at heq
  obtain ⟨l₁, rest, hl, rfl, hrest⟩ := List.map_eq_append_iff.mp heq
  obtain ⟨n, l₂, rfl, rfl, -⟩ := List.map_eq_cons_iff.mp hrest
  have hmem (m : Node K) (hm : m ∈ l₁) : m ∈ l := by simp [hl, hm]
  have hn : n ∈ l := by simp [hl]
  have hproper := hc.complete.proper hu
  refine ⟨hreads, fun hop => ?_, (hc.within hu hfree hn 0).1.stores, fun hop => ?_⟩
  · cases n with
    | store i k id => exact absurd rfl hop
    | expr e =>
      rw [result_elementAt]
      exact hc.bound e (Order.mem_exprs.mpr hn)
  · cases n with
    | expr e => exact absurd hop (op_elementAt_expr places slot 0 (hproper _ hn))
    | store i k id =>
      refine List.countP_eq_zero.mpr fun d hd hstores => ?_
      obtain ⟨m, hm, rfl⟩ := List.mem_map.mp hd
      cases m with
      | expr e => exact op_elementAt_expr places slot 0 (hproper _ (hmem _ hm)) (by simp_all [Stores])
      | store i' k' id' =>
        obtain ⟨rfl, rfl⟩ : i' = i ∧ k' = k := by simpa [Stores, elementAt] using hstores
        obtain ⟨m₁, m₂, rfl⟩ := List.append_of_mem hm
        have hsplit : l = m₁ ++ .store i' k' id' :: (m₂ ++ .store i' k' id :: l₂) := by simp [hl]
        exact hc.complete.stored_once hsplit id (by simp [Order.mem_stores])

/-- A tape without free symbols passes the checks of the reader. -/
theorem Compiled.isOrdered (hc : Compiled inputs outputs places l slot t)
    (hu : Expr.Coherent (Matrix.entries outputs)) (hfree : t.free = #[]) : t.isOrdered = true := by
  have hcovers : t.Covers t.outputSizes := hc.covers fun i n hn => by
    rw [hc.outputSizes, Array.getElem?_map] at hn
    obtain ⟨m, hm, rfl⟩ := Option.map_eq_some_iff.mp hn
    exact ⟨m, hm, Nat.le_refl _⟩
  refine isOrdered_of_ordered (hc.ordered hu hfree) fun i n k hn hk hcount => ?_
  obtain ⟨el, hel, hop, hresult, hright⟩ := hcovers i k n hn hk
  refine List.countP_eq_zero.mp hcount el (Array.mem_toList_iff.mpr hel) ?_
  simp [Stores, hop, hresult, hright]

/-- The columns of a tape without free symbols are accepted as that tape. -/
theorem ofRecord_eq {r : Record K} (hw : t.InWords) (hc : Compiled inputs outputs places l slot t)
    (hu : Expr.Coherent (Matrix.entries outputs)) (hfree : t.free = #[])
    (hr : Columns.ofRecord? r = some t.columns) : ofRecord r = .ok t := by
  have hinside := hc.inside hu hfree
  have hrebuilt : (⟨t.columns.elements, t.columns.worksize, t.columns.inputSizes, t.columns.outputSizes, #[]⟩ :
      Tape K) = t := by
    rw [elements_columns, ← hfree]
    rfl
  have hlengths : ¬(t.columns.operands.size ≠ t.columns.ops.size || t.columns.results.size ≠ t.columns.ops.size ||
      t.columns.values.size ≠ t.columns.ops.size) = true := by simp [columns]
  have hclosed : ¬t.columns.ops.contains .parameter = true := by
    rw [Array.contains_iff_mem]
    intro hmem
    obtain ⟨el, hel, hop⟩ := Array.mem_map.mp hmem
    exact (hinside.within el hel).closed hop
  have hloads : t.loadsInRange = true := Array.all_eq_true'.mpr fun el hel => by
    by_cases hop : el.op = .input
    · simpa [hop] using (hinside.within el hel).loads hop
    · simp [hop]
  have hroom : t.hasRoom = true := by
    have hslots := hw.slots
    simp only [hasRoom, Count.hasRoom, Nat.mul_one, Bool.and_eq_true, decide_eq_true_eq, Array.all_eq_true']
    exact ⟨hslots, fun n hn => hw.outputs n hn⟩
  rw [ofRecord, hr]
  dsimp only
  rw [if_neg hlengths, if_neg hclosed, hrebuilt, hloads, hroom, hc.isOrdered hu hfree]
  rfl

end Compiled

/-- A tape that is made from a graph can be stored exactly if it has no free symbols, and then what is stored is
accepted exactly if every constant is finite, as the tape that it was. -/
theorem ofRecord_record {K : Type} [Number K] {inputs outputs : Array (Matrix (Expr K))} {live : Bool}
    {sorting : Sorting} {t : Tape K} (ht : ofGraph inputs outputs live sorting = .ok t)
    (hu : Expr.Coherent (Matrix.entries outputs)) (hzero : Number.finite (Number.zero : K) = true) (hw : t.InWords) :
    ((∃ r, t.record = .ok r) ↔ t.free = #[]) ∧
    ∀ r, t.record = .ok r →
      ((∃ t', ofRecord r = .ok t') ↔ ∀ el ∈ t.elements, el.op = .const → Number.finite el.value = true) ∧
      ∀ t', ofRecord r = .ok t' → t' = t := by
  obtain ⟨places, slot, hc⟩ := ofGraph_compiled hu ht
  refine ⟨⟨fun hr => ?_, fun hfree => ⟨_, record_eq_ok_iff.mpr ⟨hfree, rfl⟩⟩⟩, fun r hr => ?_⟩
  · obtain ⟨r, hr⟩ := hr
    exact (record_eq_ok_iff.mp hr).1
  obtain ⟨hfree, rfl⟩ := record_eq_ok_iff.mp hr
  have haccepted (hfinite : ∀ el ∈ t.elements, el.op = .const → Number.finite el.value = true) :
      ofRecord (.fields t.stored) = .ok t := by
    refine ofRecord_eq hw hc hu hfree (ofRecord?_stored hw fun el hel => ?_)
    obtain ⟨free, n, -, rfl⟩ := hc.node hel
    obtain hconst | hvalue := value_elementAt places slot free n
    · exact hfinite _ hel hconst
    · rw [hvalue, hzero]
  have hrefused {t' : Tape K} (ht' : ofRecord (.fields t.stored) = .ok t') :
      ∀ el ∈ t.elements, el.op = .const → Number.finite el.value = true := by
    intro el hel _
    by_contra hvalue
    rw [ofRecord, ofRecord?_stored_eq_none hel (by simpa using hvalue)] at ht'
    cases ht'
  refine ⟨⟨fun ht' => ?_, fun hfinite => ⟨t, haccepted hfinite⟩⟩,
    fun t' ht' => Except.ok.inj (ht'.symm.trans (haccepted (hrefused ht')))⟩
  obtain ⟨t', ht'⟩ := ht'
  exact hrefused ht'

/-- The sum of a symbol and five, which takes the slot of the symbol. -/
theorem ofRecord_record_sum :
    let outputs : Array (Matrix (Expr ℚ)) := #[.scalar (.binary 3 .add (.symbol ⟨0,"x"⟩) (.const 2 5))]
    ∃ t, ofGraph sampleInputs outputs true .depthFirst = .ok t ∧ Expr.Coherent (Matrix.entries outputs) ∧ t.InWords ∧
      t.worksize = 2 ∧ ∃ r, t.record = .ok r ∧ ofRecord r = .ok t := by
  intro outputs
  have ht : ofGraph sampleInputs outputs true .depthFirst = .ok
      ⟨#[⟨.input, 0, 0, 0, 0⟩, ⟨.const, 1, 0, 0, 5⟩, ⟨.add, 0, 0, 1, 0⟩, ⟨.output, 0, 0, 0, 0⟩],
        2, #[2], #[1], #[]⟩ := by cbv
  have hu : Expr.Coherent (Matrix.entries outputs) := by
    have hleaves := (Expr.Built.nil (K := ℚ) 0).symbol "x" |>.symbol "y" |>.const 5
    have hsum := hleaves.apply (show Op.add.isStructural = false from rfl) (a := .symbol ⟨0,"x"⟩) (b := .const 2 5)
      (.tail _ (.tail _ (.head _))) (.head _)
    refine hsum.coherent fun e he => ?_
    obtain rfl : e = _ := by simpa [outputs, Matrix.entries, Matrix.scalar] using he
    exact .head _
  have hw : InWords (K := ℚ) ⟨#[⟨.input, 0, 0, 0, 0⟩, ⟨.const, 1, 0, 0, 5⟩, ⟨.add, 0, 0, 1, 0⟩, ⟨.output, 0, 0, 0, 0⟩],
      2, #[2], #[1], #[]⟩ := by
    constructor <;> simp
  obtain ⟨hrecorded, hread⟩ := ofRecord_record ht hu rfl hw
  obtain ⟨r, hr⟩ := hrecorded.mpr rfl
  obtain ⟨haccepted, hsame⟩ := hread r hr
  obtain ⟨t, hread⟩ := haccepted.mpr fun _ _ _ => rfl
  obtain rfl := hsame t hread
  exact ⟨_, ht, hu, hw, rfl, r, hr, hread⟩

end Tape

end Fluxion
