import Fluxion.Proofs.Tape.Beside
import Fluxion.Proofs.Tape.Sparsity
import Fluxion.Proofs.Tape.Symbolic

/-!
Tapes that are made from a graph. Every output entry is stored, every slot and entry that an element
names is there, and what an element reads is written before it, so a replay over buffers of the right sizes
breaks no precondition.
-/
set_option autoImplicit false

namespace Fluxion.Tape

variable {K : Type}

/-- All places that the elements name are there. -/
structure Inside (t : Tape K) : Prop where
  within : ∀ el ∈ t.elements, t.Within el
  second : t.SecondSlots t.elements.toList

variable [Number K]

section Compiled

variable {inputs outputs : Array (Matrix (Expr K))} {places : Std.HashMap Nat (Nat × Nat)} {l : List (Node K)}
  {slot : Nat → Nat} {t : Tape K}

/-- An element is that of a node. -/
theorem Compiled.node (hc : Compiled inputs outputs places l slot t) {el : Element K} (hel : el ∈ t.elements) :
    ∃ free, ∃ n ∈ l, el = elementAt places slot free n := by
  rw [← Array.mem_toList_iff, hc.elements] at hel
  obtain ⟨p, hp⟩ := List.mem_iff_getElem?.mp hel
  rw [layout_getElem?] at hp
  obtain ⟨n, hn, rfl⟩ := Option.map_eq_some_iff.mp hp
  exact ⟨_, n, List.mem_of_getElem? hn, rfl⟩

/-- Before an element of the tape stand those that write what its node reads. -/
theorem Compiled.written (hc : Compiled inputs outputs places l slot t) (hu : Expr.Coherent (Matrix.entries outputs))
    {front back : List (Element K)} {el : Element K} (heq : t.elements.toList = front ++ el :: back) :
    ∃ free n, n ∈ l ∧ el = elementAt places slot free n ∧ ∀ id ∈ n.reads, Written front (slot id) := by
  have hat (p : Nat) : (front ++ el :: back)[p]? =
      l[p]?.map (elementAt places slot (freeAmong places (Order.exprs (l.take p))).length) := by
    rw [← heq, hc.elements, layout_getElem?]
  have hel := hat front.length
  rw [List.getElem?_append_right (Nat.le_refl _), Nat.sub_self, List.getElem?_cons_zero] at hel
  obtain ⟨n, hn, rfl⟩ := Option.map_eq_some_iff.mp hel.symm
  refine ⟨_, n, List.mem_of_getElem? hn, rfl, fun id hid => ?_⟩
  obtain ⟨a, ha, rfl⟩ := hc.complete.placed.reads hn hid
  obtain ⟨p, hp⟩ := List.mem_iff_getElem?.mp (Order.mem_exprs.mp ha)
  have hlt : p < front.length := by
    have hlength := (List.getElem?_eq_some_iff.mp hp).1
    rw [List.length_take] at hlength
    omega
  rw [List.getElem?_take_of_lt hlt] at hp
  have hwriter := hat p
  rw [List.getElem?_append_left hlt, hp] at hwriter
  have hproper := hc.complete.proper hu _ (List.mem_of_getElem? hp)
  exact ⟨_, List.mem_of_getElem? hwriter, op_elementAt_expr places slot _ hproper, result_elementAt places slot _ a⟩

theorem Compiled.reads_written (hc : Compiled inputs outputs places l slot t)
    (hu : Expr.Coherent (Matrix.entries outputs)) {front back : List (Element K)} {el : Element K}
    (heq : t.elements.toList = front ++ el :: back) : ∀ s ∈ Slots.reads el, Written front s := by
  obtain ⟨free, n, hn, rfl, hwritten⟩ := hc.written hu heq
  intro s hs
  rw [reads_elementAt places slot free (hc.complete.proper hu n hn)] at hs
  obtain ⟨id, hid, rfl⟩ := List.mem_map.mp hs
  exact hwritten id hid

theorem Compiled.covers (hc : Compiled inputs outputs places l slot t) {outs : Array Nat}
    (h : ∀ (i n : Nat), outs[i]? = some n → ∃ m : Matrix (Expr K), outputs[i]? = some m ∧ n ≤ m.nnz) : t.Covers outs := by
  intro i k n hn hk
  obtain ⟨m, hm, hle⟩ := h i n hn
  have hk' : k < m.values.size := Nat.lt_of_lt_of_le hk hle
  have hstore : (i,k,m.values[k].id) ∈ Order.stores l := by
    rw [hc.complete.stores_eq]
    exact List.mem_map.mpr ⟨(i,k,m.values[k]),
      Order.mem_targets.mpr ⟨m, hm, Array.getElem?_eq_getElem hk'⟩, rfl⟩
  obtain ⟨p, hp⟩ := List.mem_iff_getElem?.mp (Order.mem_stores.mp hstore)
  have hel := layout_getElem? places slot l p
  rw [hp, ← hc.elements] at hel
  exact ⟨_, Array.mem_toList_iff.mp (List.mem_of_getElem? hel), rfl, rfl, rfl⟩

/-- The slot of an operand is there. -/
theorem Compiled.operand_lt (hc : Compiled inputs outputs places l slot t) {e a : Expr K}
    (he : Node.expr e ∈ l) (ha : a ∈ e.operands) : slot a.id < t.worksize := by
  obtain ⟨l₁, l₂, hl⟩ := List.append_of_mem he
  refine hc.bound a (hc.complete.placed.mem_of_reaches (Order.mem_exprs.mpr he) (.operand ha))

theorem Compiled.within (hc : Compiled inputs outputs places l slot t)
    (hu : Expr.Coherent (Matrix.entries outputs)) (hfree : t.free = #[]) {n : Node K} (hn : n ∈ l) (free : Nat) :
    t.Within (elementAt places slot free n) ∧ ((elementAt places slot free n).op.isStructural = false →
      (elementAt places slot free n).right < t.worksize) := by
  have hnone : freeAmong places (Order.exprs l) = [] := by rw [← hc.free, hfree]
  cases n with
  | store i k id =>
    obtain ⟨l₁, l₂, hl⟩ := List.append_of_mem hn
    obtain ⟨e, he, ht, rfl⟩ := hc.complete.store hu hl
    obtain ⟨m, hm, hk⟩ := Order.mem_targets.mp ht
    have hlt := (Array.getElem?_eq_some_iff.mp hk).1
    refine ⟨⟨fun s hs => ?_, fun _ => ?_, by simp [elementAt], by simp [elementAt]⟩, by simp [elementAt, Op.isStructural]⟩
    · obtain rfl : s = slot e.id := by simpa [elementAt, Op.arity] using hs
      exact hc.bound e (by simp [hl, he])
    · rw [hc.outputSizes]
      simpa [elementAt, Array.getD_eq_getD_getElem?, hm, Matrix.nnz] using hlt
  | expr e =>
    have hproper := hc.complete.proper hu _ hn
    have hoperand := fun a ha => hc.operand_lt (a := a) hn ha
    cases e with
    | const i v =>
      exact ⟨⟨by simp [elementAt, Op.arity], by simp [elementAt], by simp [elementAt], by simp [elementAt]⟩,
        by simp [elementAt, Op.isStructural]⟩
    | symbol s =>
      obtain ⟨i, k, hp⟩ := exists_place hnone (Order.mem_exprs.mpr hn)
      obtain ⟨e, ht, -⟩ := hc.placed.mem s.id i k hp
      obtain ⟨m, hm, hk⟩ := Order.mem_targets.mp ht
      have hlt := (Array.getElem?_eq_some_iff.mp hk).1
      refine ⟨⟨by simp [elementAt, hp, Op.arity], by simp [elementAt, hp], fun _ => ?_, by simp [elementAt, hp]⟩,
        by simp [elementAt, hp, Op.isStructural]⟩
      rw [hc.inputSizes]
      simpa [elementAt, hp, Array.getD_eq_getD_getElem?, hm, Matrix.nnz] using hlt
    | unary i op a =>
      have ha := hoperand a (by simp [Expr.operands])
      obtain ⟨hop, harity, -⟩ := hproper
      refine ⟨⟨fun s hs => ?_, ?_, ?_, ?_⟩, fun _ => ha⟩
      · obtain rfl : s = slot a.id := by simpa [elementAt, harity] using hs
        exact ha
      all_goals
        rintro rfl
        cases hop
    | binary i op a b =>
      have ha := hoperand a (by simp [Expr.operands])
      have hb := hoperand b (by simp [Expr.operands])
      have hop := Op.isStructural_of_arity hproper.1
      refine ⟨⟨fun s hs => ?_, ?_, ?_, ?_⟩, fun _ => hb⟩
      · obtain rfl | rfl : s = slot a.id ∨ s = slot b.id := by simpa [elementAt, hproper.1] using hs
        · exact ha
        · exact hb
      all_goals
        rintro rfl
        cases hop

/-- Where no symbol is free. -/
theorem Compiled.inside (hc : Compiled inputs outputs places l slot t)
    (hu : Expr.Coherent (Matrix.entries outputs)) (hfree : t.free = #[]) : t.Inside where
  within el hel := by
    obtain ⟨free, n, hn, rfl⟩ := hc.node hel
    exact (hc.within hu hfree hn free).1
  second el hel := by
    obtain ⟨free, n, hn, rfl⟩ := hc.node (Array.mem_toList_iff.mp hel)
    exact (hc.within hu hfree hn free).2

end Compiled

section Replay

variable {t : Tape K} {s : Replay K} {el : Element K}

/-- A replay that goes on, or stops with a fault that is no violation. -/
def Goes {α : Type} (P : α → Prop) : Except (Stopped K) α → Prop
  | .ok x => P x
  | .error s => ∀ c, s.fault ≠ .violation c

theorem step_goes (hel : t.Within el) (hright : el.op.isStructural = false → el.right < t.worksize)
    (taping : Bool) (hs : t.Fits s) : Goes t.Fits (Replay.step .numeric t taping s el).run := by
  obtain ⟨s', hrun, hs'⟩ := step_within hel hs hright
  have hplain : Goes t.Fits (Replay.step .numeric t false s el).run := by
    rw [hrun]
    exact hs'
  cases taping with
  | false => exact hplain
  | true =>
    cases hop : el.op.isStructural with
    | false =>
      have hleft : el.left < s.work.size := by
        rw [hs.work]
        exact hel.left hop
      have hsecond : el.right < s.work.size := by
        rw [hs.work]
        exact hright hop
      rw [Replay.step_eq _ hop, Array.getElem?_eq_getElem hleft, Array.getElem?_eq_getElem hsecond]
      change Goes t.Fits (Replay.taped s el _ _).run
      unfold Replay.taped
      split
      · exact ⟨Array.size_setIfInBounds.trans hs.work, hs.input, hs.output⟩
      · exact fun c hc => by cases hc
    | true =>
      have hsame : Replay.step (.numeric : Arithmetic K K Id) t true s el = Replay.step .numeric t false s el := by
        unfold Replay.step
        cases ho : el.op <;> first
          | rfl
          | rw [ho] at hop; cases hop
      rw [hsame]
      exact hplain

theorem foldlM_goes {els : List (Element K)} (hels : ∀ el ∈ els, t.Within el) (hright : t.SecondSlots els)
    (taping : Bool) (hs : t.Fits s) : Goes t.Fits (els.foldlM (Replay.step .numeric t taping) s).run := by
  induction els generalizing s with
  | nil => exact hs
  | cons el els ih =>
    have hstep := step_goes (hels el (by simp)) (hright el (by simp)) taping hs
    rw [List.foldlM_cons, ExceptT.run_bind]
    cases hr : (Replay.step (.numeric : Arithmetic K K Id) t taping s el).run with
    | ok s' =>
      rw [hr] at hstep
      exact ih (fun d hd => hels d (by simp [hd])) (fun d hd => hright d (by simp [hd])) hstep
    | error e =>
      rw [hr] at hstep
      exact hstep

/-- An evaluation breaks no precondition. -/
theorem Inside.evaluate (h : t.Inside) {b : Buffers K} (hin : b.input.sizes = t.inputSizes)
    (hout : b.output.sizes = t.outputSizes) (f a : Nat) :
    Goes (fun _ => True) (t.evaluate .numeric b f a).run := by
  have hpass : t.forwardPass (.numeric : Arithmetic K K Id) (0 < f || 0 < a) b =
      t.elements.toList.foldlM (Replay.step .numeric t (0 < f || 0 < a))
        ⟨.replicate t.worksize (Number.zero : K), #[], b⟩ := by
    rw [Array.foldlM_toList]
    rfl
  have hgoes := foldlM_goes (fun el hel => h.within el (Array.mem_toList_iff.mp hel)) h.second
    (0 < f || 0 < a) (s := ⟨.replicate t.worksize (Number.zero : K), #[], b⟩) ⟨Array.size_replicate, hin, hout⟩
  rw [← hpass] at hgoes
  rw [Tape.evaluate, ExceptT.run_bind]
  cases hr : (t.forwardPass (.numeric : Arithmetic K K Id) (0 < f || 0 < a) b).run with
  | ok r => trivial
  | error e =>
    rw [hr] at hgoes
    exact hgoes

end Replay

end Fluxion.Tape
