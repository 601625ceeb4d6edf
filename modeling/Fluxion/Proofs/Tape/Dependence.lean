import Fluxion.Proofs.Detect.Words
import Fluxion.Proofs.Tape.Products
import Fluxion.Proofs.Tape.Values
import Fluxion.Tape.Dependence

/-!
Dependency words through a tape. A forward pass joins the words of the symbols below each output, and a
reverse pass brings to each input the words of the outputs above it, so both carry words through one
pattern: an output depends on the inputs that it reaches.
-/
set_option autoImplicit false

namespace Fluxion

variable {K : Type}

namespace Expr

/-- Whether a symbol with the given number occurs. -/
def uses (id : Nat) : Expr K → Bool
  | symbol s => s.id == id
  | const _ _ => false
  | unary _ _ a => a.uses id
  | binary _ _ a b => a.uses id || b.uses id

theorem uses_iff {id : Nat} {e : Expr K} : e.uses id = true ↔ ∃ s, Reaches (.symbol s) e ∧ s.id = id := by
  induction e with
  | symbol s => simp [uses, Reaches]
  | const i v => simp [uses, Reaches]
  | unary i op a ih => simp [uses, Reaches, ih]
  | binary i op a b iha ihb => simp [uses, Reaches, iha, ihb, or_and_right, exists_or]

/-- The words of all symbols, joined. -/
def word (ω : Symbol → Word) : Expr K → Word
  | symbol s => ω s
  | const _ _ => 0
  | unary _ _ a => a.word ω
  | binary _ _ a b => a.word ω ||| b.word ω

theorem test_word {ω : Symbol → Word} {e : Expr K} {j : Nat} (hj : j < Word.size) :
    (e.word ω).test j = true ↔ ∃ s, Reaches (.symbol s) e ∧ (ω s).test j = true := by
  induction e with
  | symbol s => simp [word, Reaches]
  | const i v => simp [word, Reaches]
  | unary i op a ih => simp [word, Reaches, ih]
  | binary i op a b iha ihb =>
    simp [word, Reaches, Word.test_or _ _ hj, iha, ihb, or_and_right, exists_or]

end Expr

namespace Tape

section Flow

variable {f : Flow} {input output : Block Word} {el : Element K}

theorem Flow.forward_operation (hop : el.op.isStructural = false) :
    f.forward input el = f.write el.result (f.at el.left ||| f.at el.right) := by
  obtain ⟨op, result, left, right, v⟩ := el
  cases op
  case input | output | const | parameter => cases hop
  all_goals rfl

theorem Flow.reverse_operation (hop : el.op.isStructural = false) :
    f.reverse output el =
      ((f.write el.result 0).join el.left (f.at el.result)).join el.right (f.at el.result) := by
  obtain ⟨op, result, left, right, v⟩ := el
  cases op
  case input | output | const | parameter => cases hop
  all_goals rfl

theorem Flow.at_eq {s : Nat} {w : Word} (h : f.work[s]? = some w) : f.at s = w := by
  simp [Flow.at, Array.getD_eq_getD_getElem?, h]

theorem Flow.at_write {s : Nat} (hs : s < f.work.size) (w : Word) (r : Nat) :
    (f.write s w).at r = if s = r then w else f.at r := by
  by_cases h : s = r
  · subst h
    simp [Flow.at, Flow.write, Array.getD_eq_getD_getElem?, hs]
  · simp [Flow.at, Flow.write, Array.getD_eq_getD_getElem?, h]

theorem Flow.at_join {s : Nat} (hs : s < f.work.size) (w : Word) (r : Nat) :
    (f.join s w).at r = if s = r then f.at r ||| w else f.at r := by
  by_cases h : s = r
  · subst h
    simp [Flow.at, Flow.join, Array.getD_eq_getD_getElem?, Array.getElem_modify, hs]
  · simp [Flow.at, Flow.join, Array.getD_eq_getD_getElem?, Array.getElem?_modify, h]

end Flow

variable [Number K] {inputs outputs : Array (Matrix (Expr K))} {places : Std.HashMap Nat (Nat × Nat)}
  {l l₁ l₂ : List (Node K)} {slot : Nat → Nat} {t : Tape K}

theorem Flow.forward_elementAt (input : Block Word) (f : Flow) (free : Nat) (n : Node K) :
    f.forward input (elementAt places slot free n) = f.forward input (elementAt places slot 0 n) := by
  cases n with
  | store i k id => rfl
  | expr e =>
    cases e with
    | symbol s => cases hs : places[s.id]? <;> simp only [elementAt, hs, Flow.forward]
    | _ => rfl

theorem Flow.reverse_elementAt (output : Block Word) (f : Flow) (free : Nat) (n : Node K) :
    f.reverse output (elementAt places slot free n) = f.reverse output (elementAt places slot 0 n) := by
  cases n with
  | store i k id => rfl
  | expr e =>
    cases e with
    | symbol s => cases hs : places[s.id]? <;> simp only [elementAt, hs, Flow.reverse]
    | _ => rfl

section Forward

variable {ω : Symbol → Word} {input before : Block Word} {f : Flow}

/-- The word of every symbol that is an input, and nothing for the others. -/
def Brings (places : Std.HashMap Nat (Nat × Nat)) (ω : Symbol → Word) (input : Block Word) : Prop :=
  ∀ s, match places[s.id]? with
    | some (i,k) => input.get? i k = some (ω s)
    | none => ω s = 0

theorem brings_valuation (hc : Compiled inputs outputs places l slot t)
    (hx : input.sizes = inputs.map Matrix.nnz) : Brings places (valuation 0 inputs input) input := by
  intro s
  split
  · next i k hp =>
    obtain ⟨e, he, hid⟩ := hc.placed.mem _ i k hp
    exact valuation_eq hc.placed.distinct 0 hx he hid
  · next hp =>
    have hnone : (Order.targets inputs).find? (fun t => t.2.2.id == s.id) = none := by
      rw [List.find?_eq_none]
      rintro ⟨i, k, e⟩ he hid
      have hplace := hc.placed.get i k e he
      rw [eq_of_beq hid, hp] at hplace
      cases hplace
    rw [valuation, hnone]

/-- A forward pass between the nodes `l₁` and `l₂`. -/
structure Flowing (outputs : Array (Matrix (Expr K))) (slot : Nat → Nat) (t : Tape K)
    (ω : Symbol → Word) (before : Block Word) (l₁ l₂ : List (Node K)) (f : Flow) : Prop where
  size : f.work.size = t.worksize
  holds : Holds slot (fun e w => w = e.word ω) l₁ l₂ f.work
  stored : Stored outputs (fun e w => w = e.word ω) l₁ before f.reached

theorem forward_word (hc : Compiled inputs outputs places l slot t) (hs : Brings places ω input)
    {e : Expr K} (he : e.Proper) (hl : l = l₁ ++ .expr e :: l₂)
    (h : Flowing outputs slot t ω before l₁ (.expr e :: l₂) f) :
    f.forward input (elementAt places slot 0 (.expr e)) = f.write (slot e.id) (e.word ω) := by
  cases e with
  | symbol y =>
    have hy := hs y
    cases hp : places[y.id]? with
    | none =>
      rw [hp] at hy
      simp [elementAt, hp, Flow.forward, hy, Expr.word, Expr.id]
    | some p =>
      rw [hp] at hy
      simp [elementAt, hp, Flow.forward, hy, Expr.word, Expr.id]
  | const i v => simp [elementAt, Flow.forward, Expr.word, Expr.id]
  | unary i op a =>
    obtain ⟨x, hx, rfl⟩ := h.holds.operand hc hl (a := a) (by simp [Expr.operands])
    change f.forward input ⟨op, slot i, slot a.id, slot a.id, Number.zero⟩ =
      f.write (slot i) (a.word ω)
    rw [Flow.forward_operation he.1, Flow.at_eq hx, UInt64.or_self]
  | binary i op a b =>
    obtain ⟨x, hx, rfl⟩ := h.holds.operand hc hl (a := a) (by simp [Expr.operands])
    obtain ⟨y, hy, rfl⟩ := h.holds.operand hc hl (a := b) (by simp [Expr.operands])
    change f.forward input ⟨op, slot i, slot a.id, slot b.id, Number.zero⟩ =
      f.write (slot i) (a.word ω ||| b.word ω)
    rw [Flow.forward_operation (Op.isStructural_of_arity he.1), Flow.at_eq hx, Flow.at_eq hy]

theorem foldl_forward (hc : Compiled inputs outputs places l slot t)
    (hu : Expr.Coherent (Matrix.entries outputs)) (hb : before.sizes = outputs.map Matrix.nnz)
    (hs : Brings places ω input) (hl : l = l₁ ++ l₂)
    (h : Flowing outputs slot t ω before l₁ l₂ f) :
    Flowing outputs slot t ω before l []
      ((l₂.map (elementAt places slot 0)).foldl (Flow.forward input) f) := by
  induction l₂ generalizing l₁ f with
  | nil =>
    rw [List.append_nil] at hl
    subst hl
    exact h
  | cons n l₂ ih =>
    rw [List.map_cons, List.foldl_cons]
    cases n with
    | expr e =>
      have he : e.Proper := hc.complete.proper hu (.expr e) (by rw [hl]; simp)
      rw [forward_word hc hs he hl h]
      exact ih (show l = (l₁ ++ [.expr e]) ++ l₂ by simpa using hl)
        ⟨by simpa [Flow.write] using h.size, h.holds.expr hc hl h.size rfl, h.stored.expr e⟩
    | store i k id =>
      obtain ⟨e, ht, rfl, x, hx, rfl⟩ := h.holds.target hc hu hl
      have hstep : f.forward input (elementAt places slot 0 (.store i k e.id) : Element K) =
          {f with reached := f.reached.set i k (e.word ω)} := by
        simp [elementAt, Flow.forward, Flow.at_eq hx]
      rw [hstep]
      exact ih (show l = (l₁ ++ [.store i k e.id]) ++ l₂ by simpa using hl)
        ⟨h.size, h.holds.store, h.stored.store hb ht rfl⟩

/-- A forward pass gives every output entry the words of the symbols that it reaches. -/
theorem propagateForward_eq (hc : Compiled inputs outputs places l slot t)
    (hu : Expr.Coherent (Matrix.entries outputs)) (hs : Brings places ω input) :
    (t.propagateForward (outputs.map Matrix.nnz) input).reached =
      Block.ofEntries (Expr.word ω) outputs := by
  have hb : (Block.filled (outputs.map Matrix.nnz) (0 : Word)).sizes = outputs.map Matrix.nnz :=
    Block.sizes_filled _ _
  have h := foldl_forward hc hu hb hs (List.nil_append l).symm
    (f := ⟨.replicate t.worksize 0, .filled (outputs.map Matrix.nnz) 0⟩)
    ⟨by simp, holds_nil _ _ _ _, .refl _ _ _⟩
  have hlayout := map_layout (f := fun el f => Flow.forward input f el) places slot l
    fun free n => funext fun f => Flow.forward_elementAt input f free n
  have hfold := congrArg (List.foldl (fun f step => step f)
    (⟨.replicate t.worksize 0, .filled (outputs.map Matrix.nnz) 0⟩ : Flow)) hlayout
  rw [List.foldl_map, List.foldl_map, ← hc.elements, Array.foldl_toList] at hfold
  rw [← hfold] at h
  exact h.stored.finish hc hb

end Forward

section Reverse

variable {w : Block Word} {f : Flow} {j : Nat}

/-- Bit `j` stands at an output entry that the expression is part of. -/
def Feeds (outputs : Array (Matrix (Expr K))) (w : Block Word) (j : Nat) (e : Expr K) : Prop :=
  ∃ i k d, (i,k,d) ∈ Order.targets outputs ∧ Expr.Reaches e d ∧ ((w.get? i k).getD 0).test j = true

/-- The same for what a node computes or stores. -/
def NodeFeeds (outputs : Array (Matrix (Expr K))) (w : Block Word) (j : Nat) : Node K → Prop
  | .expr e => Feeds outputs w j e
  | .store i k _ => ((w.get? i k).getD 0).test j = true

/-- Bit `j` comes back to `e` through a node of the list. -/
def Demanded (outputs : Array (Matrix (Expr K))) (w : Block Word) (j : Nat) (l : List (Node K))
    (e : Expr K) : Prop :=
  ∃ n ∈ l, e.id ∈ n.reads ∧ NodeFeeds outputs w j n

omit [Number K] in
theorem demanded_cons {n : Node K} {e : Expr K} :
    Demanded outputs w j (n :: l) e ↔
      (e.id ∈ n.reads ∧ NodeFeeds outputs w j n) ∨ Demanded outputs w j l e := by
  simp [Demanded]

omit [Number K] in
/-- Every node that reads an expression stands after it. -/
theorem mem_of_reads (hc : Order.Complete outputs l) {e : Expr K} (hl : l = l₁ ++ .expr e :: l₂)
    {n : Node K} (hn : n ∈ l) (hr : e.id ∈ n.reads) : n ∈ l₂ := by
  obtain ⟨p, hp⟩ := List.mem_iff_getElem?.mp hn
  by_cases hle : p ≤ l₁.length
  · obtain ⟨a, ha, hid⟩ := hc.placed.reads hp hr
    have hmem : a ∈ Order.exprs l₁ := by
      rw [hl, List.take_append_of_le_length hle] at ha
      exact Order.mem_exprs.mpr (List.mem_of_mem_take (Order.mem_exprs.mp ha))
    exact absurd hid (hc.placed_once hl (.inl hmem))
  · rw [hl, List.getElem?_append_right (by omega)] at hp
    obtain ⟨q, hq⟩ : ∃ q, p-l₁.length = q+1 := ⟨p-l₁.length-1, by omega⟩
    rw [hq, List.getElem?_cons_succ] at hp
    exact List.mem_of_getElem? hp

omit [Number K] in
/-- What an expression is part of comes back to it through the nodes after it, and nothing else does. -/
theorem demanded_iff (hc : Order.Complete outputs l) (hu : Expr.Coherent (Matrix.entries outputs))
    {e : Expr K} (hl : l = l₁ ++ .expr e :: l₂) :
    Demanded outputs w j l₂ e ↔ Feeds outputs w j e := by
  have he : Expr.ReachedFrom (Matrix.entries outputs) e := (hc.mem_exprs e).mp (by rw [hl]; simp)
  constructor
  · rintro ⟨n, hn, hr, hw⟩
    have hnl : n ∈ l := by
      rw [hl]
      exact List.mem_append_right _ (List.mem_cons_of_mem _ hn)
    cases n with
    | store i k id =>
      obtain rfl : e.id = id := by simpa [Node.reads] using hr
      obtain ⟨m₁, m₂, hm⟩ := List.append_of_mem hnl
      obtain ⟨d, -, ht, hid⟩ := hc.store hu hm
      obtain rfl := hu.unique d e (.root (Order.mem_targets_entries ht)) he hid
      exact ⟨i, k, d, ht, .refl d, hw⟩
    | expr d =>
      obtain ⟨a, ha, hid⟩ := List.mem_map.mp hr
      have hd := (hc.mem_exprs d).mp (Order.mem_exprs.mpr hnl)
      obtain rfl := hu.unique a e (hd.operand ha) he hid
      obtain ⟨i, k, c, ht, hcd, hw⟩ := hw
      exact ⟨i, k, c, ht, (Expr.Reaches.operand ha).trans hcd, hw⟩
  · rintro ⟨i, k, d, ht, hed, hw⟩
    -- A path that ends here ends with the store of this expression; a longer one comes through a parent,
    -- which stands after it.
    obtain rfl | ⟨b, hbd, hb⟩ := hed.parent
    · have hmem : (i,k,e.id) ∈ Order.stores l := by
        rw [hc.stores_eq]
        exact List.mem_map.mpr ⟨_, ht, rfl⟩
      have hr : e.id ∈ (Node.store i k e.id : Node K).reads := by simp [Node.reads]
      exact ⟨_, mem_of_reads hc hl (Order.mem_stores.mp hmem) hr, hr, hw⟩
    · have hreach : Expr.ReachedFrom (Matrix.entries outputs) b :=
        .trans hbd (.root (Order.mem_targets_entries ht))
      have hmem := Order.mem_exprs.mp ((hc.mem_exprs b).mpr hreach)
      have hr : e.id ∈ (Node.expr b).reads := List.mem_map_of_mem hb
      exact ⟨_, mem_of_reads hc hl hmem hr, hr, i, k, d, ht, hbd, hw⟩

/-- A reverse pass that has done the nodes `l₂` and has the nodes `l₁` before it. -/
structure Returning (inputs outputs : Array (Matrix (Expr K))) (slot : Nat → Nat) (t : Tape K)
    (w : Block Word) (l₁ l₂ : List (Node K)) (f : Flow) : Prop where
  size : f.work.size = t.worksize
  work : ∀ s j, j < Word.size → ((f.at s).test j = true ↔
    ∃ e ∈ Order.exprs l₁, slot e.id = s ∧ Demanded outputs w j l₂ e)
  sizes : f.reached.sizes = inputs.map Matrix.nnz
  reached : ∀ i k d, (i,k,d) ∈ Order.targets inputs → ∀ j, j < Word.size →
    (((f.reached.get? i k).getD 0).test j = true ↔
      ∃ y, .symbol y ∈ Order.exprs l₂ ∧ y.id = d.id ∧ Feeds outputs w j (.symbol y))

/-- No node before that stands in the slot is still to be fed. -/
theorem not_demanded (hc : Compiled inputs outputs places l slot t) {e : Expr K}
    (hl : l = l₁ ++ .expr e :: l₂) {d : Expr K} (hd : d ∈ Order.exprs l₁)
    (hs : slot d.id = slot e.id) : ¬ Demanded outputs w j l₂ d := by
  rintro ⟨n, hn, hr, -⟩
  exact hc.apart l₁ e l₂ hl d hd n hn hr hs

theorem Returning.test_at (hc : Compiled inputs outputs places l slot t)
    (hu : Expr.Coherent (Matrix.entries outputs)) {e : Expr K} (hl : l = l₁ ++ .expr e :: l₂)
    (h : Returning inputs outputs slot t w (l₁ ++ [.expr e]) l₂ f) (hj : j < Word.size) :
    (f.at (slot e.id)).test j = true ↔ Feeds outputs w j e := by
  rw [h.work _ _ hj, ← demanded_iff hc.complete hu hl]
  constructor
  · rintro ⟨d, hd, hs, hdem⟩
    rw [Order.exprs_append, List.mem_append] at hd
    obtain hd | hd := hd
    · exact absurd hdem (not_demanded hc hl hd hs)
    · obtain rfl : d = e := by simpa using hd
      exact hdem
  · intro hdem
    exact ⟨e, by simp, rfl, hdem⟩

theorem Returning.test_cleared (hc : Compiled inputs outputs places l slot t) {e : Expr K}
    (hl : l = l₁ ++ .expr e :: l₂) (h : Returning inputs outputs slot t w (l₁ ++ [.expr e]) l₂ f)
    (hj : j < Word.size) (s : Nat) :
    ((f.write (slot e.id) 0).at s).test j = true ↔
      ∃ d ∈ Order.exprs l₁, slot d.id = s ∧ Demanded outputs w j l₂ d := by
  have hb : slot e.id < f.work.size := by
    rw [h.size]
    exact hc.bound e (by rw [hl]; simp)
  rw [Flow.at_write hb]
  split
  · next hs =>
    rw [Word.test_zero]
    simp only [Bool.false_eq_true, false_iff]
    rintro ⟨d, hd, hds, hdem⟩
    exact not_demanded hc hl hd (hds.trans hs.symm) hdem
  · next hs =>
    rw [h.work _ _ hj]
    constructor
    · rintro ⟨d, hd, hds, hdem⟩
      rw [Order.exprs_append, List.mem_append] at hd
      obtain hd | hd := hd
      · exact ⟨d, hd, hds, hdem⟩
      · obtain rfl : d = e := by simpa using hd
        exact absurd hds hs
    · rintro ⟨d, hd, hds, hdem⟩
      exact ⟨d, by simp [hd], hds, hdem⟩

/-- The slots after a step that clears its own and adds what it feeds to those of its operands. -/
theorem Returning.test_expr (hc : Compiled inputs outputs places l slot t) {e : Expr K}
    (hl : l = l₁ ++ .expr e :: l₂) (h : Returning inputs outputs slot t w (l₁ ++ [.expr e]) l₂ f)
    (hj : j < Word.size) (s : Nat) :
    (((f.write (slot e.id) 0).at s).test j = true ∨
        ∃ a ∈ e.operands, slot a.id = s ∧ Feeds outputs w j e) ↔
      ∃ d ∈ Order.exprs l₁, slot d.id = s ∧ Demanded outputs w j (.expr e :: l₂) d := by
  rw [h.test_cleared hc hl hj]
  constructor
  · rintro (⟨d, hd, hs, hdem⟩ | ⟨a, ha, hs, hfeeds⟩)
    · exact ⟨d, hd, hs, demanded_cons.mpr (.inr hdem)⟩
    · exact ⟨a, hc.complete.operand hl ha, hs,
        demanded_cons.mpr (.inl ⟨List.mem_map_of_mem ha, hfeeds⟩)⟩
  · rintro ⟨d, hd, hs, hdem⟩
    obtain ⟨hr, hfeeds⟩ | hdem := demanded_cons.mp hdem
    · obtain ⟨a, ha, hid⟩ := List.mem_map.mp hr
      exact .inr ⟨a, ha, by rw [hid, hs], hfeeds⟩
    · exact .inl ⟨d, hd, hs, hdem⟩

theorem Flow.test_join {s : Nat} (hs : s < f.work.size) (x : Word) (r : Nat) (hj : j < Word.size) :
    ((f.join s x).at r).test j = true ↔ (f.at r).test j = true ∨ s = r ∧ x.test j = true := by
  rw [Flow.at_join hs]
  split
  · next h => simp [Word.test_or _ _ hj, h]
  · next h => simp [h]

omit [Number K] in
/-- A load of an input ends here, so only the other nodes leave the loaded entries as they were. -/
theorem Returning.unloaded {e : Expr K} (hleaf : ∀ y, e ≠ .symbol y)
    (h : Returning inputs outputs slot t w (l₁ ++ [.expr e]) l₂ f) {i k : Nat} {d : Expr K}
    (hd : (i,k,d) ∈ Order.targets inputs) (hj : j < Word.size) :
    ((f.reached.get? i k).getD 0).test j = true ↔
      ∃ y, .symbol y ∈ Order.exprs (.expr e :: l₂) ∧ y.id = d.id ∧ Feeds outputs w j (.symbol y) := by
  rw [h.reached i k d hd j hj]
  simp [Ne.symm (hleaf _)]

theorem Returning.operation (hc : Compiled inputs outputs places l slot t)
    (hu : Expr.Coherent (Matrix.entries outputs)) {e : Expr K} (he : e.op.isStructural = false)
    (hl : l = l₁ ++ .expr e :: l₂) (h : Returning inputs outputs slot t w (l₁ ++ [.expr e]) l₂ f) :
    Returning inputs outputs slot t w l₁ (.expr e :: l₂)
      (f.reverse w (elementAt places slot 0 (.expr e))) := by
  obtain ⟨a, b, hab, hel⟩ := elementAt_operation places slot he
  have hstep : f.reverse w (elementAt places slot 0 (.expr e)) =
      ((f.write (slot e.id) 0).join (slot a.id) (f.at (slot e.id))).join (slot b.id)
        (f.at (slot e.id)) := by
    rw [hel]
    exact Flow.reverse_operation he
  have hbound (d : Expr K) (hd : d ∈ e.operands) : slot d.id < t.worksize := by
    refine hc.bound d ?_
    rw [hl, Order.exprs_append]
    exact List.mem_append_left _ (hc.complete.operand hl hd)
  have ha : slot a.id < (f.write (slot e.id) 0).work.size := by
    simpa [Flow.write, h.size] using hbound a ((hab a).mpr (.inl rfl))
  have hb : slot b.id < ((f.write (slot e.id) 0).join (slot a.id) (f.at (slot e.id))).work.size := by
    simpa [Flow.write, Flow.join, h.size] using hbound b ((hab b).mpr (.inr rfl))
  have hleaf : ∀ y, e ≠ .symbol y := by
    rintro y rfl
    cases he
  rw [hstep]
  refine ⟨by simpa [Flow.write, Flow.join] using h.size, fun s j hj => ?_, h.sizes,
    fun i k d hd j hj => h.unloaded hleaf hd hj⟩
  rw [Flow.test_join hb _ _ hj, Flow.test_join ha _ _ hj, ← h.test_expr hc hl hj,
    h.test_at hc hu hl hj, or_assoc]
  simp [hab, or_and_right, exists_or]

theorem Returning.leaf (hc : Compiled inputs outputs places l slot t) {e : Expr K}
    (hleaf : e.operands = []) (hl : l = l₁ ++ .expr e :: l₂)
    (h : Returning inputs outputs slot t w (l₁ ++ [.expr e]) l₂ f) (s : Nat) (hj : j < Word.size) :
    ((f.write (slot e.id) 0).at s).test j = true ↔
      ∃ d ∈ Order.exprs l₁, slot d.id = s ∧ Demanded outputs w j (.expr e :: l₂) d := by
  rw [← h.test_expr hc hl hj]
  simp [hleaf]

theorem Returning.const (hc : Compiled inputs outputs places l slot t) {i : Nat} {v : K}
    (hl : l = l₁ ++ .expr (.const i v) :: l₂)
    (h : Returning inputs outputs slot t w (l₁ ++ [.expr (.const i v)]) l₂ f) :
    Returning inputs outputs slot t w l₁ (.expr (.const i v) :: l₂)
      (f.reverse w (elementAt places slot 0 (.expr (.const i v)))) := by
  refine ⟨?_, fun s j hj => h.leaf hc rfl hl s hj, h.sizes,
    fun i k d hd j hj => h.unloaded (fun y => by simp) hd hj⟩
  simpa [elementAt, Flow.reverse, Flow.write] using h.size

omit [Number K] in
/-- A symbol that is not asked for changes nothing. -/
theorem other_symbol {y : Symbol} {id : Nat} (hy : y.id ≠ id) :
    (∃ z, .symbol z ∈ Order.exprs l₂ ∧ z.id = id ∧ Feeds outputs w j (.symbol z)) ↔
      ∃ z, .symbol z ∈ Order.exprs (.expr (.symbol y) :: l₂) ∧ z.id = id ∧
        Feeds outputs w j (.symbol z) := by
  constructor
  · rintro ⟨z, hz, hzid, hfeeds⟩
    exact ⟨z, by simp [hz], hzid, hfeeds⟩
  · rintro ⟨z, hz, hzid, hfeeds⟩
    obtain rfl | hz : z = y ∨ .symbol z ∈ Order.exprs l₂ := by simpa using hz
    · exact absurd hzid hy
    · exact ⟨z, hz, hzid, hfeeds⟩

theorem Returning.input (hc : Compiled inputs outputs places l slot t)
    (hu : Expr.Coherent (Matrix.entries outputs)) {y : Symbol} {i k : Nat}
    (hl : l = l₁ ++ .expr (.symbol y) :: l₂) (hp : places[y.id]? = some (i,k))
    (h : Returning inputs outputs slot t w (l₁ ++ [.expr (.symbol y)]) l₂ f) :
    Returning inputs outputs slot t w l₁ (.expr (.symbol y) :: l₂)
      ⟨(f.write (slot y.id) 0).work, f.reached.set i k (f.at (slot y.id))⟩ := by
  obtain ⟨e, ht, hid⟩ := hc.placed.mem _ i k hp
  have hsome := Block.target_isSome h.sizes ht
  refine ⟨by simpa [Flow.write] using h.size, fun s j hj => h.leaf hc rfl hl s hj,
    by rw [Block.sizes_set, h.sizes], fun i' k' d hd j hj => ?_⟩
  by_cases heq : (i,k) = (i',k')
  · cases heq
    obtain rfl := Order.targets_unique ht hd
    have hword := h.test_at hc hu hl hj
    rw [Expr.id] at hword
    rw [Block.get?_set_self hsome, Option.getD_some, hword]
    constructor
    · intro hfeeds
      exact ⟨y, by simp, hid.symm, hfeeds⟩
    · rintro ⟨z, hz, hzid, hfeeds⟩
      obtain rfl | hz : z = y ∨ .symbol z ∈ Order.exprs l₂ := by simpa using hz
      · exact hfeeds
      · exact absurd (hzid.trans hid) (hc.complete.placed_once hl (.inr hz))
  · rw [Block.get?_set_of_ne heq, h.reached i' k' d hd j hj]
    refine other_symbol fun hyd => heq ?_
    have hpd := hc.placed.get i' k' d hd
    rw [← hyd, hp] at hpd
    exact Option.some.inj hpd

theorem Returning.symbol (hc : Compiled inputs outputs places l slot t)
    (hu : Expr.Coherent (Matrix.entries outputs)) {y : Symbol} (hl : l = l₁ ++ .expr (.symbol y) :: l₂)
    (h : Returning inputs outputs slot t w (l₁ ++ [.expr (.symbol y)]) l₂ f) :
    Returning inputs outputs slot t w l₁ (.expr (.symbol y) :: l₂)
      (f.reverse w (elementAt places slot 0 (.expr (.symbol y)) : Element K)) := by
  cases hp : places[y.id]? with
  | some p =>
    have hstep : f.reverse w (elementAt places slot 0 (.expr (.symbol y)) : Element K) =
        ⟨(f.write (slot y.id) 0).work, f.reached.set p.1 p.2 (f.at (slot y.id))⟩ := by
      simp [elementAt, hp, Flow.reverse, Flow.write]
    rw [hstep]
    exact h.input hc hu hl hp
  | none =>
    -- A free symbol is the symbol of no input.
    have hstep : f.reverse w (elementAt places slot 0 (.expr (.symbol y)) : Element K) =
        f.write (slot y.id) 0 := by
      simp [elementAt, hp, Flow.reverse]
    rw [hstep]
    refine ⟨by simpa [Flow.write] using h.size, fun s j hj => h.leaf hc rfl hl s hj, h.sizes,
      fun i k d hd j hj => (h.reached i k d hd j hj).trans (other_symbol fun hyd => ?_)⟩
    have hpd := hc.placed.get i k d hd
    rw [← hyd, hp] at hpd
    cases hpd

theorem Returning.store (hc : Compiled inputs outputs places l slot t)
    (hu : Expr.Coherent (Matrix.entries outputs)) {i k id : Nat}
    (hl : l = l₁ ++ .store i k id :: l₂)
    (h : Returning inputs outputs slot t w (l₁ ++ [.store i k id]) l₂ f) :
    Returning inputs outputs slot t w l₁ (.store i k id :: l₂)
      (f.reverse w (elementAt places slot 0 (.store i k id) : Element K)) := by
  obtain ⟨e, hel, -, rfl⟩ := hc.complete.store hu hl
  have hb : slot e.id < f.work.size := by
    rw [h.size]
    exact hc.bound e (by rw [hl]; simp [hel])
  have hstep : f.reverse w (elementAt places slot 0 (.store i k e.id) : Element K) =
      f.join (slot e.id) ((w.get? i k).getD 0) := rfl
  rw [hstep]
  refine ⟨by simpa [Flow.join] using h.size, fun s j hj => ?_, h.sizes,
    fun i k d hd j hj => by simpa [Flow.join] using h.reached i k d hd j hj⟩
  rw [Flow.test_join hb _ _ hj, h.work s j hj]
  constructor
  · rintro (⟨d, hd, hs, hdem⟩ | ⟨hs, hbit⟩)
    · exact ⟨d, by simpa using hd, hs, demanded_cons.mpr (.inr hdem)⟩
    · exact ⟨e, hel, hs, demanded_cons.mpr (.inl ⟨by simp [Node.reads], hbit⟩)⟩
  · rintro ⟨d, hd, hs, hdem⟩
    obtain ⟨hr, hbit⟩ | hdem := demanded_cons.mp hdem
    · obtain hid : d.id = e.id := by simpa [Node.reads] using hr
      exact .inr ⟨by rw [← hid, hs], hbit⟩
    · exact .inl ⟨d, by simpa using hd, hs, hdem⟩

theorem foldr_reverse (hc : Compiled inputs outputs places l slot t)
    (hu : Expr.Coherent (Matrix.entries outputs))
    (hl : l = l₁ ++ l₂) (h : Returning inputs outputs slot t w l [] f) :
    Returning inputs outputs slot t w l₁ l₂
      ((l₂.map (elementAt places slot 0)).foldr (fun el f => f.reverse w el) f) := by
  -- On the nodes that the pass has done, the last one first.
  induction l₂ generalizing l₁ with
  | nil =>
    rw [List.append_nil] at hl
    subst hl
    exact h
  | cons n l₂ ih =>
    have hmid := ih (show l = (l₁ ++ [n]) ++ l₂ by simpa using hl)
    rw [List.map_cons, List.foldr_cons]
    cases n with
    | store i k id => exact hmid.store hc hu hl
    | expr e =>
      have he : e.Proper := hc.complete.proper hu (.expr e) (by rw [hl]; simp)
      cases hop : e.op.isStructural with
      | false => exact hmid.operation hc hu hop hl
      | true =>
        obtain ⟨s, rfl⟩ | ⟨i, v, rfl⟩ := leaf_cases he hop
        · exact hmid.symbol hc hu hl
        · exact hmid.const hc hl

theorem propagateReverse_returning (hc : Compiled inputs outputs places l slot t)
    (hu : Expr.Coherent (Matrix.entries outputs))
    (w : Block Word) :
    Returning inputs outputs slot t w [] l (t.propagateReverse (inputs.map Matrix.nnz) w) := by
  have hz (s : Nat) : (Array.replicate t.worksize (0 : Word)).getD s 0 = 0 := by
    by_cases hs : s < t.worksize <;> simp [Array.getD_eq_getD_getElem?, hs]
  have hstart : Returning inputs outputs slot t w l []
      ⟨.replicate t.worksize 0, .filled (inputs.map Matrix.nnz) 0⟩ := by
    refine ⟨by simp, fun s j hj => ?_, Block.sizes_filled _ _, fun i k d hd j hj => ?_⟩
    · rw [Flow.at, hz]
      simp [Demanded]
    · rw [Block.getD_filled]
      simp
  have h := foldr_reverse hc hu (List.nil_append l).symm hstart
  have hlayout := map_layout (f := fun el f => Flow.reverse w el f) places slot l
    fun free n => funext fun f => Flow.reverse_elementAt w f free n
  have hfold := congrArg (List.foldr (fun step f => step f)
    (⟨.replicate t.worksize 0, .filled (inputs.map Matrix.nnz) 0⟩ : Flow)) hlayout
  rw [List.foldr_map, List.foldr_map, ← hc.elements, Array.foldr_toList] at hfold
  rwa [← hfold] at h

/-- A reverse pass brings to every input entry the words of the output entries that it is part of. -/
theorem test_propagateReverse (hc : Compiled inputs outputs places l slot t)
    (hu : Expr.Coherent (Matrix.entries outputs))
    (w : Block Word) {i k : Nat} {d : Expr K} (hd : (i,k,d) ∈ Order.targets inputs)
    (hj : j < Word.size) :
    (((t.propagateReverse (inputs.map Matrix.nnz) w).reached.get? i k).getD 0).test j = true ↔
      ∃ y, y.id = d.id ∧ Feeds outputs w j (.symbol y) := by
  rw [(propagateReverse_returning hc hu w).reached i k d hd j hj]
  constructor
  · rintro ⟨y, -, hid, hfeeds⟩
    exact ⟨y, hid, hfeeds⟩
  · rintro ⟨y, hid, i', k', e, ht, hreach, hbit⟩
    have hy : Expr.ReachedFrom (Matrix.entries outputs) (.symbol y) :=
      .trans hreach (.root (Order.mem_targets_entries ht))
    exact ⟨y, (hc.complete.mem_exprs _).mpr hy, hid, i', k', e, ht, hreach, hbit⟩

end Reverse

end Tape

end Fluxion
