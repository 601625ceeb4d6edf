import Mathlib
import Fluxion.Proofs.Tape.Dependence
import Fluxion.Proofs.Tape.Inside

/-!
What reverse passes leave behind. An element clears its own slot before it adds to others, and it adds only to slots
that elements before it write. So whatever is added to a slot is taken out by the element that wrote it, over any
arithmetic, and the work array ends as it began, with zeros.
-/
set_option autoImplicit false

namespace Fluxion.Tape

variable {K T : Type}

/-! ### Slots that nothing is added to any more -/

/-- A work array of the given size in which every slot that no element of the list writes is zero; `Z` says what a
zero is. -/
structure Clean (Z : T → Prop) (n : Nat) (els : List (Element K)) (work : Array T) : Prop where
  size : work.size = n
  zero : ∀ i x, work[i]? = some x → ¬Written els i → Z x

/-- The same slots, but for those that an element of the list writes. -/
structure AgreeOff (els : List (Element K)) (work work' : Array T) : Prop where
  size : work'.size = work.size
  get : ∀ i, ¬Written els i → work'[i]? = work[i]?

section Slots

variable {els : List (Element K)} {el : Element K} {work work' work'' : Array T} {Z : T → Prop} {n i : Nat}

theorem AgreeOff.refl (els : List (Element K)) (work : Array T) : AgreeOff els work work := ⟨rfl, fun _ _ => rfl⟩

theorem AgreeOff.trans (h : AgreeOff els work work') (h' : AgreeOff els work' work'') : AgreeOff els work work'' :=
  ⟨h'.size.trans h.size, fun i hi => (h'.get i hi).trans (h.get i hi)⟩

theorem agreeOff_set (hi : Written els i) (work : Array T) (x : T) : AgreeOff els work (work.setIfInBounds i x) := by
  refine ⟨Array.size_setIfInBounds, fun j hj => Array.getElem?_setIfInBounds_ne ?_⟩
  rintro rfl
  exact hj hi

theorem agreeOff_modify (hi : Written els i) (work : Array T) (f : T → T) : AgreeOff els work (work.modify i f) := by
  refine ⟨Array.size_modify, fun j hj => ?_⟩
  rw [Array.getElem?_modify, if_neg]
  rintro rfl
  exact hj hi

theorem clean_of_all (els : List (Element K)) (hn : work.size = n) (h : ∀ x ∈ work, Z x) : Clean Z n els work :=
  ⟨hn, fun _ x hx _ => h x (Array.mem_of_getElem? hx)⟩

namespace Clean

theorem agree (h : Clean Z n els work) (ha : AgreeOff els work work') : Clean Z n els work' := by
  refine ⟨ha.size.trans h.size, fun i x hx hi => ?_⟩
  rw [ha.get i hi] at hx
  exact h.zero i x hx hi

/-- An output store has no slot of its own. -/
theorem store (h : Clean Z n (els ++ [el]) work) (hop : el.op = .output) : Clean Z n els work := by
  refine ⟨h.size, fun i x hx hi => h.zero i x hx fun hw => hi ((written_append.mp hw).resolve_right fun hel => ?_)⟩
  exact (written_singleton.mp hel).1 hop

/-- Once the slot of an element is zero, only those of the elements before may be something else. -/
theorem clear (h : Clean Z n (els ++ [el]) work) {z : T} (hz : Z z) :
    Clean Z n els (work.setIfInBounds el.result z) := by
  refine ⟨Array.size_setIfInBounds.trans h.size, fun i x hx hi => ?_⟩
  rw [Array.getElem?_setIfInBounds] at hx
  split at hx
  · split at hx
    · cases hx
      exact hz
    · cases hx
  · next hne =>
    refine h.zero i x hx fun hw => hi ((written_append.mp hw).resolve_right fun hel => ?_)
    exact hne (written_singleton.mp hel).2

theorem all (h : Clean Z n ([] : List (Element K)) work) : ∀ x ∈ work, Z x := by
  intro x hx
  obtain ⟨i, hi⟩ := Array.mem_iff_getElem?.mp hx
  exact h.zero i x hi (by simp [Written])

end Clean

end Slots

/-! ### Elements after those they add to -/

/-- The slots that an element adds to on the way back are written before it, and its own slot is there. -/
structure Grounded (t : Tape K) : Prop where
  left : ∀ front el back, t.elements.toList = front ++ el :: back → el.op = .output ∨ el.op.isStructural = false →
    Written front el.left
  right : ∀ front el back, t.elements.toList = front ++ el :: back → el.op.isStructural = false →
    Written front el.right
  result : ∀ el ∈ t.elements, el.op ≠ .output → el.result < t.worksize

section Compiled

variable [Number K] {inputs outputs : Array (Matrix (Expr K))} {places : Std.HashMap Nat (Nat × Nat)}
  {l : List (Node K)} {slot : Nat → Nat} {t : Tape K} {free : Nat} {n : Node K}

theorem left_elementAt (h : (elementAt places slot free n).op = .output ∨
    (elementAt places slot free n).op.isStructural = false) :
    ∃ id ∈ n.reads, (elementAt places slot free n).left = slot id := by
  cases n with
  | store i k id => exact ⟨id, by simp [Node.reads], rfl⟩
  | expr e =>
    cases e with
    | symbol y => cases hy : places[y.id]? <;> simp [elementAt, hy, Op.isStructural] at h
    | const i v => simp [elementAt, Op.isStructural] at h
    | unary i op a => exact ⟨a.id, by simp [Node.reads, Expr.operands], rfl⟩
    | binary i op a b => exact ⟨a.id, by simp [Node.reads, Expr.operands], rfl⟩

theorem right_elementAt (h : (elementAt places slot free n).op.isStructural = false) :
    ∃ id ∈ n.reads, (elementAt places slot free n).right = slot id := by
  cases n with
  | store i k id => simp [elementAt, Op.isStructural] at h
  | expr e =>
    cases e with
    | symbol y => cases hy : places[y.id]? <;> simp [elementAt, hy, Op.isStructural] at h
    | const i v => simp [elementAt, Op.isStructural] at h
    | unary i op a => exact ⟨a.id, by simp [Node.reads, Expr.operands], rfl⟩
    | binary i op a b => exact ⟨b.id, by simp [Node.reads, Expr.operands], rfl⟩

theorem Compiled.grounded (hc : Compiled inputs outputs places l slot t)
    (hu : Expr.Coherent (Matrix.entries outputs)) : t.Grounded where
  left front el back heq hop := by
    obtain ⟨free, n, -, rfl, hwritten⟩ := hc.written hu heq
    obtain ⟨id, hid, hslot⟩ := left_elementAt hop
    exact hslot ▸ hwritten id hid
  right front el back heq hop := by
    obtain ⟨free, n, -, rfl, hwritten⟩ := hc.written hu heq
    obtain ⟨id, hid, hslot⟩ := right_elementAt hop
    exact hslot ▸ hwritten id hid
  result el hel hop := by
    obtain ⟨free, n, hn, rfl⟩ := hc.node hel
    cases n with
    | store i k id => exact absurd rfl hop
    | expr e =>
      rw [result_elementAt]
      exact hc.bound e (Order.mem_exprs.mpr hn)

end Compiled

/-! ### Derivatives -/

section Sweep

variable {m : Type → Type} [Monad m] [LawfulMonad m] [Number K] {A : Arithmetic K T m} {Z : T → Prop} {t : Tape K}
  {partials : Array (T × T)} {seed : Block T} {s : Sweep T} {front back : List (Element K)} {el : Element K}

/-- A reverse sweep that has the elements of the list before it: it has a derivative left for each operation among
them, and only their slots may be something else than zero. -/
structure Sweep.Cleared (Z : T → Prop) (n : Nat) (els : List (Element K)) (s : Sweep T) : Prop where
  clean : Clean Z n els s.work
  next : s.next = els.countP (!·.op.isStructural)

omit [Number K] in
theorem Grounded.result_lt (hg : t.Grounded) (heq : t.elements.toList = front ++ el :: back) (hop : el.op ≠ .output)
    {work : Array T} (hw : work.size = t.worksize) : el.result < work.size := by
  rw [hw]
  exact hg.result el (Array.mem_toList_iff.mp (by simp [heq])) hop

omit [Number K] in
theorem accumulate_agreeOff {i : Nat} (hi : Written front i) (work : Array T) (d : m T) :
    SatisfiesM (AgreeOff front work) (Sweep.accumulate A work i d) := by
  unfold Sweep.accumulate
  split
  · exact .bind .trivial fun _ _ => .bind .trivial fun _ _ => .pure (agreeOff_set hi work _)
  · exact .pure (.refl front work)

namespace Sweep.Cleared

theorem operation (hg : t.Grounded) (heq : t.elements.toList = front ++ el :: back)
    (hp : partials.size = t.operationCount) (hz : SatisfiesM Z A.zero) (hop : el.op.isStructural = false)
    (h : s.Cleared Z t.worksize (front ++ [el])) :
    SatisfiesM (Sweep.Cleared Z t.worksize front) (Sweep.adjoint A partials seed s el) := by
  have hleft := hg.left front el back heq (.inr hop)
  have hright := hg.right front el back heq hop
  have hnext : s.next = front.countP (!·.op.isStructural) + 1 := by
    rw [h.next, List.countP_append]
    simp [hop]
  have hrecord : s.next - 1 < partials.size := by
    rw [hp, operationCount, ← Array.countP_toList, heq, List.countP_append, List.countP_cons, hnext]
    simp [hop]
  have hslot : el.result < s.work.size := hg.result_lt heq (fun ho => by rw [ho] at hop; cases hop) h.clean.size
  rw [Sweep.adjoint_eq A hop, Array.getElem?_eq_getElem hrecord, Array.getElem?_eq_getElem hslot]
  refine .bind hz fun z hz => ?_
  -- The slot is cleared first; what is added afterwards goes to slots that are written before.
  have hdone {work : Array T} (hwork : AgreeOff front (s.work.setIfInBounds el.result z) work) :
      SatisfiesM (m := m) (Sweep.Cleared Z t.worksize front) (pure ⟨work, s.sens, s.next-1⟩) :=
    .pure ⟨(h.clean.clear hz).agree hwork, by rw [hnext, Nat.add_sub_cancel]⟩
  split
  · exact hdone (.refl front _)
  · split
    · exact .bind (accumulate_agreeOff hleft _ _) fun work hwork => hdone hwork
    · refine .bind (accumulate_agreeOff hleft _ _) fun work hwork => ?_
      exact .bind (accumulate_agreeOff hright _ _) fun work' hwork' => hdone (hwork.trans hwork')

theorem adjoint (hg : t.Grounded) (heq : t.elements.toList = front ++ el :: back)
    (hp : partials.size = t.operationCount) (hz : SatisfiesM Z A.zero)
    (h : s.Cleared Z t.worksize (front ++ [el])) :
    SatisfiesM (Sweep.Cleared Z t.worksize front) (Sweep.adjoint A partials seed s el) := by
  cases hop : el.op.isStructural with
  | false => exact h.operation hg heq hp hz hop
  | true =>
    obtain ⟨hclean, hnext⟩ := h
    obtain ⟨work, sens, next⟩ := s
    dsimp only at hclean hnext
    have hrest : next = front.countP (!·.op.isStructural) := by
      rw [hnext, List.countP_append]
      simp [hop]
    unfold Sweep.adjoint
    dsimp only
    split
    · next ho =>
      rw [Array.getElem?_eq_getElem (hg.result_lt heq (by simp [ho]) hclean.size)]
      exact .bind hz fun z hz => .pure ⟨hclean.clear hz, hrest⟩
    · next ho =>
      have hkept := hclean.store ho
      split
      · split
        · exact .pure ⟨hkept, hrest⟩
        · exact .bind (accumulate_agreeOff (hg.left front el back heq (.inl ho)) _ _) fun work' hwork =>
            .pure ⟨hkept.agree hwork, hrest⟩
      · exact .pure ⟨hkept, hrest⟩
    · exact .bind hz fun z hz => .pure ⟨hclean.clear hz, hrest⟩
    · exact .bind hz fun z hz => .pure ⟨hclean.clear hz, hrest⟩
    · next hin hout hconst hparameter =>
      cases ho : el.op <;> simp_all [Op.isStructural]

theorem foldrM (hg : t.Grounded) (hp : partials.size = t.operationCount) (hz : SatisfiesM Z A.zero)
    (heq : t.elements.toList = front ++ back) (h : s.Cleared Z t.worksize t.elements.toList) :
    SatisfiesM (Sweep.Cleared Z t.worksize front)
      (back.foldrM (fun el s => Sweep.adjoint A partials seed s el) s) := by
  -- On the elements that the sweep has passed, the last one first.
  induction back generalizing front with
  | nil =>
    rw [heq, List.append_nil] at h
    exact .pure h
  | cons el back ih =>
    have hsnoc : t.elements.toList = (front ++ [el]) ++ back := by simpa using heq
    rw [List.foldrM_cons]
    exact (ih hsnoc).bind fun s hs => hs.adjoint hg heq hp hz

end Sweep.Cleared

/-- A reverse sweep that has done the elements from the end of the tape to the start of `back`. -/
def adjointBack (A : Arithmetic K T m) (partials : Array (T × T)) (work : Array T) (seed sens : Block T)
    (back : List (Element K)) : m (Sweep T) := do
  let sens ← sens.mapM fun v => v.mapM fun _ => A.zero
  back.foldrM (fun el s => Sweep.adjoint A partials seed s el) ⟨work, sens, partials.size⟩

omit [LawfulMonad m] in
theorem adjointSweep_eq_back (A : Arithmetic K T m) (t : Tape K) (partials : Array (T × T)) (work : Array T)
    (seed sens : Block T) :
    t.adjointSweep A partials work seed sens = adjointBack A partials work seed sens t.elements.toList := by
  simp only [adjointSweep, adjointBack, Array.foldrM_toList]

theorem Grounded.adjointBack (hg : t.Grounded) (hp : partials.size = t.operationCount) (hz : SatisfiesM Z A.zero)
    {work : Array T} (hsize : work.size = t.worksize) (hwork : ∀ x ∈ work, Z x) (seed sens : Block T)
    (heq : t.elements.toList = front ++ back) :
    SatisfiesM (Sweep.Cleared Z t.worksize front) (adjointBack A partials work seed sens back) := by
  refine .bind .trivial fun sens _ => Sweep.Cleared.foldrM hg hp hz heq ⟨clean_of_all _ hsize hwork, ?_⟩
  rw [hp, operationCount, ← Array.countP_toList]

/-- A sweep has no derivative left at the end, and leaves zeros. -/
theorem Grounded.adjointSweep (hg : t.Grounded) (hp : partials.size = t.operationCount) (hz : SatisfiesM Z A.zero)
    {work : Array T} (hsize : work.size = t.worksize) (hwork : ∀ x ∈ work, Z x) (seed sens : Block T) :
    SatisfiesM (fun s => s.next = 0 ∧ s.work.size = t.worksize ∧ ∀ x ∈ s.work, Z x)
      (t.adjointSweep A partials work seed sens) := by
  rw [adjointSweep_eq_back]
  have hswept := hg.adjointBack hp hz hsize hwork seed sens (List.nil_append _).symm
  exact hswept.imp fun hs => ⟨hs.next, hs.clean.size, hs.clean.all⟩

end Sweep

/-! ### Words -/

section Flow

variable {t : Tape K} {f : Flow} {output : Block Word} {front back : List (Element K)} {el : Element K}

theorem Flow.agreeOff_join {i : Nat} (hi : Written front i) (f : Flow) (w : Word) :
    AgreeOff front f.work (f.join i w).work :=
  agreeOff_modify hi f.work (· ||| w)

theorem Flow.clean_reverse (hg : t.Grounded) (heq : t.elements.toList = front ++ el :: back)
    (h : Clean (· = 0) t.worksize (front ++ [el]) f.work) :
    Clean (· = 0) t.worksize front (f.reverse output el).work := by
  cases hop : el.op.isStructural with
  | false =>
    rw [Flow.reverse_operation hop]
    have hleft := Flow.agreeOff_join (hg.left front el back heq (.inr hop)) (f.write el.result 0) (f.at el.result)
    have hright := Flow.agreeOff_join (hg.right front el back heq hop)
      ((f.write el.result 0).join el.left (f.at el.result)) (f.at el.result)
    exact (h.clear rfl).agree (hleft.trans hright)
  | true =>
    unfold Flow.reverse
    split
    · exact h.clear rfl
    · next ho => exact (h.store ho).agree (Flow.agreeOff_join (hg.left front el back heq (.inl ho)) f _)
    · exact h.clear rfl
    · exact h.clear rfl
    · next hin hout hconst hparameter =>
      cases ho : el.op <;> simp_all [Op.isStructural]

theorem Flow.clean_foldr (hg : t.Grounded) (heq : t.elements.toList = front ++ back)
    (h : Clean (· = 0) t.worksize t.elements.toList f.work) :
    Clean (· = 0) t.worksize front (back.foldr (Flow.reverse output) f).work := by
  induction back generalizing front with
  | nil =>
    rw [heq, List.append_nil] at h
    exact h
  | cons el back ih =>
    rw [List.foldr_cons]
    exact Flow.clean_reverse hg heq (ih (by simpa using heq))

theorem Grounded.propagateReverse (hg : t.Grounded) (ins : Array Nat) (output : Block Word) :
    (t.propagateReverse ins output).work = .replicate t.worksize 0 := by
  have hstart : Clean (· = 0) t.worksize t.elements.toList (Array.replicate t.worksize (0 : Word)) :=
    clean_of_all _ Array.size_replicate fun x hx => (Array.mem_replicate.mp hx).2
  have hclean : Clean (· = 0) t.worksize [] (t.elements.toList.foldr (Flow.reverse output)
      ⟨.replicate t.worksize 0, .filled ins 0⟩).work := Flow.clean_foldr hg (List.nil_append _).symm hstart
  rw [Array.foldr_toList] at hclean
  exact Array.eq_replicate_iff.mpr ⟨hclean.size, hclean.all⟩

end Flow

end Fluxion.Tape
