import Fluxion.Proofs.Expr.Meaning
import Fluxion.Proofs.Tape.Compile

/-!
Tapes with other constants. Neither the order of the nodes nor their slots depend on what the constants are,
so a tape of expressions is, with its constants changed, the tape of the changed expressions.
-/
set_option autoImplicit false

namespace Fluxion

variable {K R : Type}

def Node.map (f : K → R) : Node K → Node R
  | .expr e => .expr (e.map f)
  | .store i k id => .store i k id

def Element.map (f : K → R) (el : Element K) : Element R := {el with value := f el.value}

namespace Element

variable (f : K → R) (el : Element K)

@[simp] theorem op_map : (el.map f).op = el.op := rfl
@[simp] theorem result_map : (el.map f).result = el.result := rfl
@[simp] theorem left_map : (el.map f).left = el.left := rfl
@[simp] theorem right_map : (el.map f).right = el.right := rfl
@[simp] theorem value_map : (el.map f).value = f el.value := rfl

end Element

def Tape.map (f : K → R) (t : Tape K) : Tape R := {t with elements := t.elements.map (.map f)}

/-- The matrices of the expressions with other constants. -/
def Matrix.changed (f : K → R) (ms : Array (Matrix (Expr K))) : Array (Matrix (Expr R)) :=
  ms.map (.map (.map f))

@[simp] theorem Matrix.nnz_map {T U : Type} (f : T → U) (m : Matrix T) : (m.map f).nnz = m.nnz := by
  simp [Matrix.map, Matrix.nnz]

@[simp] theorem Matrix.sizes_changed (f : K → R) (ms : Array (Matrix (Expr K))) :
    (Matrix.changed f ms).map Matrix.nnz = ms.map Matrix.nnz := by
  simp [Matrix.changed, Function.comp_def]

@[simp] theorem Matrix.entries_changed (f : K → R) (ms : Array (Matrix (Expr K))) :
    Matrix.entries (Matrix.changed f ms) = (Matrix.entries ms).map (.map f) := by
  simp [Matrix.entries, Matrix.changed, Matrix.map, List.flatMap_map, List.map_flatMap]

namespace Order

theorem mem_targets_changed {f : K → R} {ms : Array (Matrix (Expr K))} {i k : Nat} {d : Expr R} :
    (i,k,d) ∈ targets (Matrix.changed f ms) ↔ ∃ e, (i,k,e) ∈ targets ms ∧ e.map f = d := by
  simp only [mem_targets, Matrix.changed, Array.getElem?_map, Option.map_eq_some_iff]
  constructor
  · rintro ⟨m', ⟨m, hm, rfl⟩, hd⟩
    obtain ⟨e, he, rfl⟩ := Option.map_eq_some_iff.mp (Array.getElem?_map ▸ hd)
    exact ⟨e, ⟨m, hm, he⟩, rfl⟩
  · rintro ⟨e, ⟨m, hm, he⟩, rfl⟩
    exact ⟨_, ⟨m, hm, rfl⟩, by simp [Matrix.map, he]⟩

theorem targets_changed (f : K → R) (ms : Array (Matrix (Expr K))) :
    targets (Matrix.changed f ms) = (targets ms).map fun (i,k,e) => (i,k,e.map f) := by
  simp [targets, Matrix.changed, Matrix.map, List.zipIdx_map, List.flatMap_map, List.map_flatMap,
    Function.comp_def]

theorem exprs_map (f : K → R) (l : List (Node K)) : exprs (l.map (.map f)) = (exprs l).map (.map f) := by
  induction l with
  | nil => rfl
  | cons n l ih => cases n <;> simp [Node.map, ih]

theorem stores_map (f : K → R) (l : List (Node K)) : stores (l.map (.map f)) = stores l := by
  induction l with
  | nil => rfl
  | cons n l ih => cases n <;> simp [Node.map, ih]

theorem reads_map (f : K → R) (n : Node K) : (n.map f).reads = n.reads := by
  cases n <;> simp [Node.map, Node.reads, Function.comp_def]

theorem Placed.map {l : List (Node K)} (h : Placed l) (f : K → R) : Placed (l.map (.map f)) := by
  intro p n hn
  rw [List.getElem?_map] at hn
  obtain ⟨n, hp, rfl⟩ := Option.map_eq_some_iff.mp hn
  have hready := h p n hp
  rw [← List.map_take]
  cases n with
  | store i k id =>
    obtain ⟨e, he, hid⟩ := hready
    exact ⟨e.map f, by rw [exprs_map]; exact List.mem_map_of_mem he, by simpa using hid⟩
  | expr e =>
    refine ⟨fun a ha => ?_, fun a ha => ?_⟩
    · obtain ⟨b, hb, rfl⟩ := List.mem_map.mp (Expr.operands_map f e ▸ ha)
      rw [exprs_map]
      exact List.mem_map_of_mem (hready.1 b hb)
    · rw [exprs_map] at ha
      obtain ⟨b, hb, rfl⟩ := List.mem_map.mp ha
      simpa using hready.2 b hb

theorem Complete.map {outputs : Array (Matrix (Expr K))} {l : List (Node K)} (h : Complete outputs l)
    (f : K → R) : Complete (Matrix.changed f outputs) (l.map (.map f)) := by
  refine ⟨h.placed.map f, fun d => ?_, ?_⟩
  · rw [exprs_map, Matrix.entries_changed, Expr.reachedFrom_map, List.mem_map]
    simp only [h.mem_exprs]
  · rw [stores_map, h.stores_eq, targets_changed, List.map_map]
    simp [Function.comp_def]

end Order

namespace Tape

variable [Number K] [Number R] {inputs outputs : Array (Matrix (Expr K))}
  {places : Std.HashMap Nat (Nat × Nat)} {l : List (Node K)} {slot : Nat → Nat} {t : Tape K}

theorem elementAt_map {f : K → R} (hf : f Number.zero = Number.zero)
    (places : Std.HashMap Nat (Nat × Nat)) (slot : Nat → Nat) (free : Nat) (n : Node K) :
    elementAt places slot free (n.map f) = (elementAt places slot free n).map f := by
  cases n with
  | store i k id => simp [Node.map, elementAt, Element.map, hf]
  | expr e =>
    cases e with
    | symbol s => cases hs : places[s.id]? <;> simp [Node.map, Expr.map, elementAt, Element.map, hf, hs]
    | _ => simp [Node.map, Expr.map, elementAt, Element.map, hf]

omit [Number K] [Number R] in
theorem freeAmong_map (f : K → R) (places : Std.HashMap Nat (Nat × Nat)) (es : List (Expr K)) :
    freeAmong places (es.map (.map f)) = freeAmong places es := by
  simp [freeAmong, List.filterMap_map]

theorem layout_map {f : K → R} (hf : f Number.zero = Number.zero)
    (places : Std.HashMap Nat (Nat × Nat)) (slot : Nat → Nat) (l : List (Node K)) :
    layout places slot (l.map (.map f)) = (layout places slot l).map (.map f) := by
  refine List.ext_getElem? fun p => ?_
  simp [layout_getElem?, ← List.map_take, Order.exprs_map, freeAmong_map, elementAt_map hf,
    Function.comp_def]

omit [Number K] [Number R] in
theorem distinctSymbols_changed (h : DistinctSymbols inputs) (f : K → R) :
    DistinctSymbols (Matrix.changed f inputs) := by
  refine ⟨fun d hd => ?_, ?_⟩
  · rw [Matrix.entries_changed] at hd
    obtain ⟨e, he, rfl⟩ := List.mem_map.mp hd
    obtain ⟨s, rfl⟩ := h.symbol e he
    exact ⟨s, rfl⟩
  · simpa [Function.comp_def] using h.nodup

omit [Number K] [Number R] in
theorem Places.changed (h : Places inputs places) (f : K → R) : Places (Matrix.changed f inputs) places := by
  refine ⟨distinctSymbols_changed h.distinct f, fun i k d hd => ?_, fun id i k hid => ?_⟩
  · obtain ⟨e, he, rfl⟩ := Order.mem_targets_changed.mp hd
    simpa using h.get i k e he
  · obtain ⟨e, he, hid⟩ := h.mem id i k hid
    exact ⟨e.map f, Order.mem_targets_changed.mpr ⟨e, he, rfl⟩, by simpa using hid⟩

/-- The tape with other constants is the tape of the changed expressions. -/
theorem Compiled.map (h : Compiled inputs outputs places l slot t) {f : K → R}
    (hf : f Number.zero = Number.zero) :
    Compiled (Matrix.changed f inputs) (Matrix.changed f outputs) places (l.map (.map f)) slot
      (t.map f) := by
  refine ⟨h.placed.changed f, h.complete.map f, ?_, ?_, fun d hd => ?_, ?_, ?_, ?_⟩
  · rw [layout_map hf, ← h.elements, Tape.map, Array.toList_map]
  · rw [Order.exprs_map, freeAmong_map, ← h.free]
    rfl
  · rw [Order.exprs_map] at hd
    obtain ⟨e, he, rfl⟩ := List.mem_map.mp hd
    rw [Expr.id_map]
    exact h.bound e he
  · intro l₁ d l₂ hl a ha n hn hread
    obtain ⟨m₁, m, rfl, rfl, hm⟩ := List.map_eq_append_iff.mp hl
    obtain ⟨n', m₂, rfl, hn', rfl⟩ := List.map_eq_cons_iff.mp hm
    cases n' with
    | store i k id => cases hn'
    | expr e =>
      obtain rfl : e.map f = d := Node.expr.inj hn'
      rw [Order.exprs_map] at ha
      obtain ⟨b, hb, rfl⟩ := List.mem_map.mp ha
      obtain ⟨n, hn', rfl⟩ := List.mem_map.mp hn
      rw [Order.reads_map, Expr.id_map] at hread
      simpa using h.apart m₁ e m₂ rfl b hb n hn' hread
  · rw [Matrix.sizes_changed, ← h.inputSizes]
    rfl
  · rw [Matrix.sizes_changed, ← h.outputSizes]
    rfl

end Tape

end Fluxion
