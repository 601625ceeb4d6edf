import Fluxion.Proofs.Function.Bodies

/-!
Answers of derivatives of functions whose evaluations are known, direction by direction. Into how many rounds the
directions are divided does not matter: every direction has its turn, and its sensitivities stay where they were
written.
-/
set_option autoImplicit false

namespace Fluxion

open Run

variable {K T : Type} {d p : Definition K} {low high : Nat × Nat} {m n : Machine K} {f a : Nat}

/-! ### Pieces of a block -/

/-- Piece `i` of those that have `width` items each and begin at `start`. -/
def piece (y : Array T) (start width i : Nat) : Array T := y.extract (start + i*width) (start + (i+1)*width)

theorem piece_add (y : Array T) (start width r i : Nat) :
    piece y (start + r*width) width i = piece y start width (r+i) := by
  rw [piece, piece, Nat.add_assoc, Nat.add_assoc, ← Nat.add_mul, ← Nat.add_mul, Nat.add_assoc r]

theorem getElem?_piece {y : Array T} {start width i k : Nat} (h : start + (i+1)*width ≤ y.size) :
    (piece y start width i)[k]? = if k < width then y[start + i*width + k]? else none := by
  rw [Nat.succ_mul] at h
  rw [piece, Nat.succ_mul, Array.getElem?_extract]
  by_cases hk : k < width
  · rw [if_pos (by omega), if_pos hk]
  · rw [if_neg (by omega), if_neg hk]

/-- The pieces one after the other. -/
theorem flatten_pieces (y : Array T) (start width n : Nat) :
    ((Array.range n).map (piece y start width)).flatten = y.extract start (start + n*width) := by
  induction n with
  | zero => simp [Array.range]
  | succ n ih =>
    rw [Array.range_succ, Array.map_append, Array.map_singleton, Array.flatten_append, Array.flatten_singleton, ih, piece,
      Array.extract_append_extract, Nat.min_eq_left (Nat.le_add_right _ _),
      Nat.max_eq_right (Nat.add_le_add_left (Nat.mul_le_mul_right _ (Nat.le_succ n)) _)]

/-- The pieces of what is arranged in this way. -/
theorem piece_arranged_forward (xs ys : Array T) {f a i : Nat} (hi : i < f) :
    piece (arranged xs ys f a) xs.size xs.size i = xs := by
  have hlast := Nat.mul_le_mul_right xs.size (show i+1 ≤ f from hi)
  refine Array.ext_getElem? fun k => ?_
  rw [getElem?_piece (by rw [size_arranged]; omega)]
  split
  · next hk => exact getElem?_forward hi hk
  · next hk => exact (Array.getElem?_eq_none (Nat.le_of_not_lt hk)).symm

theorem piece_arranged_adjoint (xs ys : Array T) {f a i : Nat} (hi : i < a) :
    piece (arranged xs ys f a) (xs.size + f*xs.size) ys.size i = ys := by
  have hlast := Nat.mul_le_mul_right ys.size (show i+1 ≤ a from hi)
  refine Array.ext_getElem? fun k => ?_
  rw [getElem?_piece (by rw [size_arranged]; omega)]
  split
  · next hk => exact getElem?_adjoint hi hk
  · next hk => exact (Array.getElem?_eq_none (Nat.le_of_not_lt hk)).symm

namespace Evaluate

variable {sens : Array (Block K)} {y : Block K} {start width : Nat} {k : Nat}

/-- A place belongs to one direction only. -/
theorem place_inj {i j l r : Nat} (hl : l < width) (hr : r < width) (h : start + i*width + l = start + j*width + r) :
    i = j ∧ l = r := by
  have hsame : i*width + l = j*width + r := by omega
  have hdiv := congrArg (· / width) hsame
  have hpos : 0 < width := by omega
  simp only [Nat.add_comm (_*width), Nat.add_mul_div_right _ _ hpos, Nat.div_eq_of_lt hl, Nat.div_eq_of_lt hr,
    Nat.zero_add] at hdiv
  subst hdiv
  exact ⟨rfl, by omega⟩

/-- The places of a sensitivity that is written. -/
theorem place_of_mem_writes (hn : k ≤ sens.size) (hsens : ∀ s ∈ sens, s.size = width) {w : Nat × Option (Array K)}
    (hw : w ∈ writes sens start width k) :
    ∃ i l v, i < k ∧ l < width ∧ (sens.getD i #[])[l]? = some v ∧ w = (start + i*width + l, some v) := by
  obtain ⟨i, l, v, hi, hv, rfl⟩ := mem_writes.mp hw
  have hsize : (sens.getD i #[]).size = width := by
    rw [Array.getD_eq_getD_getElem?, Array.getElem?_eq_getElem (by omega)]
    exact hsens _ (Array.getElem_mem _)
  exact ⟨i, l, v, hi, hsize ▸ (Array.getElem?_eq_some_iff.mp hv).1, hv, rfl⟩

/-- Where a sensitivity was written, it is. -/
theorem piece_storeSens {i : Nat} (hn : k ≤ sens.size) (hsens : ∀ s ∈ sens, s.size = width)
    (hy : start + k*width ≤ y.size) (hi : i < k) :
    piece (storeSens sens y start width k) start width i = sens.getD i #[] := by
  have hbound : (i+1)*width ≤ k*width := Nat.mul_le_mul_right width hi
  have hsize : (sens.getD i #[]).size = width := by
    rw [Array.getD_eq_getD_getElem?, Array.getElem?_eq_getElem (by omega)]
    exact hsens _ (Array.getElem_mem _)
  rw [storeSens_eq]
  refine Array.ext_getElem? fun l => ?_
  rw [getElem?_piece (by rw [Recover.size_puts]; omega)]
  rw [Nat.succ_mul] at hbound
  split
  · next hl =>
    obtain ⟨v, hv⟩ : ∃ v, (sens.getD i #[])[l]? = some v := ⟨_, Array.getElem?_eq_getElem (hsize.symm ▸ hl)⟩
    rw [hv]
    refine Recover.getElem?_puts (by omega) ⟨_, mem_writes.mpr ⟨i, l, v, hi, hv, rfl⟩, rfl⟩ fun w hw hplace => ?_
    obtain ⟨i', l', v', -, hl', hv', rfl⟩ := place_of_mem_writes hn hsens hw
    obtain ⟨rfl, rfl⟩ := place_inj hl' hl hplace
    rw [← hv', hv]
  · next hl => exact (Array.getElem?_eq_none (by omega)).symm

/-- Elsewhere all is as before. -/
theorem piece_storeSens_of {start' width' i : Nat} (hn : k ≤ sens.size) (hsens : ∀ s ∈ sens, s.size = width)
    (h : 0 < k → start' + (i+1)*width' ≤ start ∨ start + k*width ≤ start' + i*width') :
    piece (storeSens sens y start width k) start' width' i = piece y start' width' i := by
  rw [storeSens_eq, piece, piece]
  refine Array.ext_getElem? fun l => ?_
  rw [Array.getElem?_extract, Array.getElem?_extract, Recover.size_puts]
  split
  · next hl =>
    refine Recover.getElem?_puts_of_ne fun w hw hplace => ?_
    obtain ⟨j, r, v, hj, hr, -, rfl⟩ := place_of_mem_writes hn hsens hw
    have hbound : (j+1)*width ≤ k*width := Nat.mul_le_mul_right width hj
    have hapart := h (by omega)
    rw [Nat.succ_mul] at hbound
    dsimp only at hplace
    omega
  · rfl

/-! ### Seeds and sensitivities of a round -/

section Round

variable {cap : Nat × Nat} {r c i : Nat} {b : Buffers K}

/-- A direction of a round has its piece of the seeds. -/
theorem getD_forwardSeed_loaded (x : Block K) (hb : cap.1 ≤ b.forward) (hc : c < min cap.1 (f - r*cap.1)) :
    (loaded p f a cap x r b).forwardSeed.getD c #[] = piece x p.sig.inputs.size p.sig.inputs.size (r*cap.1+c) := by
  rw [← piece_add, piece]
  exact Buffers.getD_firstBlocks hc (show c < b.forward by omega) _

theorem getD_adjointSeed_loaded (x : Block K) (hb : cap.2 ≤ b.adjoint) (hc : c < min cap.2 (a - r*cap.2)) :
    (loaded p f a cap x r b).adjointSeed.getD c #[] =
      piece x (p.sig.inputs.size + f*p.sig.inputs.size) p.sig.outputs.size (r*cap.2+c) := by
  rw [← piece_add, piece]
  exact Buffers.getD_firstBlocks hc (show c < b.adjoint by omega) _

variable (hb : b.Shaped p.sig.inputSizes p.sig.outputSizes)
  (hy : y.sizes = arranged p.sig.outputSizes p.sig.inputSizes f a) (hf : min cap.1 (f - r*cap.1) ≤ b.forward)
  (ha : min cap.2 (a - r*cap.2) ≤ b.adjoint)
include hb hy hf ha

/-- What is written in a round stands behind the forward sensitivities of the rounds before. -/
theorem piece_collected_forward (hi : i < min f ((r+1)*cap.1)) :
    piece (collected p f a cap r b y) p.sig.outputs.size p.sig.outputs.size i =
      if i < r*cap.1 then piece y p.sig.outputs.size p.sig.outputs.size i else b.forwardSens.getD (i - r*cap.1) #[] := by
  have hcount : min cap.1 (f - r*cap.1) ≤ b.forwardSens.size := hb.forward ▸ hf
  have hsens := size_of_sizes hb.forwardSens
  have hsens' := size_of_sizes hb.adjointSens
  rw [Signature.size_outputSizes] at hsens
  rw [Signature.size_inputSizes] at hsens'
  have hlast := Nat.mul_le_mul_right p.sig.outputs.size (show i+1 ≤ f by omega)
  rw [collected, piece_storeSens_of (hb.adjoint ▸ ha) hsens' fun _ => .inl (by omega)]
  split
  · next hold =>
    have hbefore := Nat.mul_le_mul_right p.sig.outputs.size (show i+1 ≤ r*cap.1 by omega)
    exact piece_storeSens_of hcount hsens fun _ => .inl (by omega)
  · next hold =>
    obtain ⟨c, rfl⟩ := Nat.exists_eq_add_of_le (Nat.le_of_not_lt hold)
    rw [Nat.succ_mul] at hi
    have hsize := size_of_arranged hy
    have hall := Nat.mul_le_mul_right p.sig.outputs.size (show r*cap.1 + min cap.1 (f - r*cap.1) ≤ f by omega)
    rw [Nat.add_mul] at hall
    rw [Nat.add_sub_cancel_left, ← piece_add]
    exact piece_storeSens hcount hsens (by omega) (by omega)

/-- So it does behind the adjoint ones. -/
theorem piece_collected_adjoint (hi : i < min a ((r+1)*cap.2)) :
    piece (collected p f a cap r b y) (p.sig.outputs.size + f*p.sig.outputs.size) p.sig.inputs.size i =
      if i < r*cap.2 then piece y (p.sig.outputs.size + f*p.sig.outputs.size) p.sig.inputs.size i
      else b.adjointSens.getD (i - r*cap.2) #[] := by
  have hcount : min cap.2 (a - r*cap.2) ≤ b.adjointSens.size := hb.adjoint ▸ ha
  have hsens := size_of_sizes hb.forwardSens
  have hsens' := size_of_sizes hb.adjointSens
  rw [Signature.size_outputSizes] at hsens
  rw [Signature.size_inputSizes] at hsens'
  rw [collected]
  split
  · next hold =>
    have hbefore := Nat.mul_le_mul_right p.sig.inputs.size (show i+1 ≤ r*cap.2 by omega)
    rw [piece_storeSens_of hcount hsens' fun _ => .inl (by omega)]
    refine piece_storeSens_of (hb.forward ▸ hf) hsens fun hpos => .inr ?_
    have hall := Nat.mul_le_mul_right p.sig.outputs.size (show r*cap.1 + min cap.1 (f - r*cap.1) ≤ f by omega)
    rw [Nat.add_mul] at hall
    omega
  · next hold =>
    obtain ⟨c, rfl⟩ := Nat.exists_eq_add_of_le (Nat.le_of_not_lt hold)
    rw [Nat.succ_mul] at hi
    have hsize := (Block.size_eq ((sizes_storeForward hb hy hf).trans hy.symm)).trans (size_of_arranged hy)
    have hall := Nat.mul_le_mul_right p.sig.inputs.size (show r*cap.2 + min cap.2 (a - r*cap.2) ≤ a by omega)
    rw [Nat.add_mul] at hall
    rw [Nat.add_sub_cancel_left, ← piece_add]
    exact piece_storeSens hcount hsens' (by omega) (by omega)

end Round

end Evaluate

/-! ### Inputs of a derivative -/

section Inputs

variable {x : Block K} (hx : x.sizes = arranged p.sig.inputSizes p.sig.outputSizes f a)

include hx

/-- Among the inputs of a derivative the inputs of the parent come first. -/
theorem sizes_point : Block.sizes (x.extract 0 p.sig.inputs.size) = p.sig.inputSizes := by
  rw [Block.sizes, Array.map_extract]
  change Array.extract (Block.sizes x) _ _ = _
  rw [hx, ← Signature.size_inputSizes]
  exact extract_arranged _ _ _ _

omit hx in
theorem sizes_piece (x : Block K) (start width i : Nat) : Block.sizes (piece x start width i) = piece x.sizes start width i := by
  rw [Block.sizes, piece, Array.map_extract]
  rfl

theorem sizes_forwardSeed {i : Nat} (hi : i < f) :
    Block.sizes (piece x p.sig.inputs.size p.sig.inputs.size i) = p.sig.inputSizes := by
  rw [sizes_piece, hx, ← Signature.size_inputSizes]
  exact piece_arranged_forward _ _ hi

theorem sizes_adjointSeed {i : Nat} (hi : i < a) :
    Block.sizes (piece x (p.sig.inputs.size + f*p.sig.inputs.size) p.sig.outputs.size i) = p.sig.outputSizes := by
  rw [sizes_piece, hx, ← Signature.size_inputSizes, ← Signature.size_outputSizes]
  exact piece_arranged_adjoint _ _ hi

end Inputs

/-! ### Directions of the parent -/

instance (n : Nat × Nat) : Decidable (Room n) := inferInstanceAs (Decidable (_ ∧ _))

/-- The parent has room for the directions, and a direction at least where some are asked for. -/
structure Definition.Serves (p : Definition K) (f a : Nat) : Prop where
  room : Room (p.sig.options.granted f a)
  forward : f = 0 ∨ 1 ≤ (p.sig.options.granted f a).1
  adjoint : a = 0 ∨ 1 ≤ (p.sig.options.granted f a).2

instance (p : Definition K) (f a : Nat) : Decidable (p.Serves f a) :=
  decidable_of_iff (Room (p.sig.options.granted f a) ∧ (f = 0 ∨ 1 ≤ (p.sig.options.granted f a).1) ∧
    (a = 0 ∨ 1 ≤ (p.sig.options.granted f a).2)) ⟨fun ⟨hr, hf, ha⟩ => ⟨hr, hf, ha⟩, fun ⟨hr, hf, ha⟩ => ⟨hr, hf, ha⟩⟩

namespace Effect

section Places

variable (E : Effect K) (p : Definition K) (f a : Nat) (x : Block K)

/-- Sensitivities for forward seed `i` among the inputs. -/
def forwardAt (i : Nat) : Option (Block K) :=
  E.forward (x.extract 0 p.sig.inputs.size) (piece x p.sig.inputs.size p.sig.inputs.size i)

/-- Sensitivities for adjoint seed `i` among the inputs. -/
def adjointAt (i : Nat) : Option (Block K) :=
  E.adjoint (x.extract 0 p.sig.inputs.size) (piece x (p.sig.inputs.size + f*p.sig.inputs.size) p.sig.outputs.size i)

/-- All that a derivative needs of the parent. -/
structure HasAll : Prop where
  value : (E.value (x.extract 0 p.sig.inputs.size)).isSome
  forward : ∀ i < f, (E.forwardAt p x i).isSome
  adjoint : ∀ i < a, (E.adjointAt p f x i).isSome

/-- The outputs of a derivative: those of the parent, then the sensitivities of every direction. -/
def derivative : Option (Block K) :=
  if p.Serves f a ∧ (∀ i < f, (E.forwardAt p x i).isSome) ∧ ∀ i < a, (E.adjointAt p f x i).isSome then
    (E.value (x.extract 0 p.sig.inputs.size)).map fun y => y ++
      ((Array.range f).map fun i => (E.forwardAt p x i).getD #[]).flatten ++
      ((Array.range a).map fun i => (E.adjointAt p f x i).getD #[]).flatten
  else none

/-- Outputs that hold the sensitivities of the first directions. -/
structure Laid (nf na : Nat) (y : Block K) : Prop where
  sizes : y.sizes = arranged p.sig.outputSizes p.sig.inputSizes f a
  forward : ∀ i < nf, E.forwardAt p x i = some (piece y p.sig.outputs.size p.sig.outputs.size i)
  adjoint : ∀ i < na, E.adjointAt p f x i =
    some (piece y (p.sig.outputs.size + f*p.sig.outputs.size) p.sig.inputs.size i)

end Places

variable {E : Effect K} {x y : Block K}

/-- With all sensitivities behind the outputs of the parent, the outputs are complete. -/
theorem Laid.derivative_eq (h : E.Laid p f a x f a y) (hp : p.Serves f a) {z : Block K}
    (hz : E.value (x.extract 0 p.sig.inputs.size) = some z) :
    E.derivative p f a x = some (z ++ y.extract p.sig.outputs.size y.size) := by
  have hsize := Evaluate.size_of_arranged h.sizes
  have hforward : (Array.range f).map (fun i => (E.forwardAt p x i).getD #[]) =
      (Array.range f).map (piece y p.sig.outputs.size p.sig.outputs.size) :=
    Array.map_congr_left fun i hi => by rw [h.forward i (by simpa using hi), Option.getD_some]
  have hadjoint : (Array.range a).map (fun i => (E.adjointAt p f x i).getD #[]) =
      (Array.range a).map (piece y (p.sig.outputs.size + f*p.sig.outputs.size) p.sig.inputs.size) :=
    Array.map_congr_left fun i hi => by rw [h.adjoint i (by simpa using hi), Option.getD_some]
  have hall : p.Serves f a ∧ (∀ i < f, (E.forwardAt p x i).isSome) ∧ ∀ i < a, (E.adjointAt p f x i).isSome :=
    ⟨hp, fun i hi => Option.isSome_of_eq_some (h.forward i hi), fun i hi => Option.isSome_of_eq_some (h.adjoint i hi)⟩
  rw [derivative, if_pos hall, hz, Option.map_some, hforward, hadjoint, flatten_pieces, flatten_pieces, Array.append_assoc,
    Array.extract_append_extract, Nat.min_eq_left (by omega), Nat.max_eq_right (by omega), ← hsize]

theorem isSome_derivative_iff : (E.derivative p f a x).isSome ↔ p.Serves f a ∧ E.HasAll p f a x := by
  rw [derivative]
  split
  · next h =>
    rw [Option.isSome_map]
    exact ⟨fun hv => ⟨h.1, hv, h.2.1, h.2.2⟩, fun hall => hall.2.value⟩
  · next h => exact ⟨fun hv => absurd hv Bool.false_ne_true, fun hall => absurd ⟨hall.1, hall.2.forward, hall.2.adjoint⟩ h⟩

/-- Sensitivities of a round, written behind those of the rounds before. -/
theorem Laid.collected {cap : Nat × Nat} {r : Nat} (hy : E.Laid p f a x (min f (r*cap.1)) (min a (r*cap.2)) y)
    {b : Buffers K} (hb : b.Shaped p.sig.inputSizes p.sig.outputSizes)
    (hf : min cap.1 (f - r*cap.1) ≤ b.forward) (ha : min cap.2 (a - r*cap.2) ≤ b.adjoint)
    (hforward : ∀ c < min cap.1 (f - r*cap.1), E.forwardAt p x (r*cap.1+c) = some (b.forwardSens.getD c #[]))
    (hadjoint : ∀ c < min cap.2 (a - r*cap.2), E.adjointAt p f x (r*cap.2+c) = some (b.adjointSens.getD c #[])) :
    E.Laid p f a x (min f ((r+1)*cap.1)) (min a ((r+1)*cap.2)) (Evaluate.collected p f a cap r b y) := by
  refine ⟨Evaluate.sizes_collected hb hy.sizes hf ha, fun i hi => ?_, fun i hi => ?_⟩
  · rw [Evaluate.piece_collected_forward hb hy.sizes hf ha hi]
    split
    · exact hy.forward i (by omega)
    · obtain ⟨c, rfl⟩ := Nat.exists_eq_add_of_le (show r*cap.1 ≤ i by omega)
      rw [Nat.succ_mul] at hi
      rw [Nat.add_sub_cancel_left]
      exact hforward c (by omega)
  · rw [Evaluate.piece_collected_adjoint hb hy.sizes hf ha hi]
    split
    · exact hy.adjoint i (by omega)
    · obtain ⟨c, rfl⟩ := Nat.exists_eq_add_of_le (show r*cap.2 ≤ i by omega)
      rw [Nat.succ_mul] at hi
      rw [Nat.add_sub_cancel_left]
      exact hadjoint c (by omega)

variable {eval : Evaluation K}

/-- The parent at the inputs of the derivative, with all directions that it grants. -/
def Granted (p : Definition K) (f a : Nat) (x : Block K) (n : Machine K) : Prop :=
  n.Held p p.sig.options.initial (p.sig.options.granted f a) (x.extract 0 p.sig.inputs.size) (p.sig.options.granted f a)

/-- The seeds of a round, at which the parent is asked for the directions of the round. -/
structure Seeds (p : Definition K) (f a : Nat) (cap : Nat × Nat) (x : Block K) (r : Nat) (b : Buffers K) : Prop where
  input : b.input = x.extract 0 p.sig.inputs.size
  forward : ∀ c < min cap.1 (f - r*cap.1),
    b.forwardSeed.getD c #[] = piece x p.sig.inputs.size p.sig.inputs.size (r*cap.1+c)
  adjoint : ∀ c < min cap.2 (a - r*cap.2),
    b.adjointSeed.getD c #[] = piece x (p.sig.inputs.size + f*p.sig.inputs.size) p.sig.outputs.size (r*cap.2+c)

theorem Seeds.has_iff {cap : Nat × Nat} {r : Nat} {b : Buffers K} (h : Seeds p f a cap x r b) :
    E.Has (min cap.1 (f - r*cap.1)) (min cap.2 (a - r*cap.2)) b ↔ (E.value (x.extract 0 p.sig.inputs.size)).isSome ∧
      (∀ c < min cap.1 (f - r*cap.1), (E.forwardAt p x (r*cap.1+c)).isSome) ∧
      ∀ c < min cap.2 (a - r*cap.2), (E.adjointAt p f x (r*cap.2+c)).isSome := by
  have hforward {c : Nat} (hc : c < min cap.1 (f - r*cap.1)) :
      E.forwardAt p x (r*cap.1+c) = E.forward b.input (b.forwardSeed.getD c #[]) := by
    rw [forwardAt, h.forward c hc, h.input]
  have hadjoint {c : Nat} (hc : c < min cap.2 (a - r*cap.2)) :
      E.adjointAt p f x (r*cap.2+c) = E.adjoint b.input (b.adjointSeed.getD c #[]) := by
    rw [adjointAt, h.adjoint c hc, h.input]
  rw [← h.input]
  exact ⟨fun h => ⟨h.value, fun c hc => hforward hc ▸ h.forward c hc, fun c hc => hadjoint hc ▸ h.adjoint c hc⟩,
    fun h => ⟨h.1, fun c hc => hforward hc ▸ h.2.1 c hc, fun c hc => hadjoint hc ▸ h.2.2 c hc⟩⟩

/-- A round asks for its directions, and writes what they see behind the others. -/
theorem Decides.hinges_round (h : E.Decides p eval) (hx : x.sizes = arranged p.sig.inputSizes p.sig.outputSizes f a)
    {cap : Nat × Nat} (hcap : p.sig.options.granted f a = cap) {r : Nat} (hn : Granted p f a x n)
    (hy : E.Laid p f a x (min f (r*cap.1)) (min a (r*cap.2)) y) :
    Hinges ((E.value (x.extract 0 p.sig.inputs.size)).isSome ∧
        (∀ c < min cap.1 (f - r*cap.1), (E.forwardAt p x (r*cap.1+c)).isSome) ∧
        ∀ c < min cap.2 (a - r*cap.2), (E.adjointAt p f x (r*cap.2+c)).isSome) n
      (Evaluate.round f a cap p eval x y r) fun y' n' =>
        E.Laid p f a x (min f ((r+1)*cap.1)) (min a ((r+1)*cap.2)) y' ∧ Granted p f a x n' ∧
          E.value (x.extract 0 p.sig.inputs.size) = some n'.frame.buffers.output := by
  obtain ⟨hfits, hinput, hdirections⟩ := hn
  have hforward : n.frame.buffers.forward = cap.1 := (congrArg Prod.fst hdirections).trans (congrArg Prod.fst hcap)
  have hadjoint : n.frame.buffers.adjoint = cap.2 := (congrArg Prod.snd hdirections).trans (congrArg Prod.snd hcap)
  have hrecast := Evaluate.recast_loaded hx cap r hfits.frame.shaped
  have hseeds : Seeds p f a cap x r (Evaluate.loaded p f a cap x r n.frame.buffers) :=
    ⟨hinput, fun c hc => Evaluate.getD_forwardSeed_loaded x (Nat.le_of_eq hforward.symm) hc,
      fun c hc => Evaluate.getD_adjointSeed_loaded x (Nat.le_of_eq hadjoint.symm) hc⟩
  rw [Evaluate.round_eq]
  refine .writing ?_
  generalize Evaluate.loaded p f a cap x r n.frame.buffers = b at hrecast hseeds ⊢
  refine ((h _ _ _ _ (n.withBuffers b) ⟨hfits.frame.recast hrecast, hfits.inner⟩ ?_ ?_).congr hseeds.has_iff).map
    fun _ n' _ hn' => .reading (.pure ?_)
  · exact hrecast.forward ▸ hforward ▸ Nat.min_le_left _ _
  · exact hrecast.adjoint ▸ hadjoint ▸ Nat.min_le_left _ _
  obtain ⟨hleft, hin, hdirs⟩ := hn'.held
  have hgives : E.Gives (min cap.1 (f - r*cap.1)) (min cap.2 (a - r*cap.2)) b n'.frame.buffers := hn'.gives
  have hdirs' : n'.frame.buffers.directions = cap :=
    hdirs.trans ((Prod.ext hrecast.forward hrecast.adjoint : b.directions = n.frame.buffers.directions).trans
      (hdirections.trans hcap))
  refine ⟨hy.collected hleft.frame.shaped ?_ ?_ (fun c hc => ?_) fun c hc => ?_,
    ⟨hleft, hin.trans hseeds.input, hdirs'.trans hcap.symm⟩, hseeds.input ▸ hgives.value⟩
  · exact Nat.le_trans (Nat.min_le_left _ _) (Nat.le_of_eq (congrArg Prod.fst hdirs').symm)
  · exact Nat.le_trans (Nat.min_le_left _ _) (Nat.le_of_eq (congrArg Prod.snd hdirs').symm)
  · rw [forwardAt, ← hseeds.input, ← hseeds.forward c hc]
    exact hgives.forward c hc
  · rw [adjointAt, ← hseeds.input, ← hseeds.adjoint c hc]
    exact hgives.adjoint c hc

theorem hasAll_iff {cap : Nat × Nat} {rounds : Nat} (hpos : 0 < rounds) (hf : f ≤ rounds*cap.1) (ha : a ≤ rounds*cap.2) :
    (∀ r < rounds, (E.value (x.extract 0 p.sig.inputs.size)).isSome ∧
        (∀ c < min cap.1 (f - r*cap.1), (E.forwardAt p x (r*cap.1+c)).isSome) ∧
        ∀ c < min cap.2 (a - r*cap.2), (E.adjointAt p f x (r*cap.2+c)).isSome) ↔ E.HasAll p f a x := by
  have hforward := forall_rounds_iff (P := fun i => (E.forwardAt p x i).isSome) hf
  have hadjoint := forall_rounds_iff (P := fun i => (E.adjointAt p f x i).isSome) ha
  exact ⟨fun h => ⟨(h 0 hpos).1, hforward.mp fun r hr => (h r hr).2.1, hadjoint.mp fun r hr => (h r hr).2.2⟩,
    fun h r hr => ⟨h.value, hforward.mpr h.forward r hr, hadjoint.mpr h.adjoint r hr⟩⟩

variable [Number K]

/-- All rounds return exactly if all sensitivities are there, and then all of them are written. -/
theorem Decides.hinges_rounds_derivative (h : E.Decides p eval)
    (hx : x.sizes = arranged p.sig.inputSizes p.sig.outputSizes f a)
    (hy : y.sizes = arranged p.sig.outputSizes p.sig.inputSizes f a) (hp : p.Serves f a)
    (hm : Granted p f a x (m.inside p.sig.frame)) :
    Hinges True m (Evaluate.rounds p f a (p.sig.options.granted f a) eval x y) fun s n =>
      (s.2.isSome ↔ ¬E.HasAll p f a x) ∧ (s.2 = none → E.Laid p f a x f a s.1 ∧
        E.value (x.extract 0 p.sig.inputs.size) = some (n.inside p.sig.frame).frame.buffers.output) := by
  generalize hcap : p.sig.options.granted f a = cap
  have hforward := hp.forward
  have hadjoint := hp.adjoint
  rw [hcap] at hforward hadjoint
  rw [Evaluate.rounds]
  generalize hrounds : max 1 (max (ceilDiv f (max 1 cap.1)) (ceilDiv a (max 1 cap.2))) = rounds
  have hf : f ≤ rounds*cap.1 := Evaluate.le_rounds hforward (by omega)
  have ha : a ≤ rounds*cap.2 := Evaluate.le_rounds hadjoint (by omega)
  have hiff := hasAll_iff (E := E) (p := p) (x := x) (show 0 < rounds by omega) hf ha
  let C (r : Nat) : Prop := (E.value (x.extract 0 p.sig.inputs.size)).isSome ∧
    (∀ c < min cap.1 (f - r*cap.1), (E.forwardAt p x (r*cap.1+c)).isSome) ∧
    ∀ c < min cap.2 (a - r*cap.2), (E.adjointAt p f x (r*cap.2+c)).isSome
  let I (r : Nat) (s : Block K × Option Fault) (n : Machine K) : Prop :=
    (s.2.isSome ↔ ¬∀ q < r, C q) ∧ (s.2 = none →
      E.Laid p f a x (min f (r*cap.1)) (min a (r*cap.2)) s.1 ∧ Granted p f a x (n.inside p.sig.frame) ∧
        (0 < r → E.value (x.extract 0 p.sig.inputs.size) = some (n.inside p.sig.frame).frame.buffers.output))
  have hstart : I 0 (y, none) m :=
    ⟨by simp, fun _ => ⟨⟨hy, fun i hi => by omega, fun i hi => by omega⟩, hm, fun h0 => absurd h0 (by omega)⟩⟩
  refine Hinges.mono (Hinges.congr (Hinges.foldlM_range (C := fun _ => True) I (fun r s n hr hs => ?_) hstart)
    (by simp)) fun s n _ hn => ?_
  · change Hinges True n _ fun (s : Block K × Option Fault) _ => (s.2.isSome ↔ ¬∀ q < r+1, C q) ∧ _
    rw [Nat.forall_lt_succ_right]
    obtain ⟨z, e⟩ := s
    cases e with
    | some e =>
      have hfault := hs.1.mp rfl
      exact .intro_ok rfl trivial ⟨iff_of_true rfl fun hall => hfault hall.1, fun h0 => by cases h0⟩
    | none =>
      have hbefore : ∀ q < r, C q := by simpa using hs.1
      obtain ⟨hlaid, hgranted, -⟩ := hs.2 rfl
      refine (Hinges.observe (Hinges.inParent (h.hinges_round hx hcap hgranted hlaid))).after fun s n hn => ?_
      obtain ⟨z', rfl, hc, n', hn', rfl⟩ | ⟨e, rfl, hc⟩ := hn
      · exact .pure ⟨iff_of_false Bool.false_ne_true fun hnot => hnot ⟨hbefore, hc⟩,
          fun _ => ⟨hn'.1, hn'.2.1, fun _ => hn'.2.2⟩⟩
      · exact .pure ⟨iff_of_true rfl fun hall => hc hall.2, fun h0 => by cases h0⟩
  · refine ⟨hn.1.trans (not_congr hiff), fun h0 => ?_⟩
    obtain ⟨hlaid, -, hvalue⟩ := hn.2 h0
    rw [Nat.min_eq_left hf, Nat.min_eq_left ha] at hlaid
    exact ⟨hlaid, hvalue (by omega)⟩

end Effect

namespace Evaluate

variable [Number K] {E : Effect K} {eval : Evaluation K}

/-- The parent grants directions exactly if it serves them. -/
theorem hinges_granting {x : Block K} (hx : x.sizes = arranged p.sig.inputSizes p.sig.outputSizes f a)
    (hm : m.Fits p p.sig.options.initial (p.sig.options.granted f a)) :
    Hinges (p.Serves f a) m (granting p f a x) fun c n =>
      c = p.sig.options.granted f a ∧ Effect.Granted p f a x n := by
  have hsizes := sizes_point hx
  have hsize : m.frame.buffers.input.size = (x.extract 0 p.sig.inputs.size).size :=
    Block.size_eq (hm.frame.shaped.input.trans hsizes.symm)
  generalize hb : ({m.frame.buffers with input := x.extract 0 p.sig.inputs.size} : Buffers K) = b
  have hset : (m.withBuffers b).Fits p p.sig.options.initial (p.sig.options.granted f a) := by
    obtain ⟨-, hout, hfs, hfr, has, har, hf, ha⟩ := hm.frame.shaped
    subst hb
    exact ⟨⟨⟨hsizes, hout, hfs, hfr, has, har, hf, ha⟩, hm.frame.forward, hm.frame.adjoint⟩, hm.inner⟩
  have hsteady := p.sig.options.steady f a
  have hasked : Frame.asked p.sig.options b f a = p.sig.options.granted f a :=
    Prod.ext (hsteady.forward _ hset.frame.forward.1 hset.frame.forward.2)
      (hsteady.adjoint _ hset.frame.adjoint.1 hset.frame.adjoint.2)
  rw [granting, Hinges, run_bind_ok (Signature.run_setInputs hsizes hsize), hb, ← Hinges]
  have hrequest : Hinges (Room (Frame.asked p.sig.options b f a)) (m.withBuffers b) (p.sig.requestDirections f a)
      fun c n => c = Frame.asked p.sig.options b f a ∧ n.frame.buffers = Frame.grown b c ∧ n.inner = m.inner :=
    Frame.hinges_requestDirections p.sig f a (m.withBuffers b)
  rw [hasked] at hrequest
  generalize hcap : p.sig.options.granted f a = cap at hrequest
  have hserves : (Room cap ∧ ¬((decide (0 < f) && decide (cap.1 = 0) || decide (0 < a) && decide (cap.2 = 0)) = true) ∧ True) ↔
      p.Serves f a := by
    simp only [Bool.or_eq_true, Bool.and_eq_true, decide_eq_true_eq, and_true]
    constructor
    · rintro ⟨hr, hc⟩
      refine ⟨hcap ▸ hr, ?_, ?_⟩ <;> rw [hcap] at * <;> omega
    · rintro ⟨hr, hf, ha⟩
      refine ⟨hcap ▸ hr, ?_⟩
      rw [hcap] at *
      omega
  refine (hrequest.bind fun c n _ hn => ?_).congr hserves
  obtain ⟨rfl, hbuffers, hinner⟩ := hn
  have hfits := hset.frame
  rw [hcap] at hfits
  refine .guard (.pure ⟨rfl, ⟨?_, ?_⟩, ?_, ?_⟩)
  · rw [hbuffers, hcap]
    exact Frame.fits_grown hfits (Nat.le_refl _) (Nat.le_refl _)
  · rw [hinner]
    exact hm.inner
  · rw [hbuffers, ← hb]
    rfl
  · rw [hbuffers, hcap]
    exact Frame.directions_grown hfits.forward.2 hfits.adjoint.2

/-- A derivative answers the outputs of the parent with the sensitivities of all directions. -/
theorem answers_derivative (h : E.Decides p eval) (hd : Over d p f a) {W : Prop} (hspreads : p.Spreads W d.sig f a)
    (hsettles : eval.Settles True True p p.sig.options.initial (p.sig.options.granted f a)) :
    (derivative f a p eval).Answers (E.derivative p f a) d := by
  have hspreads' : p.Spreads True d.sig f a := ⟨hspreads.inputs, hspreads.outputs, .inl trivial⟩
  refine .of_settles (fun low high => settles_derivative hd hsettles hspreads')
    (fun I x y => keeps_derivative f a p eval x y) fun low high m x y hm hx hy => ?_
  have hx' : x.sizes = arranged p.sig.inputSizes p.sig.outputSizes f a := by
    rw [hx, Signature.inputSizes, hspreads.inputs, map_arranged]
    rfl
  have hy' : y.sizes = arranged p.sig.outputSizes p.sig.inputSizes f a := by
    rw [hy, Signature.outputSizes, hspreads.outputs, map_arranged]
    rfl
  rw [derivative_eq]
  refine (Hinges.observe (Hinges.inParent (hinges_granting hx' (fits_inside hd hm)))).after fun c n hn => ?_
  have hnone (hall : ¬(p.Serves f a ∧ E.HasAll p f a x)) : E.derivative p f a x = none := by
    rw [← Option.not_isSome_iff_eq_none, Effect.isSome_derivative_iff]
    exact hall
  obtain ⟨c, rfl, hserves, n, ⟨rfl, hgranted⟩, rfl⟩ | ⟨e, rfl, hserves⟩ := hn
  · refine (h.hinges_rounds_derivative (m := m.outside n) hx' hy' hserves hgranted).after fun s n' hn' => ?_
    obtain ⟨z, e⟩ := s
    cases e with
    | some e => exact .pure (hnone fun hall => hn'.1.mp rfl hall.2)
    | none =>
      obtain ⟨hlaid, hvalue⟩ := hn'.2 rfl
      have houtputs : Yields (E.value (x.extract 0 p.sig.inputs.size)) (n'.inside p.sig.frame)
          (do return (← Run.buffers).output) fun _ _ => True := by
        rw [hvalue]
        exact Hinges.reading (Yields.pure trivial)
      refine Hinges.after ((Hinges.inParent houtputs).congr (by simp [hvalue])) fun outputs n'' hn'' => .pure ?_
      obtain ⟨n₀, ⟨hz, -⟩, rfl⟩ := hn''
      exact hlaid.derivative_eq hserves hz
  · exact .pure (hnone fun hall => hserves hall.1)

end Evaluate

end Fluxion
