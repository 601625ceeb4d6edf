import Fluxion.Proofs.Function.Derivative
import Fluxion.Proofs.Function.Nested

/-!
Derivative functions without a tape, side by side. Round by round the parent holds as many directions as it
can; after the last round every sensitivity is written, and the outputs with them.
-/
set_option autoImplicit false

namespace Fluxion

variable {K T β : Type}

/-! ### Places of directions -/

/-- Items, then as many copies as there are forward directions, then copies of others for the adjoint ones. -/
def arranged (xs ys : Array T) (f a : Nat) : Array T :=
  xs ++ (Array.replicate f xs).flatten ++ (Array.replicate a ys).flatten

section Arranged

variable {xs ys : Array T} {f a : Nat}

theorem size_copies (xs : Array T) (n : Nat) : (Array.replicate n xs).flatten.size = n*xs.size := by
  simp [Array.size_flatten]

theorem getElem?_copies {n i k : Nat} (hi : i < n) (hk : k < xs.size) :
    (Array.replicate n xs).flatten[i*xs.size + k]? = xs[k]? := by
  induction n generalizing i with
  | zero => omega
  | succ n ih =>
    have hsplit : (Array.replicate (n+1) xs).flatten = (Array.replicate n xs).flatten ++ xs := by
      rw [Array.replicate_succ, ← Array.append_singleton, Array.flatten_append, Array.flatten_singleton]
    rw [hsplit]
    rcases Nat.eq_or_lt_of_le (Nat.le_of_lt_succ hi) with rfl | hlt
    · rw [Array.getElem?_append_right (by rw [size_copies]; omega), size_copies, Nat.add_sub_cancel_left]
    · have hbound : i*xs.size + k < n*xs.size :=
        Nat.lt_of_lt_of_le (by rw [Nat.succ_mul]; omega) (Nat.mul_le_mul_right xs.size (Nat.succ_le_of_lt hlt))
      rw [Array.getElem?_append_left (by rw [size_copies]; exact hbound)]
      exact ih hlt

theorem size_arranged (xs ys : Array T) (f a : Nat) :
    (arranged xs ys f a).size = xs.size + f*xs.size + a*ys.size := by
  simp only [arranged, Array.size_append, size_copies]

theorem map_arranged (g : T → β) (xs ys : Array T) (f a : Nat) :
    (arranged xs ys f a).map g = arranged (xs.map g) (ys.map g) f a := by
  simp [arranged, Array.map_flatten]

theorem extract_arranged (xs ys : Array T) (f a : Nat) : (arranged xs ys f a).extract 0 xs.size = xs := by
  refine Array.ext_getElem? fun k => ?_
  by_cases hk : k < xs.size
  · simp [arranged, hk]
  · simp [hk]

theorem append_extract_arranged (xs ys : Array T) (f a : Nat) :
    xs ++ (arranged xs ys f a).extract xs.size (arranged xs ys f a).size = arranged xs ys f a := by
  have hsplit : (arranged xs ys f a).extract 0 xs.size ++
      (arranged xs ys f a).extract xs.size (arranged xs ys f a).size = (arranged xs ys f a).extract _ _ :=
    Array.extract_append_extract
  rw [extract_arranged, Nat.zero_min, Nat.max_eq_right (by rw [size_arranged]; omega), Array.extract_size] at hsplit
  exact hsplit

theorem getElem?_forward {i k : Nat} (hi : i < f) (hk : k < xs.size) :
    (arranged xs ys f a)[xs.size + i*xs.size + k]? = xs[k]? := by
  have hbound : i*xs.size + k < f*xs.size :=
    Nat.lt_of_lt_of_le (by rw [Nat.succ_mul]; omega) (Nat.mul_le_mul_right xs.size (Nat.succ_le_of_lt hi))
  rw [arranged, Array.getElem?_append_left (by rw [Array.size_append, size_copies]; omega),
    Array.getElem?_append_right (by omega), Nat.add_assoc, Nat.add_sub_cancel_left]
  exact getElem?_copies hi hk

theorem getElem?_adjoint {i k : Nat} (hi : i < a) (hk : k < ys.size) :
    (arranged xs ys f a)[xs.size + f*xs.size + i*ys.size + k]? = ys[k]? := by
  rw [arranged, Array.getElem?_append_right (by rw [Array.size_append, size_copies]; omega), Array.size_append,
    size_copies, Nat.add_assoc, Nat.add_sub_cancel_left]
  exact getElem?_copies hi hk

end Arranged

@[simp] theorem Signature.size_inputSizes (s : Signature K) : s.inputSizes.size = s.inputs.size := Array.size_map

@[simp] theorem Signature.size_outputSizes (s : Signature K) : s.outputSizes.size = s.outputs.size := Array.size_map

namespace Evaluate

/-! ### Sensitivities of a round -/

/-- What the sensitivities of the first `n` directions are written to. -/
def writes (sens : Array (Block K)) (start width n : Nat) : List (Nat × Option (Array K)) :=
  (List.range n).flatMap fun d => (sens.getD d #[]).toList.zipIdx.map fun e => (start + d*width + e.2, some e.1)

theorem storeSens_eq (sens : Array (Block K)) (y : Block K) (start width n : Nat) :
    storeSens sens y start width n = Recover.puts (writes sens start width n) y := by
  rw [storeSens, writes, Recover.puts, List.foldl_flatMap]
  refine List.foldl_ext _ _ _ fun y d _ => ?_
  rw [← Array.foldl_toList, Array.toList_zipIdx, List.foldl_map]
  rfl

theorem mem_writes {sens : Array (Block K)} {start width n : Nat} {w : Nat × Option (Array K)} :
    w ∈ writes sens start width n ↔ ∃ d k v, d < n ∧ (sens.getD d #[])[k]? = some v ∧
      w = (start + d*width + k, some v) := by
  rw [writes, List.mem_flatMap]
  constructor
  · rintro ⟨d, hd, hw⟩
    obtain ⟨⟨v, k⟩, he, rfl⟩ := List.mem_map.mp hw
    exact ⟨d, k, v, List.mem_range.mp hd, by simpa [List.mk_mem_zipIdx_iff_getElem?] using he, rfl⟩
  · rintro ⟨d, k, v, hd, hv, rfl⟩
    exact ⟨d, List.mem_range.mpr hd, List.mem_map.mpr ⟨(v,k), by simpa [List.mk_mem_zipIdx_iff_getElem?] using hv, rfl⟩⟩

/-- A place that is written to is the same afterwards. -/
theorem getElem?_puts_congr {writes : List (Nat × Option (Array K))} {y y' : Block K} (hsize : y'.size = y.size)
    {j : Nat} (h : y'[j]? = y[j]? ∨ ∃ v, (j, some v) ∈ writes) :
    (Recover.puts writes y')[j]? = (Recover.puts writes y)[j]? := by
  induction writes generalizing y y' with
  | nil => simpa [Recover.puts] using h
  | cons w writes ih =>
    refine ih (by simpa using hsize) ?_
    obtain ⟨i, x?⟩ := w
    cases x? with
    | none => simpa [Recover.put] using h
    | some x =>
      by_cases hij : i = j
      · subst hij
        exact .inl (by simp [Recover.put, Array.getElem?_setIfInBounds, hsize])
      · obtain h | ⟨v, hv⟩ := h
        · left
          dsimp only
          rw [Recover.getElem?_put_of_ne hij, Recover.getElem?_put_of_ne hij, h]
        · obtain hv | hv := List.mem_cons.mp hv
          · exact absurd (congrArg Prod.fst hv).symm hij
          · exact .inr ⟨v, hv⟩

/-- Writes of the sizes that are there. -/
theorem sizes_puts {writes : List (Nat × Option (Array K))} {y : Block K} {ns : Array Nat} (hy : y.sizes = ns)
    (h : ∀ i v, (i, some v) ∈ writes → ns[i]? = some v.size) : Block.sizes (Recover.puts writes y) = ns := by
  induction writes generalizing y with
  | nil => exact hy
  | cons w writes ih =>
    refine ih ?_ fun i v hv => h i v (List.mem_cons_of_mem _ hv)
    obtain ⟨i, x?⟩ := w
    cases x? with
    | none => exact hy
    | some x =>
      have hx := h i x (by simp)
      rw [← hy] at hx
      exact (Block.sizes_setIfInBounds hx).trans hy

/-- Sensitivities that agree are written to the same places. -/
theorem writes_congr {sens sens' : Array (Block K)} {start width n : Nat} (h : Agree n sens sens') :
    writes sens' start width n = writes sens start width n := by
  rw [writes, writes, List.flatMap_congr fun d hd => ?_]
  rw [h.getD (List.mem_range.mp hd)]

/-- After a round the places of its directions are the same on both sides. -/
theorem getElem?_storeSens {sens sens' : Array (Block K)} {start width n : Nat} (h : Agree n sens sens')
    (hwidth : ∀ x ∈ sens, x.size = width) {y y' : Block K} (hsize : y'.size = y.size) {j : Nat}
    (hj : y'[j]? = y[j]? ∨ start ≤ j ∧ j < start + n*width) :
    (storeSens sens' y' start width n)[j]? = (storeSens sens y start width n)[j]? := by
  rw [storeSens_eq, storeSens_eq, writes_congr h]
  refine getElem?_puts_congr hsize (hj.imp_right fun ⟨hl, hr⟩ => ?_)
  have hpos : 0 < width := by
    rcases Nat.eq_zero_or_pos width with rfl | h
    · omega
    · exact h
  have hd : (j-start)/width < n := (Nat.div_lt_iff_lt_mul hpos).mpr (by omega)
  have hmem : sens.getD ((j-start)/width) #[] ∈ sens := by
    rw [Array.getD_eq_getD_getElem?, Array.getElem?_eq_getElem (Nat.lt_of_lt_of_le hd h.left)]
    exact Array.getElem_mem _
  have hk : (j-start)%width < (sens.getD ((j-start)/width) #[]).size := by
    rw [hwidth _ hmem]
    exact Nat.mod_lt _ hpos
  have hplace : start + (j-start)/width*width + (j-start)%width = j := by
    rw [Nat.add_assoc, Nat.mul_comm, Nat.div_add_mod, Nat.add_sub_cancel' hl]
  exact ⟨_, mem_writes.mpr ⟨_, _, _, hd, Array.getElem?_eq_getElem hk, by rw [hplace]⟩⟩

theorem sizes_storeSens {sens : Array (Block K)} {start n : Nat} {ns ms : Array Nat} (hn : n ≤ sens.size)
    (hsens : ∀ x ∈ sens, x.sizes = ms) {y : Block K} (hy : y.sizes = ns)
    (h : ∀ d k, d < n → k < ms.size → ns[start + d*ms.size + k]? = ms[k]?) :
    Block.sizes (storeSens sens y start ms.size n) = ns := by
  rw [storeSens_eq]
  refine sizes_puts hy fun i v hv => ?_
  obtain ⟨d, k, w, hd, hw, he⟩ := mem_writes.mp hv
  obtain ⟨rfl, hvw⟩ := Prod.mk.inj he
  obtain rfl := Option.some.inj hvw
  have hsizes := Buffers.sizes_getD hsens (Nat.lt_of_lt_of_le hd hn)
  have hk : ms[k]? = some v.size := by
    rw [← hsizes, Block.sizes, Array.getElem?_map, hw]
    rfl
  rw [h d k hd (Array.getElem?_eq_some_iff.mp hk).1, hk]

end Evaluate

/-- The seeds of `f` and `a` directions of the parent are further inputs of the definition, their sensitivities
further outputs. -/
structure Definition.Spreads (W : Prop) (sig : Signature K) (f a : Nat) (p : Definition K) : Prop where
  inputs : sig.inputs = arranged p.sig.inputs p.sig.outputs f a
  outputs : sig.outputs = arranged p.sig.outputs p.sig.inputs f a
  room : W ∨ Room (p.sig.options.granted f a)

/-- Instances of the parent with the same inputs and room for the directions of a round. -/
structure Buffers.Loaded (cap : Nat × Nat) (b b' : Buffers K) : Prop where
  input : b'.input = b.input
  forward : cap.1 ≤ b.forward ∧ cap.1 ≤ b'.forward
  adjoint : cap.2 ≤ b.adjoint ∧ cap.2 ≤ b'.adjoint

namespace Evaluate

open Run

variable {W E : Prop} {d p : Definition K} {low high : Nat × Nat} {f a : Nat}

/-- Places of the sensitivities of round `r`. -/
def InRound (p : Definition K) (f a : Nat) (cap : Nat × Nat) (r j : Nat) : Prop :=
  let nIn := p.sig.inputs.size
  let nOut := p.sig.outputs.size
  (nOut + r*cap.1*nOut ≤ j ∧ j < nOut + r*cap.1*nOut + min cap.1 (f - r*cap.1) * nOut) ∨
    (nOut + f*nOut + r*cap.2*nIn ≤ j ∧ j < nOut + f*nOut + r*cap.2*nIn + min cap.2 (a - r*cap.2) * nIn)

/-- Outputs of a round, which agree where they did and in the sensitivities of the round. -/
structure RoundEnds (E : Prop) (outs : Array Nat) (written : Nat → Prop) (z z' : Block K) : Prop where
  left : z.sizes = outs
  right : z'.sizes = outs
  same : E → z' = z
  get : ∀ j, written j → z'[j]? = z[j]?

/-- Places of the sensitivities of the rounds before round `r`. -/
def Written (p : Definition K) (f a : Nat) (cap : Nat × Nat) (r j : Nat) : Prop :=
  let nIn := p.sig.inputs.size
  let nOut := p.sig.outputs.size
  (nOut ≤ j ∧ j < nOut + min (r*cap.1) f * nOut) ∨
    (nOut + f*nOut ≤ j ∧ j < nOut + f*nOut + min (r*cap.2) a * nIn)

theorem written_succ {cap : Nat × Nat} {r j : Nat} (h : Written p f a cap (r+1) j) :
    Written p f a cap r j ∨ InRound p f a cap r j := by
  -- The places of one side: those of the earlier directions, then those of the round.
  have hside {start n c w : Nat} (hl : start ≤ j) (hr : j < start + min ((r+1)*c) n * w) :
      (start ≤ j ∧ j < start + min (r*c) n * w) ∨
        (start + r*c*w ≤ j ∧ j < start + r*c*w + min c (n - r*c) * w) := by
    rw [Nat.succ_mul] at hr
    by_cases hn : r*c ≤ n
    · have hsum : min (r*c + c) n = r*c + min c (n - r*c) := by omega
      rw [hsum, Nat.add_mul] at hr
      rw [Nat.min_eq_left hn]
      omega
    · rw [Nat.min_eq_right (by omega)] at hr
      rw [Nat.min_eq_right (by omega)]
      exact .inl ⟨hl, hr⟩
  rw [Written] at h
  obtain ⟨hl, hr⟩ | ⟨hl, hr⟩ := h
  · exact (hside hl hr).imp .inl .inl
  · exact (hside hl hr).imp .inr .inr

theorem written_all {cap : Nat × Nat} {r j : Nat} (hf : f ≤ r*cap.1) (ha : a ≤ r*cap.2) (hl : p.sig.outputs.size ≤ j)
    (hr : j < p.sig.outputs.size + f*p.sig.outputs.size + a*p.sig.inputs.size) : Written p f a cap r j := by
  rw [Written, Nat.min_eq_right hf, Nat.min_eq_right ha]
  by_cases hj : j < p.sig.outputs.size + f*p.sig.outputs.size
  · exact .inl ⟨hl, hj⟩
  · exact .inr ⟨Nat.le_of_not_lt hj, hr⟩

/-- Rounds in which all directions have their turn. -/
theorem le_rounds {n c : Nat} (h : n = 0 ∨ 1 ≤ c) {rounds : Nat} (hr : ceilDiv n (max 1 c) ≤ rounds) :
    n ≤ rounds*c := by
  obtain rfl | hc := h
  · exact Nat.zero_le _
  rw [Nat.max_eq_right hc] at hr
  have hall : n ≤ ceilDiv n c * c := by
    by_contra hlt
    exact absurd ((lt_ceilDiv_iff hc).mpr (Nat.lt_of_not_le hlt)) (Nat.lt_irrefl _)
  exact Nat.le_trans hall (Nat.mul_le_mul_right c hr)

section Round

variable {cap : Nat × Nat} {r : Nat} {x y y' : Block K} {b b' : Buffers K}

/-- Buffers with the seeds of round `r`. -/
def loaded (p : Definition K) (f a : Nat) (cap : Nat × Nat) (x : Block K) (r : Nat) (b : Buffers K) : Buffers K :=
  let nIn := p.sig.inputs.size
  let nOut := p.sig.outputs.size
  {b with
    forwardSeed := loadSeeds b.forwardSeed x (nIn + r*cap.1*nIn) nIn (min cap.1 (f - r*cap.1))
    adjointSeed := loadSeeds b.adjointSeed x (nIn + f*nIn + r*cap.2*nOut) nOut (min cap.2 (a - r*cap.2))}

/-- Outputs with the sensitivities of round `r`. -/
def collected (p : Definition K) (f a : Nat) (cap : Nat × Nat) (r : Nat) (b : Buffers K) (y : Block K) : Block K :=
  let nIn := p.sig.inputs.size
  let nOut := p.sig.outputs.size
  storeSens b.adjointSens (storeSens b.forwardSens y (nOut + r*cap.1*nOut) nOut (min cap.1 (f - r*cap.1)))
    (nOut + f*nOut + r*cap.2*nIn) nIn (min cap.2 (a - r*cap.2))

theorem round_eq (eval : Evaluation K) (x y : Block K) (r : Nat) : round f a cap p eval x y r = (do
    Run.modifyBuffers (loaded p f a cap x r)
    let _ ← eval (min cap.1 (f - r*cap.1)) (min cap.2 (a - r*cap.2))
    return collected p f a cap r (← Run.buffers) y) := rfl

/-- Seeds are pieces of the inputs, in the sizes of the directions. -/
theorem sizes_seed {ns ms : Array Nat} {start c : Nat} (hx : x.sizes = ns)
    (h : ∀ k < ms.size, ns[start + c*ms.size + k]? = ms[k]?) :
    Block.sizes (x.extract (start + c*ms.size) (start + (c+1)*ms.size)) = ms := by
  rw [Block.sizes, Array.map_extract]
  change Array.extract (Block.sizes x) _ _ = ms
  rw [hx]
  refine Array.ext_getElem? fun k => ?_
  rw [Array.getElem?_extract, Nat.succ_mul]
  by_cases hk : k < ms.size
  · have hget := h k hk
    have hlt := (Array.getElem?_eq_some_iff.mp (hget.trans (Array.getElem?_eq_getElem hk))).1
    rw [if_pos (by omega), hget]
  · rw [if_neg (by omega), Array.getElem?_eq_none (by omega)]

/-- The seeds of a round have the sizes of their directions. -/
theorem recast_loaded (hx : x.sizes = arranged p.sig.inputSizes p.sig.outputSizes f a) (cap : Nat × Nat) (r : Nat)
    (hb : b.Shaped p.sig.inputSizes p.sig.outputSizes) : b.Recast p.sig (loaded p f a cap x r b) := by
  refine ⟨(hb.withForwardSeed (min cap.1 (f - r*cap.1)) _ fun d hd => ?_).withAdjointSeed (min cap.2 (a - r*cap.2)) _
    fun d hd => ?_, Buffers.size_firstBlocks _ _ _, Buffers.size_firstBlocks _ _ _⟩
  · rw [← Signature.size_inputSizes]
    refine sizes_seed hx fun k hk => ?_
    rw [Nat.add_assoc p.sig.inputSizes.size, ← Nat.add_mul]
    exact getElem?_forward (by omega) hk
  · rw [← Signature.size_inputSizes, ← Signature.size_outputSizes]
    refine sizes_seed hx fun k hk => ?_
    rw [Nat.add_assoc (p.sig.inputSizes.size + _), ← Nat.add_mul]
    exact getElem?_adjoint (by omega) hk

/-- Both sides have the same seeds in a round. -/
theorem alike_loaded (h : b.Loaded cap b') (x : Block K) (r : Nat) :
    (loaded p f a cap x r b).Alike (min cap.1 (f - r*cap.1)) (min cap.2 (a - r*cap.2)) (loaded p f a cap x r b') :=
  ⟨h.input,
    Buffers.agree_firstBlocks _ (Nat.le_trans (Nat.min_le_left _ _) h.forward.1)
      (Nat.le_trans (Nat.min_le_left _ _) h.forward.2),
    Buffers.agree_firstBlocks _ (Nat.le_trans (Nat.min_le_left _ _) h.adjoint.1)
      (Nat.le_trans (Nat.min_le_left _ _) h.adjoint.2)⟩

theorem size_of_sizes {ns : Array Nat} {sens : Array (Block K)} (h : ∀ s ∈ sens, s.sizes = ns) :
    ∀ s ∈ sens, s.size = ns.size :=
  fun s hs => by rw [← h s hs, Block.size_sizes]

section Collected

variable (hb : b.Shaped p.sig.inputSizes p.sig.outputSizes)
  (hy : y.sizes = arranged p.sig.outputSizes p.sig.inputSizes f a) (hf : min cap.1 (f - r*cap.1) ≤ b.forward)
  (ha : min cap.2 (a - r*cap.2) ≤ b.adjoint)
include hb hy hf

theorem sizes_storeForward :
    Block.sizes (storeSens b.forwardSens y (p.sig.outputs.size + r*cap.1*p.sig.outputs.size) p.sig.outputs.size
      (min cap.1 (f - r*cap.1))) = arranged p.sig.outputSizes p.sig.inputSizes f a := by
  rw [← Signature.size_outputSizes]
  refine sizes_storeSens (hb.forward ▸ hf) hb.forwardSens hy fun d k hd hk => ?_
  rw [Nat.add_assoc p.sig.outputSizes.size, ← Nat.add_mul]
  exact getElem?_forward (by omega) hk

/-- What agrees before a round or is written in it agrees after it. -/
theorem getElem?_collected (hb' : b'.Shaped p.sig.inputSizes p.sig.outputSizes)
    (hy' : y'.sizes = arranged p.sig.outputSizes p.sig.inputSizes f a) (hf' : min cap.1 (f - r*cap.1) ≤ b'.forward)
    (h : b.Settled (min cap.1 (f - r*cap.1)) (min cap.2 (a - r*cap.2)) b') {j : Nat}
    (hj : y'[j]? = y[j]? ∨ InRound p f a cap r j) :
    (collected p f a cap r b' y')[j]? = (collected p f a cap r b y)[j]? := by
  have hfirst := sizes_storeForward hb hy hf
  have hfirst' := sizes_storeForward hb' hy' hf'
  have hwidth := size_of_sizes hb.forwardSens
  have hwidth' := size_of_sizes hb.adjointSens
  rw [Signature.size_outputSizes] at hwidth
  rw [Signature.size_inputSizes] at hwidth'
  rw [InRound] at hj
  refine getElem?_storeSens h.adjointSens hwidth' (Block.size_eq (hfirst'.trans hfirst.symm))
    ((or_assoc.mpr hj).imp_left fun hj => ?_)
  exact getElem?_storeSens h.forwardSens hwidth (Block.size_eq (hy'.trans hy.symm)) hj

include ha

/-- The sensitivities of a round have the sizes of their places. -/
theorem sizes_collected :
    Block.sizes (collected p f a cap r b y) = arranged p.sig.outputSizes p.sig.inputSizes f a := by
  have hfirst := sizes_storeForward hb hy hf
  rw [collected]
  generalize storeSens b.forwardSens y _ _ _ = z at hfirst
  rw [← Signature.size_inputSizes, ← Signature.size_outputSizes]
  refine sizes_storeSens (hb.adjoint ▸ ha) hb.adjointSens hfirst fun d k hd hk => ?_
  rw [Nat.add_assoc (p.sig.outputSizes.size + _), ← Nat.add_mul]
  exact getElem?_adjoint (by omega) hk

end Collected

variable {eval : Evaluation K}

theorem beside_round (heval : eval.Settles W E p p.sig.options.initial (p.sig.options.granted f a))
    (hx : x.sizes = arranged p.sig.inputSizes p.sig.outputSizes f a)
    (hy : y.sizes = arranged p.sig.outputSizes p.sig.inputSizes f a)
    (hy' : y'.sizes = arranged p.sig.outputSizes p.sig.inputSizes f a) (he : E → y' = y) (r : Nat) :
    Beside W (Joint E p p.sig.options.initial (p.sig.options.granted f a)) (onBuffers (Buffers.Loaded cap))
      (round f a cap p eval x y r) (round f a cap p eval x y' r) fun z z' m m' =>
        RoundEnds E (arranged p.sig.outputSizes p.sig.inputSizes f a)
          (fun j => y'[j]? = y[j]? ∨ InRound p f a cap r j) z z' ∧
        onBuffers (fun b b' => b.Loaded cap b' ∧ b'.output = b.output) m m' := by
  rw [round_eq, round_eq]
  generalize hnf : min cap.1 (f - r*cap.1) = nf
  generalize hna : min cap.2 (a - r*cap.2) = na
  have hkeeps : Keeps (fun g => cap.1 ≤ g.buffers.forward ∧ cap.2 ≤ g.buffers.adjoint) (eval nf na) := by
    intro m hm
    have hkept := heval.directions m.frame.buffers.directions nf na m rfl
    have hf : (((eval nf na).run m).2.frame.buffers).forward = m.frame.buffers.forward := congrArg Prod.fst hkept
    have ha : (((eval nf na).run m).2.frame.buffers).adjoint = m.frame.buffers.adjoint := congrArg Prod.snd hkept
    rwa [hf, ha]
  refine Beside.next (R := onBuffers fun b b' => b.Alike nf na b' ∧ b.Loaded cap b')
    (.recast fun b b' hb hb' he h => ?_) fun _ _ => ?_
  · have hl := recast_loaded hx cap r hb
    have hr := recast_loaded hx cap r hb'
    exact ⟨hl, hr, fun e => by rw [he e], hnf ▸ hna ▸ alike_loaded h x r, h.input,
      ⟨hl.forward ▸ h.forward.1, hr.forward ▸ h.forward.2⟩, hl.adjoint ▸ h.adjoint.1, hr.adjoint ▸ h.adjoint.2⟩
  refine Beside.bind (((heval.beside nf na).before (R := onBuffers fun b b' => b.Alike nf na b' ∧ b.Loaded cap b')
    fun _ _ _ h => h.1).keeps hkeeps hkeeps fun _ _ h =>
      ⟨⟨h.2.forward.1, h.2.adjoint.1⟩, h.2.forward.2, h.2.adjoint.2⟩) fun _ _ => ?_
  refine Beside.before (P := onBuffers fun b b' => b.Settled nf na b' ∧ b.Loaded cap b') ?_ fun m m' _ h =>
    ⟨h.1.2, h.1.2.input, ⟨h.2.1.1, h.2.2.1⟩, h.2.1.2, h.2.2.2⟩
  refine .reading fun b b' hb hb' hsame ⟨h, hloaded⟩ => .pure fun m m' _ hm => ⟨?_, ?_⟩
  · subst hnf hna
    have hf := Nat.le_trans (Nat.min_le_left cap.1 (f - r*cap.1)) hloaded.forward.1
    have hf' := Nat.le_trans (Nat.min_le_left cap.1 (f - r*cap.1)) hloaded.forward.2
    have ha := Nat.le_trans (Nat.min_le_left cap.2 (a - r*cap.2)) hloaded.adjoint.1
    have ha' := Nat.le_trans (Nat.min_le_left cap.2 (a - r*cap.2)) hloaded.adjoint.2
    exact ⟨sizes_collected hb.shaped hy hf ha, sizes_collected hb'.shaped hy' hf' ha', fun e => by rw [hsame e, he e],
      fun j hj => getElem?_collected hb.shaped hy hf hb'.shaped hy' hf' h hj⟩
  · rw [onBuffers, hm.1, hm.2]
    exact ⟨hloaded, h.output⟩

end Round

variable [Number K]

/-- The directions that a derivative gets from its parent. -/
def granting (p : Definition K) (f a : Nat) (x : Block K) : Run K (Nat × Nat) := do
  let s := p.sig
  s.setInputs (x.extract 0 s.inputs.size)
  let cap ← s.requestDirections f a
  if (0 < f && cap.1 = 0) || (0 < a && cap.2 = 0) then
    throw (.unsupported s.name .directionCapacity)
  return cap

/-- The rounds of a derivative. One that ended with a fault is the last. -/
def rounds (p : Definition K) (f a : Nat) (cap : Nat × Nat) (eval : Evaluation K) (x y : Block K) :
    Run K (Block K × Option Fault) :=
  (List.range (max 1 (max (ceilDiv f (max 1 cap.1)) (ceilDiv a (max 1 cap.2))))).foldlM (fun (y, e?) r => do
    if e?.isSome then return (y, e?)
    match ← Run.observe (Run.inParent p.sig.frame (round f a cap p eval x y r)) with
    | .ok y => return (y, none)
    | .error e => return (y, some e)) (y, none)

theorem derivative_eq (p : Definition K) (f a : Nat) (eval : Evaluation K) (x y : Block K) :
    derivative f a p eval x y = (do
      match ← Run.observe (Run.inParent p.sig.frame (granting p f a x)) with
      | .error e => return (y, some e)
      | .ok cap =>
        let (y, e) ← rounds p f a cap eval x y
        if e.isSome then return (y, e)
        let outputs ← Run.inParent p.sig.frame do return (← Run.buffers).output
        return (outputs ++ y.extract p.sig.outputs.size y.size, none)) := rfl

/-- Both instances get all directions that the parent grants. -/
theorem beside_granting (hroom : W ∨ Room (p.sig.options.granted f a)) {x : Block K}
    (hx : x.sizes = arranged p.sig.inputSizes p.sig.outputSizes f a) :
    Beside W (Joint E p p.sig.options.initial (p.sig.options.granted f a)) (onBuffers fun _ _ => True)
      (granting p f a x) (granting p f a x) fun c c' m m' =>
        (c' = c ∧ (f = 0 ∨ 1 ≤ c.1) ∧ (a = 0 ∨ 1 ≤ c.2)) ∧ onBuffers (Buffers.Loaded c) m m' := by
  rw [granting]
  have hsize : (x.extract 0 p.sig.inputs.size).size = p.sig.inputs.size := by
    have htotal := congrArg Array.size hx
    rw [size_arranged] at htotal
    simp only [Block.sizes, Signature.inputSizes, Array.size_map] at htotal
    simp only [Array.size_extract]
    omega
  refine Beside.next (.setInputs hsize) fun _ _ => (Beside.requestDirections
    (p.sig.options.grants_granted (Nat.le_refl f) (Nat.le_refl a))
    (hroom.imp_left fun hw => ⟨hw, .inr (p.sig.options.steady f a)⟩)).bind fun c c' =>
    .assume (p := c' = c) (fun m m' hg h => ?_) fun hc => ?_
  · obtain ⟨-, hgranted⟩ := h
    have hsteady := p.sig.options.steady f a
    have hl := hg.left.frame
    have hr := hg.right.frame
    have hall {b : Buffers K} (hb : b.Fits p.sig p.sig.options.initial (p.sig.options.granted f a))
        (hf : min f p.sig.options.maxForward ≤ b.forward) (ha : min a p.sig.options.maxAdjoint ≤ b.adjoint) :
        (b.forward, b.adjoint) = p.sig.options.granted f a := by
      refine Prod.ext ?_ ?_
      · rw [← hsteady.forward _ hb.forward.1 hb.forward.2, Nat.max_eq_left hf]
      · rw [← hsteady.adjoint _ hb.adjoint.1 hb.adjoint.2, Nat.max_eq_left ha]
    obtain ⟨-, rfl, rfl, hf, ha⟩ := hgranted
    rw [hall hl hf.1 ha.1, hall hr hf.2 ha.2]
  · rw [hc]
    refine .ite (fun _ => .throw_bind (.inr fun c hc => by cases hc)) fun hcap => .pure fun m m' _ h => ⟨⟨rfl, ?_⟩, ?_⟩
    · simp only [Bool.or_eq_true, Bool.and_eq_true, decide_eq_true_eq] at hcap
      omega
    · obtain ⟨hin, hl, hr, -, -⟩ := h.2
      exact ⟨hin, ⟨Nat.le_of_eq (congrArg Prod.fst hl).symm, Nat.le_of_eq (congrArg Prod.fst hr).symm⟩,
        Nat.le_of_eq (congrArg Prod.snd hl).symm, Nat.le_of_eq (congrArg Prod.snd hr).symm⟩

/-- Outputs and the fault after some rounds; without a fault they agree in what was written. -/
structure Progress (W E : Prop) (outs : Array Nat) (written : Nat → Prop) (s s' : Block K × Option Fault) :
    Prop where
  fault : s'.2 = s.2
  left : s.1.sizes = outs
  right : s'.1.sizes = outs
  same : E → s'.1 = s.1
  tame : ∀ e, s.2 = some e → Tame W e
  get : s.2 = none → ∀ j, written j → s'.1[j]? = s.1[j]?

/-- A round, unless there was a fault before. -/
def attempt (p : Definition K) (f a : Nat) (cap : Nat × Nat) (eval : Evaluation K) (x : Block K)
    (s : Block K × Option Fault) (r : Nat) : Run K (Block K × Option Fault) := do
  if s.2.isSome then return (s.1, s.2)
  match ← Run.observe (Run.inParent p.sig.frame (round f a cap p eval x s.1 r)) with
  | .ok y => return (y, none)
  | .error e => return (s.1, some e)

theorem rounds_eq (p : Definition K) (f a : Nat) (cap : Nat × Nat) (eval : Evaluation K) (x y : Block K) :
    rounds p f a cap eval x y = (List.range (max 1 (max (ceilDiv f (max 1 cap.1)) (ceilDiv a (max 1 cap.2))))).foldlM
      (attempt p f a cap eval x) (y, none) := rfl

section Derivative

variable {eval : Evaluation K} {cap : Nat × Nat} {x : Block K} {R : Buffers K → Buffers K → Prop}
  (hd : Over d p f a) (heval : eval.Settles W E p p.sig.options.initial (p.sig.options.granted f a))

include hd heval in
/-- A round adds its places to those that agree. -/
theorem beside_attempt (hx : x.sizes = arranged p.sig.inputSizes p.sig.outputSizes f a) {r : Nat}
    {s s' : Block K × Option Fault}
    (hs : Progress W E (arranged p.sig.outputSizes p.sig.inputSizes f a) (Written p f a cap r) s s') :
    Beside W (Joint E d low high)
      (fun m m' => s.2 = none → onBuffers R m m' ∧ onParents p (Buffers.Loaded cap) m m')
      (attempt p f a cap eval x s r) (attempt p f a cap eval x s' r) fun t t' m m' =>
        Progress W E (arranged p.sig.outputSizes p.sig.inputSizes f a) (Written p f a cap (r+1)) t t' ∧
          (t.2 = none → onBuffers R m m' ∧ onParents p (fun b b' => b.Loaded cap b' ∧ b'.output = b.output) m m') := by
  obtain ⟨z, e⟩ := s
  obtain ⟨z', e'⟩ := s'
  obtain rfl : e' = e := hs.fault
  cases e' with
  | some e =>
    exact .pure fun m m' _ _ => ⟨⟨rfl, hs.left, hs.right, hs.same, hs.tame, fun h0 => by cases h0⟩,
      fun h0 => by cases h0⟩
  | none =>
    have hround := beside_inParent low high R (V := fun _ b b' => b.Loaded cap b' ∧ b'.output = b.output) hd
      (beside_round heval hx hs.left hs.right hs.same r)
    refine Beside.bind (hround.observe.before fun m m' _ h => h rfl)
      (.observed (fun w w' => .pure fun m m' _ h => ?_) fun e he => .pure fun m m' _ _ => ?_)
    · obtain ⟨hends, hR, hparents⟩ := h
      exact ⟨⟨rfl, hends.left, hends.right, hends.same, by simp, fun _ j hj =>
        hends.get j ((written_succ hj).imp_left (hs.get rfl j))⟩, fun _ => ⟨hR, hparents⟩⟩
    · exact ⟨⟨rfl, hs.left, hs.right, hs.same, fun e' he' => by cases he'; exact he, fun h0 => by cases h0⟩,
        fun h0 => by cases h0⟩

include hd heval in
theorem beside_rounds {y y' : Block K} (hx : x.sizes = arranged p.sig.inputSizes p.sig.outputSizes f a)
    (hy : y.sizes = arranged p.sig.outputSizes p.sig.inputSizes f a)
    (hy' : y'.sizes = arranged p.sig.outputSizes p.sig.inputSizes f a) (he : E → y' = y)
    (hf : f = 0 ∨ 1 ≤ cap.1) (ha : a = 0 ∨ 1 ≤ cap.2) :
    Beside W (Joint E d low high) (fun m m' => onBuffers R m m' ∧ onParents p (Buffers.Loaded cap) m m')
      (rounds p f a cap eval x y) (rounds p f a cap eval x y') fun s s' m m' =>
        Progress W E (arranged p.sig.outputSizes p.sig.inputSizes f a) (fun j => p.sig.outputs.size ≤ j ∧
          j < p.sig.outputs.size + f*p.sig.outputs.size + a*p.sig.inputs.size) s s' ∧
        (s.2 = none → onBuffers R m m' ∧ onParents p (fun b b' => b'.output = b.output) m m') := by
  rw [rounds_eq, rounds_eq]
  generalize hn : max 1 (max (ceilDiv f (max 1 cap.1)) (ceilDiv a (max 1 cap.2))) = n
  -- Only after the first round the outputs of the parent are the same.
  have hloop := Beside.foldlM_range (W := W) (G := Joint E d low high) (f := attempt p f a cap eval x)
    (g := attempt p f a cap eval x)
    (fun r s s' m m' => Progress W E (arranged p.sig.outputSizes p.sig.inputSizes f a) (Written p f a cap r) s s' ∧
      (s.2 = none → onBuffers R m m' ∧ onParents p (fun b b' => b.Loaded cap b' ∧ (0 < r → b'.output = b.output)) m m'))
    n (fun r _ s s' => .assume (fun _ _ _ h => h.1) fun hs => (beside_attempt hd heval hx hs).weaken
      (fun m m' _ h h0 => ⟨(h.2 h0).1, (h.2 h0).2.1⟩)
      fun t t' m m' _ h => ⟨h.1, fun h0 => ⟨(h.2 h0).1, (h.2 h0).2.1, fun _ => (h.2 h0).2.2⟩⟩) (y, none) (y', none)
  refine hloop.weaken (fun m m' _ h => ⟨⟨rfl, hy, hy', he, by simp, ?_⟩, fun _ => ⟨h.1, h.2, fun h0 => absurd h0 (by omega)⟩⟩)
    fun s s' m m' _ h => ⟨⟨h.1.fault, h.1.left, h.1.right, h.1.same, h.1.tame, fun h0 j hj => ?_⟩, fun h0 => ?_⟩
  · rintro - j hj
    simp only [Written, Nat.zero_mul, Nat.zero_min, Nat.add_zero] at hj
    omega
  · refine h.1.get h0 j (written_all ?_ ?_ hj.1 hj.2)
    · exact le_rounds hf (by omega)
    · exact le_rounds ha (by omega)
  · exact ⟨(h.2 h0).1, (h.2 h0).2.2 (by omega)⟩

omit [Number K] in
/-- Behind the outputs of the parent stand the sensitivities, in their sizes. -/
theorem sizes_complete {v z : Block K} (hv : v.sizes = p.sig.outputSizes)
    (hz : z.sizes = arranged p.sig.outputSizes p.sig.inputSizes f a) :
    Block.sizes (v ++ z.extract p.sig.outputs.size z.size) = arranged p.sig.outputSizes p.sig.inputSizes f a := by
  rw [Block.sizes_append, hv, Block.sizes, Array.map_extract]
  change p.sig.outputSizes ++ Array.extract (Block.sizes z) _ _ = _
  rw [← Block.size_sizes z, hz, ← Signature.size_outputSizes]
  exact append_extract_arranged _ _ _ _

omit [Number K] in
/-- The places of a derivative. -/
theorem size_of_arranged {z : Block K} (hz : z.sizes = arranged p.sig.outputSizes p.sig.inputSizes f a) :
    z.size = p.sig.outputs.size + f*p.sig.outputs.size + a*p.sig.inputs.size := by
  rw [← Block.size_sizes, hz, size_arranged, Signature.size_outputSizes, Signature.size_inputSizes]

omit [Number K] in
theorem extract_congr {z z' : Block K} {n : Nat} (hsize : z'.size = z.size)
    (h : ∀ j, n ≤ j → j < z.size → z'[j]? = z[j]?) : z'.extract n z'.size = z.extract n z.size := by
  refine Array.ext_getElem? fun k => ?_
  rw [Array.getElem?_extract, Array.getElem?_extract, hsize]
  by_cases hk : k < min z.size z.size - n
  · rw [if_pos hk, if_pos hk, h _ (Nat.le_add_right _ _) (by omega)]
  · rw [if_neg hk, if_neg hk]

include hd heval in
/-- A derivative answers the same from any outputs it starts from. -/
theorem settles_derivative (hspreads : p.Spreads W d.sig f a) : Body.Settles W E d low high (derivative f a p eval) := by
  intro R x y y' hx hy hy' he
  have hins : d.sig.inputSizes = arranged p.sig.inputSizes p.sig.outputSizes f a := by
    rw [Signature.inputSizes, hspreads.inputs, map_arranged]
    rfl
  have houts : d.sig.outputSizes = arranged p.sig.outputSizes p.sig.inputSizes f a := by
    rw [Signature.outputSizes, hspreads.outputs, map_arranged]
    rfl
  rw [houts] at hy hy'
  rw [derivative_eq, derivative_eq, houts]
  have hfault {e : Fault} (htame : Tame W e) {z z' : Block K}
      (hz : z.sizes = arranged p.sig.outputSizes p.sig.inputSizes f a)
      (hz' : z'.sizes = arranged p.sig.outputSizes p.sig.inputSizes f a) (hsame : E → z' = z) :
      Replies W E (arranged p.sig.outputSizes p.sig.inputSizes f a) (z, some e) (z', some e) :=
    ⟨rfl, hz, hz', fun h => hsame (h.resolve_right (by simp)), fun e' he' => by cases he'; exact htame⟩
  have hstart := beside_inParent low high R (E := E) (S := fun _ _ => True)
    (V := fun c : Nat × Nat => Buffers.Loaded c) (Q := fun c c' => c' = c ∧ (f = 0 ∨ 1 ≤ c.1) ∧ (a = 0 ∨ 1 ≤ c.2))
    hd (beside_granting hspreads.room (hx.trans hins))
  refine Beside.bind (hstart.observe.before fun _ _ _ h => ⟨h, trivial⟩)
    (.observed (fun cap cap' => .assume (fun _ _ _ h => h.1) fun hcaps => ?_) fun e htame =>
      .pure fun _ _ _ _ => ⟨hfault htame hy hy' he, fun h => by cases h⟩)
  obtain ⟨rfl, hf, ha⟩ := hcaps
  refine Beside.bind ((beside_rounds (R := R) hd heval (hx.trans hins) hy hy' he hf ha).before fun _ _ _ h => h.2)
    fun s s' => .assume (fun _ _ _ h => h.1) fun hs => ?_
  obtain ⟨z, e⟩ := s
  obtain ⟨z', e'⟩ := s'
  obtain rfl : e' = e := hs.fault
  cases e' with
  | some e =>
    exact .pure fun _ _ _ _ => ⟨hfault (hs.tame e rfl) hs.left hs.right hs.same, fun h => by cases h⟩
  | none =>
    have hread : Beside W (Joint E p p.sig.options.initial (p.sig.options.granted f a))
        (onBuffers fun b b' => b'.output = b.output) (do return (← Run.buffers).output)
        (do return (← Run.buffers).output) fun v v' m m' => (v' = v ∧ v.sizes = p.sig.outputSizes) ∧
          onBuffers (fun _ _ => True) m m' :=
      .reading fun b b' hb hb' _ h => .pure fun _ _ _ _ => ⟨⟨h, hb.shaped.output⟩, trivial⟩
    have houtputs := beside_inParent low high R hd hread
    refine Beside.bind (houtputs.before fun _ _ _ h => h.2 rfl) fun v v' => .assume (fun _ _ _ h => h.1) fun hv =>
      .pure fun _ _ _ h => ⟨?_, fun _ => h.2.1⟩
    have hrest : z'.extract p.sig.outputs.size z'.size = z.extract p.sig.outputs.size z.size :=
      extract_congr (Block.size_eq (hs.right.trans hs.left.symm)) fun j hl hr =>
        hs.get rfl j ⟨hl, size_of_arranged hs.left ▸ hr⟩
    have hsizes := sizes_complete hv.2 hs.left
    rw [hv.1, hrest]
    exact ⟨rfl, hsizes, hsizes, fun _ => rfl, by simp⟩

end Derivative

end Evaluate

end Fluxion
