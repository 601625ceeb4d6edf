import Fluxion.Proofs.Function.Hinges
import Fluxion.Proofs.Function.Steps

/-!
What an evaluation computes, direction by direction. The sensitivities of a direction depend on the inputs and on
its own seed; whether the evaluation returns hinges on the outputs and on every direction it is asked for.
-/
set_option autoImplicit false

namespace Fluxion

open Run

variable {K T α : Type}

/-- The outputs at inputs, and the sensitivities for one seed there; nothing where the evaluation fails. -/
structure Effect (K : Type) where
  value : Block K → Option (Block K)
  forward : Block K → Block K → Option (Block K)
  adjoint : Block K → Block K → Option (Block K)

namespace Effect

/-- There are outputs, and sensitivities for the seeds of the first directions. -/
structure Has (E : Effect K) (f a : Nat) (b : Buffers K) : Prop where
  value : (E.value b.input).isSome
  forward : ∀ d < f, (E.forward b.input (b.forwardSeed.getD d #[])).isSome
  adjoint : ∀ d < a, (E.adjoint b.input (b.adjointSeed.getD d #[])).isSome

/-- The outputs and the sensitivities in `b'` belong to the inputs and the seeds in `b`. -/
structure Gives (E : Effect K) (f a : Nat) (b b' : Buffers K) : Prop where
  value : E.value b.input = some b'.output
  forward : ∀ d < f, E.forward b.input (b.forwardSeed.getD d #[]) = some (b'.forwardSens.getD d #[])
  adjoint : ∀ d < a, E.adjoint b.input (b.adjointSeed.getD d #[]) = some (b'.adjointSens.getD d #[])

/-- Buffers after an evaluation: they hold what `E` tells of the ones before, and nothing else changed. -/
structure Leaves (E : Effect K) (d : Definition K) (low high : Nat × Nat) (f a : Nat) (m n : Machine K) : Prop where
  gives : E.Gives f a m.frame.buffers n.frame.buffers
  undisturbed : m.frame.buffers.Undisturbed n.frame.buffers
  fits : n.Fits d low high

/-- From every machine with enough directions, whether the action returns hinges on `E`, and it leaves what `E`
tells. -/
def Decides (E : Effect K) (d : Definition K) (act : Nat → Nat → Run K α) : Prop :=
  ∀ low high f a m, m.Fits d low high → f ≤ m.frame.buffers.forward → a ≤ m.frame.buffers.adjoint →
    Hinges (E.Has f a m.frame.buffers) m (act f a) fun _ n => E.Leaves d low high f a m n

end Effect

/-! ### Zero seeds -/

namespace Compaction

variable {isZero : T → Bool} {seeds sens : Array (Block T)} {n d : Nat} {ns : Array Nat}

/-- Zeros for a seed of zeros. -/
def skipping (isZero : T → Bool) (zeros : Block T) (g : Block T → Option (Block T)) (seed : Block T) : Option (Block T) :=
  if seed.all (·.all isZero) then some zeros else g seed

theorem skipping_blank (h : Blank isZero seeds d) (zeros : Block T) (g : Block T → Option (Block T)) :
    skipping isZero zeros g (seeds.getD d #[]) = some zeros := if_pos h

theorem skipping_of_not_blank (h : ¬Blank isZero seeds d) (zeros : Block T) (g : Block T → Option (Block T)) :
    skipping isZero zeros g (seeds.getD d #[]) = g (seeds.getD d #[]) := if_neg h

theorem getD_source {source : Nat → Nat} (h : n ≤ seeds.size)
    (hm : Moved isZero seeds n (compact isZero seeds n).1 (compact isZero seeds n).2.1 (compact isZero seeds n).2.2 source)
    (d : Nat) : (compact isZero seeds n).1.getD (source d) #[] = seeds.getD d #[] := by
  rw [Array.getD_eq_getD_getElem?, Array.getD_eq_getD_getElem?, ← hm.expand _ (compact_sizes isZero seeds n).1,
    expand_compact isZero seeds h]

/-- The seeds in front have sensitivities exactly if all seeds that are not skipped have. -/
theorem forall_isSome_iff (isZero : T → Bool) (h : n ≤ seeds.size) (zeros : Block T) (g : Block T → Option (Block T)) :
    (∀ e < (compact isZero seeds n).2.2, (g ((compact isZero seeds n).1.getD e #[])).isSome) ↔
      ∀ d < n, (skipping isZero zeros g (seeds.getD d #[])).isSome := by
  obtain ⟨source, hm⟩ := compact_moved isZero seeds h
  constructor
  · intro hall d hd
    by_cases hb : Blank isZero seeds d
    · rw [skipping_blank hb]
      rfl
    · rw [skipping_of_not_blank hb, ← getD_source h hm d]
      exact hall _ (hm.front d hd hb)
  · intro hall e he
    obtain ⟨d, hd, hb, rfl⟩ := hm.onto e he
    rw [getD_source h hm d, ← skipping_of_not_blank hb zeros g]
    exact hall d hd

/-- Sensitivities of the seeds in front, moved back and cleared, are those of all seeds. -/
theorem skipping_eq (h : n ≤ seeds.size) (hs : sens.size = seeds.size) (hsizes : ∀ x ∈ sens, x.sizes = ns) {zero : T}
    {g : Block T → Option (Block T)}
    (hg : ∀ e < (compact isZero seeds n).2.2, g ((compact isZero seeds n).1.getD e #[]) = some (sens.getD e #[]))
    (hd : d < n) : skipping isZero (.filled ns zero) g (seeds.getD d #[]) =
      some (((compact isZero seeds n).2.1.clear zero ((compact isZero seeds n).2.1.expand sens)).getD d #[]) := by
  obtain ⟨source, hm⟩ := compact_moved isZero seeds h
  have hlt : d < ((compact isZero seeds n).2.1.expand sens).size := by
    rw [size_expand, hs]
    omega
  rw [@Array.getD_eq_getD_getElem? _ (clear _ _ _), getElem?_clear]
  by_cases hb : Blank isZero seeds d
  · rw [skipping_blank hb, if_pos ((hm.skipped d).mpr ⟨hd, hb⟩), Array.getElem?_eq_getElem hlt, Option.map_some,
      Block.clear_eq, hsizes _ (mem_expand (Array.getElem_mem hlt)), Option.getD_some]
  · rw [skipping_of_not_blank hb, if_neg fun hskip => hb ((hm.skipped d).mp hskip).2, hm.expand sens hs,
      ← getD_source h hm d, hg _ (hm.front d hd hb), Array.getD_eq_getD_getElem?]

end Compaction

variable [Number K] {E : Effect K} {d : Definition K}

namespace Effect

/-- Directions with a seed of zeros are not swept, if the options say so. -/
def skipping (s : Signature K) (E : Effect K) : Effect K :=
  if s.options.compressDirections then {E with
    forward := fun x => Compaction.skipping Number.isZero (.filled s.outputSizes Number.zero) (E.forward x)
    adjoint := fun x => Compaction.skipping Number.isZero (.filled s.inputSizes Number.zero) (E.adjoint x)}
  else E

theorem value_skipping {s : Signature K} (x : Block K) : (E.skipping s).value x = E.value x := by
  rw [skipping]
  split <;> rfl

theorem Decides.compressed {dispatch : Nat → Nat → Run K Unit} (h : E.Decides d dispatch)
    (hc : d.sig.options.compressDirections = true) :
    (E.skipping d.sig).Decides d (Evaluate.compressed dispatch) := by
  intro low high f a m hm hf ha
  have hskip : E.skipping d.sig = {E with
    forward := fun x => Compaction.skipping Number.isZero (.filled d.sig.outputSizes Number.zero) (E.forward x)
    adjoint := fun x => Compaction.skipping Number.isZero (.filled d.sig.inputSizes Number.zero) (E.adjoint x)} := if_pos hc
  have hforward := Compaction.forall_isSome_iff Number.isZero hf (.filled d.sig.outputSizes Number.zero)
    (E.forward m.frame.buffers.input)
  have hadjoint := Compaction.forall_isSome_iff Number.isZero ha (.filled d.sig.inputSizes Number.zero)
    (E.adjoint m.frame.buffers.input)
  have hpacked := Evaluate.recast_packed hm.frame.shaped f a
  have hfront := Buffers.inFront_le m.frame.buffers hf ha
  have hfits : (m.withBuffers _).Fits d low high := ⟨hm.frame.recast hpacked, hm.inner⟩
  have hdispatch := h low high _ _ _ hfits hfront.1 hfront.2
  rw [hskip, Evaluate.compressed_eq]
  refine .reading (.writing ((hdispatch.outcome (R := True) (fun _ n _ hn => ?_) fun e n => ?_).congr ?_))
  · have hleft := hn.fits.frame.shaped
    refine .writing (.pure ⟨⟨hn.gives.value, fun k hk => ?_, fun k hk => ?_⟩,
      Evaluate.undisturbed_unpacked _ _ hf ha hn.undisturbed,
      ⟨hn.fits.frame.recast (Evaluate.recast_unpacked hleft _ f a), hn.fits.inner⟩⟩)
    · exact Compaction.skipping_eq hf (hn.undisturbed.forward.trans hm.frame.shaped.forward) hleft.forwardSens hn.gives.forward hk
    · exact Compaction.skipping_eq ha (hn.undisturbed.adjoint.trans hm.frame.shaped.adjoint) hleft.adjointSens hn.gives.adjoint hk
  · exact ⟨e, _, rfl⟩
  · rw [and_true]
    exact ⟨fun h => ⟨h.value, hforward.mp h.forward, hadjoint.mp h.adjoint⟩,
      fun h => ⟨h.value, hforward.mpr h.forward, hadjoint.mpr h.adjoint⟩⟩

/-- Without directions there is nothing to skip. -/
theorem skipping_plain {s : Signature K} {f a : Nat}
    (h : ¬(s.options.compressDirections && (0 < f || 0 < a)) = true) (E : Effect K) (b : Buffers K) :
    ((E.skipping s).Has f a b ↔ E.Has f a b) ∧ ∀ b', E.Gives f a b b' → (E.skipping s).Gives f a b b' := by
  rw [skipping]
  split
  · next hc =>
    obtain ⟨rfl, rfl⟩ : f = 0 ∧ a = 0 := by simpa [hc] using h
    refine ⟨⟨fun h => ⟨h.value, ?_, ?_⟩, fun h => ⟨h.value, ?_, ?_⟩⟩, fun b' h => ⟨h.value, ?_, ?_⟩⟩
    all_goals exact fun _ hd => absurd hd (Nat.not_lt_zero _)
  · exact ⟨Iff.rfl, fun _ h => h⟩

theorem Decides.sweeping {dispatch : Nat → Nat → Run K Unit} (h : E.Decides d dispatch) :
    (E.skipping d.sig).Decides d (Evaluate.sweeping d.sig dispatch) := by
  intro low high f a m hm hf ha
  rw [Evaluate.sweeping]
  split
  · next hc => exact h.compressed (Bool.and_eq_true _ _ ▸ hc).1 low high f a m hm hf ha
  · next hc =>
    obtain ⟨hhas, hgives⟩ := skipping_plain hc E m.frame.buffers
    exact ((h low high f a m hm hf ha).congr hhas.symm).map fun _ n _ hn =>
      .pure ⟨hgives _ hn.gives, hn.undisturbed, hn.fits⟩

/-! ### Values that are not finite -/

theorem flatMap_zipIdx_eq_empty {β : Type} {xs : Array T} {g : T × Nat → Array β} :
    xs.zipIdx.flatMap g = #[] ↔ ∀ i x, xs[i]? = some x → g (x,i) = #[] := by
  rw [Array.flatMap_eq_empty_iff]
  constructor
  · intro h i x hx
    exact h (x,i) (by simpa [Array.mk_mem_zipIdx_iff_getElem?] using hx)
  · rintro h ⟨x, i⟩ hx
    exact h i x (by simpa [Array.mk_mem_zipIdx_iff_getElem?] using hx)

/-- All entries are finite. -/
def finite (y : Block K) : Bool := y.all (·.all Number.finite)

theorem scan_eq_empty (y : Block K) (place : Nat → Nat → Location) : (y.zipIdx.flatMap fun (v, i) =>
    v.zipIdx.filterMap fun (x, k) => if Number.finite x then none else some (place i k)) = #[] ↔ finite y = true := by
  simp only [flatMap_zipIdx_eq_empty, Array.filterMap_eq_empty_iff, Prod.forall, Array.mk_mem_zipIdx_iff_getElem?,
    ite_eq_left_iff, reduceCtorEq, imp_false, Decidable.not_not]
  simp only [finite, Array.all_eq_true_iff_forall_mem, Array.mem_iff_getElem?, forall_exists_index]
  exact ⟨fun h v i hi x k hk => h i v hi x k hk, fun h i v hi x k hk => h v i hi x k hk⟩

theorem isRegular_irregular {b : Buffers K} {f a : Nat} (hf : f ≤ b.forwardSens.size) (ha : a ≤ b.adjointSens.size) :
    (Evaluate.irregular b f a).isRegular = true ↔ finite b.output = true ∧
      (∀ k < f, finite (b.forwardSens.getD k #[]) = true) ∧ ∀ k < a, finite (b.adjointSens.getD k #[]) = true := by
  have hdirections {bs : Array (Block K)} {n : Nat} (hn : n ≤ bs.size) {scan : Block K × Nat → Array Location}
      (hscan : ∀ y k, scan (y,k) = #[] ↔ finite y = true) :
      (bs.extract 0 n).zipIdx.flatMap scan = #[] ↔ ∀ k < n, finite (bs.getD k #[]) = true := by
    simp only [flatMap_zipIdx_eq_empty (T := Block K), hscan]
    refine forall_congr' fun k => ?_
    by_cases hk : k < n
    · have hget : (bs.extract 0 n)[k]? = some (bs.getD k #[]) := by
        rw [Array.getElem?_extract, if_pos (by omega), Nat.zero_add]
        exact getElem?_eq_some_getD (by omega) _
      rw [hget]
      exact ⟨fun h _ => h _ rfl, fun h y hy => Option.some.inj hy ▸ h hk⟩
    · rw [Array.getElem?_extract, if_neg (by omega)]
      exact ⟨fun _ h => absurd h hk, fun _ y hy => by cases hy⟩
  rw [Evaluate.irregular, Report.isRegular, Array.isEmpty_iff, Array.append_eq_empty_iff, Array.append_eq_empty_iff,
    and_assoc]
  exact and_congr (scan_eq_empty _ _)
    (and_congr (hdirections hf fun y _ => scan_eq_empty y _) (hdirections ha fun y _ => scan_eq_empty y _))

/-- All entries are finite, unless the options let others pass. -/
def passes (s : Signature K) (y : Block K) : Bool := !s.options.regularityCheck || finite y

/-- A value that is not finite is a fault, if the options say so. -/
def checking (s : Signature K) (E : Effect K) : Effect K where
  value x := (E.value x).filter (passes s)
  forward x v := (E.forward x v).filter (passes s)
  adjoint x w := (E.adjoint x w).filter (passes s)

theorem hinges_regularity (s : Signature K) (f a : Nat) (m : Machine K) :
    Hinges (s.options.regularityCheck = false ∨ (Evaluate.irregular m.frame.buffers f a).isRegular = true) m
      (Evaluate.regularity s f a) fun _ n => n.frame = m.frame ∧ n.inner = m.inner := by
  refine .reading ?_
  dsimp only
  split
  · next h => exact .intro_ok rfl (.inr h) ⟨rfl, rfl⟩
  · next h =>
    split
    · next hc => exact .intro_error rfl fun hr => hr.elim (fun hr => by simp [hc] at hr) h
    · next hc => exact .intro_ok rfl (.inl (by simpa using hc)) ⟨rfl, rfl⟩

theorem isSome_filter_iff {o : Option T} {p : T → Bool} {y : T} (h : o = some y) :
    (o.filter p).isSome = true ↔ p y = true := by
  rw [h, Option.filter_some]
  split <;> simp [*]

theorem filter_eq_some {o : Option T} {p : T → Bool} {y : T} (h : o = some y) (hp : (o.filter p).isSome = true) :
    o.filter p = some y := by
  have hy := (isSome_filter_iff h).mp hp
  rw [h, Option.filter_some, if_pos hy]

theorem isSome_of_filter {o : Option T} {p : T → Bool} (h : (o.filter p).isSome = true) : o.isSome = true := by
  cases o with
  | none => exact h
  | some y => rfl

variable {s : Signature K} {f a : Nat} {b b' : Buffers K}

theorem Has.of_checking (h : (E.checking s).Has f a b) : E.Has f a b :=
  ⟨isSome_of_filter h.value, fun k hk => isSome_of_filter (h.forward k hk), fun k hk => isSome_of_filter (h.adjoint k hk)⟩

theorem Gives.checking (h : E.Gives f a b b') (hc : (E.checking s).Has f a b) : (E.checking s).Gives f a b b' :=
  ⟨filter_eq_some h.value hc.value, fun k hk => filter_eq_some (h.forward k hk) (hc.forward k hk),
    fun k hk => filter_eq_some (h.adjoint k hk) (hc.adjoint k hk)⟩

/-- What a check of an evaluation asks for. -/
theorem Gives.has_checking_iff (h : E.Gives f a b b') (hf : f ≤ b'.forwardSens.size) (ha : a ≤ b'.adjointSens.size) :
    (E.checking s).Has f a b ↔ s.options.regularityCheck = false ∨ (Evaluate.irregular b' f a).isRegular = true := by
  have hpasses : (E.checking s).Has f a b ↔ passes s b'.output = true ∧
      (∀ k < f, passes s (b'.forwardSens.getD k #[]) = true) ∧ ∀ k < a, passes s (b'.adjointSens.getD k #[]) = true :=
    ⟨fun hc => ⟨(isSome_filter_iff h.value).mp hc.value,
        fun k hk => (isSome_filter_iff (h.forward k hk)).mp (hc.forward k hk),
        fun k hk => (isSome_filter_iff (h.adjoint k hk)).mp (hc.adjoint k hk)⟩,
      fun ⟨hv, hforward, hadjoint⟩ => ⟨(isSome_filter_iff h.value).mpr hv,
        fun k hk => (isSome_filter_iff (h.forward k hk)).mpr (hforward k hk),
        fun k hk => (isSome_filter_iff (h.adjoint k hk)).mpr (hadjoint k hk)⟩⟩
  rw [hpasses, isRegular_irregular hf ha]
  cases hcheck : s.options.regularityCheck <;> simp [passes, hcheck]

/-- The search for values that are not finite, after the sweeps. -/
theorem Leaves.regularity {low high : Nat × Nat} {m n n' : Machine K} (h : E.Leaves d low high f a m n)
    (hm : m.Fits d low high) (hf : f ≤ m.frame.buffers.forward) (ha : a ≤ m.frame.buffers.adjoint)
    (hbuffers : n'.frame.buffers = n.frame.buffers) (hinner : n'.inner = n.inner) :
    Hinges ((E.checking d.sig).Has f a m.frame.buffers) n' (Evaluate.regularity d.sig f a) fun _ =>
      (E.checking d.sig).Leaves d low high f a m := by
  obtain ⟨hgives, hundisturbed, hfits, hinnerFits⟩ := h
  rw [← hbuffers] at hgives hundisturbed hfits
  have hcheck := hgives.has_checking_iff (s := d.sig) (by rwa [hundisturbed.forward, hm.frame.shaped.forward])
    (by rwa [hundisturbed.adjoint, hm.frame.shaped.adjoint])
  refine ((hinges_regularity d.sig f a n').congr hcheck.symm).mono fun _ r hhas hr => ?_
  obtain ⟨hframe, hsame⟩ := hr
  rw [← hframe] at hgives hundisturbed hfits
  exact ⟨hgives.checking hhas, hundisturbed, hfits, by rw [hsame, hinner]; exact hinnerFits⟩

/-- An evaluation looks for values that are not finite once the directions are swept. -/
theorem Decides.around {dispatch : Nat → Nat → Run K Unit} (h : E.Decides d dispatch) :
    ((E.skipping d.sig).checking d.sig).Decides d (Evaluate.around d.sig dispatch) := by
  intro low high f a m hm hf ha
  rw [Evaluate.around_eq]
  refine .reading ?_
  rw [if_neg (Nat.not_lt.mpr hf)]
  dsimp only
  rw [if_neg (Nat.not_lt.mpr ha)]
  refine ((h.sweeping low high f a m hm hf ha).bind fun k n _ hn => ?_).congr (and_iff_right_of_imp Has.of_checking)
  exact .modifying (hn.regularity hm hf ha rfl rfl)

end Effect

end Fluxion
