import Fluxion.Proofs.Function.Seated

/-!
Definitions that differ in how they sweep: in how many directions they have, and in whether they skip zero seeds.
Where both of two such definitions have values, they have the same.
-/
set_option autoImplicit false

namespace Fluxion

open Run

variable {K α β : Type}

/-- Where there are both values, they are the same. -/
def Concur (o o' : Option α) : Prop := ∀ a a', o = some a → o' = some a' → a = a'

namespace Concur

variable {o o' : Option α}

theorem refl (o : Option α) : Concur o o := fun _ _ h h' => Option.some.inj (h.symm.trans h')

theorem bind {f f' : α → Option β} (h : Concur o o') (hf : ∀ a, o = Option.some a → o' = Option.some a → Concur (f a) (f' a)) :
    Concur (o.bind f) (o'.bind f') := by
  intro b b' hb hb'
  obtain ⟨a, ha, hb⟩ := Option.bind_eq_some_iff.mp hb
  obtain ⟨a', ha', hb'⟩ := Option.bind_eq_some_iff.mp hb'
  obtain rfl := h a a' ha ha'
  exact hf a ha ha' b b' hb hb'

theorem map (h : Concur o o') (f : α → β) : Concur (o.map f) (o'.map f) := by
  intro b b' hb hb'
  obtain ⟨a, ha, rfl⟩ := Option.map_eq_some_iff.mp hb
  obtain ⟨a', ha', rfl⟩ := Option.map_eq_some_iff.mp hb'
  rw [h a a' ha ha']

theorem filter (h : Concur o o') (p p' : α → Bool) : Concur (o.filter p) (o'.filter p') :=
  fun a a' ha ha' => h a a' (Option.eq_some_of_filter_eq_some ha) (Option.eq_some_of_filter_eq_some ha')

end Concur

namespace Effect

/-- At inputs of the right sizes the effects concur on outputs and on the sensitivities for the given seeds. -/
structure Concurs (s : Signature K) (S : Block K → Prop) (E E' : Effect K) : Prop where
  value : ∀ x : Block K, x.sizes = s.inputSizes → Concur (E.value x) (E'.value x)
  forward : ∀ x v : Block K, x.sizes = s.inputSizes → v.sizes = s.inputSizes → S v →
    Concur (E.forward x v) (E'.forward x v)
  adjoint : ∀ x w : Block K, x.sizes = s.inputSizes → w.sizes = s.outputSizes → S w →
    Concur (E.adjoint x w) (E'.adjoint x w)

namespace Concurs

variable {s s' : Signature K} {S : Block K → Prop} {E E' : Effect K}

theorem refl (E : Effect K) : Concurs s S E E :=
  ⟨fun _ _ => .refl _, fun _ _ _ _ _ => .refl _, fun _ _ _ _ _ => .refl _⟩

variable [Number K]

theorem checking (h : Concurs s S E E') (s' : Signature K) : Concurs s S (E.checking s) (E'.checking s') :=
  ⟨fun x hx => (h.value x hx).filter _ _, fun x v hx hsize hv => (h.forward x v hx hsize hv).filter _ _,
    fun x w hx hsize hw => (h.adjoint x w hx hsize hw).filter _ _⟩

end Concurs

variable [Number K] {E E' : Effect K} {s s' : Signature K}

/-- All entries are zero. -/
def zeroSeed (v : Block K) : Prop := v.all (·.all Number.isZero) = true

theorem skipping_of_not_zeroSeed (x : Block K) {v : Block K} (hv : ¬zeroSeed v) :
    (E.skipping s).value x = E.value x ∧ (E.skipping s).forward x v = E.forward x v ∧
      (E.skipping s).adjoint x v = E.adjoint x v := by
  rw [skipping]
  split
  · exact ⟨rfl, if_neg hv, if_neg hv⟩
  · exact ⟨rfl, rfl, rfl⟩

theorem Concurs.skipping (h : Concurs s (fun _ => True) E E') (s' : Signature K) :
    Concurs s (fun v => ¬zeroSeed v) (E.skipping s) (E'.skipping s') := by
  refine ⟨fun x hx => ?_, fun x v hx hsize hv => ?_, fun x w hx hsize hw => ?_⟩
  · rw [value_skipping, value_skipping]
    exact h.value x hx
  · rw [(skipping_of_not_zeroSeed x hv).2.1, (skipping_of_not_zeroSeed x hv).2.1]
    exact h.forward x v hx hsize trivial
  · rw [(skipping_of_not_zeroSeed x hw).2.2, (skipping_of_not_zeroSeed x hw).2.2]
    exact h.adjoint x w hx hsize trivial

/-- Where a zero seed is swept, its sensitivities are zeros. -/
structure Quiet (s : Signature K) (E : Effect K) : Prop where
  forward : ∀ x v sens : Block K, x.sizes = s.inputSizes → v.sizes = s.inputSizes → zeroSeed v →
    E.forward x v = some sens → sens = .filled s.outputSizes Number.zero
  adjoint : ∀ x w sens : Block K, x.sizes = s.inputSizes → w.sizes = s.outputSizes → zeroSeed w →
    E.adjoint x w = some sens → sens = .filled s.inputSizes Number.zero

/-- A zero seed that is skipped, or swept to no effect, has sensitivities of zeros. -/
theorem quiet_skipping (h : s.options.compressDirections = false → (E.checking s).Quiet s) :
    ((E.skipping s).checking s).Quiet s := by
  rw [skipping]
  split
  · refine ⟨fun x v sens _ _ hv hsens => ?_, fun x w sens _ _ hw hsens => ?_⟩
    · exact (Option.some.inj ((if_pos hv).symm.trans (Option.eq_some_of_filter_eq_some hsens))).symm
    · exact (Option.some.inj ((if_pos hw).symm.trans (Option.eq_some_of_filter_eq_some hsens))).symm
  · next hc => exact h (by simpa using hc)

/-- Effects concur on all seeds, also where one skips the zero seeds and the other sweeps them to no effect. -/
theorem Concurs.everywhere (h : Concurs s (fun _ => True) E E') (hin : s'.inputSizes = s.inputSizes)
    (hout : s'.outputSizes = s.outputSizes)
    (hquiet : s'.options.compressDirections ≠ s.options.compressDirections →
      (s.options.compressDirections = false → (E.checking s).Quiet s) ∧
      (s'.options.compressDirections = false → (E'.checking s').Quiet s')) :
    Concurs s (fun _ => True) ((E.skipping s).checking s) ((E'.skipping s').checking s') := by
  by_cases hc : s.options.compressDirections = false ∧ s'.options.compressDirections = false
  · rw [Effect.skipping, Effect.skipping, hc.1, hc.2]
    exact h.checking _
  have hnot := (h.skipping s').checking s'
  have hzeros := quiet_skipping (s := s) (E := E) fun h0 => (hquiet (by simp_all)).1 h0
  have hzeros' := quiet_skipping (s := s') (E := E') fun h0 => (hquiet (by simp_all)).2 h0
  refine ⟨hnot.value, fun x v hx hsize _ => ?_, fun x w hx hsize _ => ?_⟩
  · by_cases hv : zeroSeed v
    · intro sens sens' hsens hsens'
      rw [hzeros.forward x v sens hx hsize hv hsens,
        hzeros'.forward x v sens' (hx.trans hin.symm) (hsize.trans hin.symm) hv hsens', hout]
    · exact hnot.forward x v hx hsize hv
  · by_cases hw : zeroSeed w
    · intro sens sens' hsens hsens'
      rw [hzeros.adjoint x w sens hx hsize hw hsens,
        hzeros'.adjoint x w sens' (hx.trans hin.symm) (hsize.trans hout.symm) hw hsens', hin]
    · exact hnot.adjoint x w hx hsize hw

end Effect

/-! ### Quotients -/

namespace Differences

variable [Number K] {g g' : Block K → Option (Block K)} {ns : Array Nat}
  (h : ∀ x : Block K, x.sizes = ns → Concur (g x) (g' x)) (step : K) {x seed : Block K} (hx : x.sizes = ns)

include h hx

theorem concur_along (outs : Array Nat) (hseed : seed.sizes = ns) :
    Concur (along g step outs x seed) (along g' step outs x seed) := by
  rw [along, along]
  dsimp only
  split
  · exact .refl _
  · exact (h _ (sizes_zipBlocks _ hx hseed)).bind fun _ _ _ =>
      (h _ (sizes_zipBlocks _ hx hseed)).bind fun _ _ _ => .refl _

theorem concur_column (i k : Nat) (e : K) : Concur (column g step x seed i k e) (column g' step x seed i k e) :=
  (h _ ((Block.sizes_set _ _ _ _).trans hx)).bind fun _ _ _ =>
    (h _ ((Block.sizes_set _ _ _ _).trans hx)).bind fun _ _ _ => .refl _

theorem concur_against : Concur (against g step x seed) (against g' step x seed) := by
  intro y y' hy hy'
  have hsome : (against g step x seed).isSome := by rw [hy]; rfl
  have hsome' : (against g' step x seed).isSome := by rw [hy']; rfl
  have hvalue := getD_against hsome
  have hvalue' := getD_against hsome'
  rw [hy, Option.getD_some] at hvalue
  rw [hy', Option.getD_some] at hvalue'
  rw [isSome_against_iff] at hsome hsome'
  rw [hvalue, hvalue']
  refine Block.ext_of_get? ((Block.sizes_mapIdx _ _).trans (Block.sizes_mapIdx _ _).symm) fun i k => ?_
  rw [Block.get?_mapIdx, Block.get?_mapIdx]
  cases he : x.get? i k with
  | none => rfl
  | some e =>
    obtain ⟨c, hc⟩ := Option.isSome_iff_exists.mp ((isSome_column_iff seed).mpr (hsome i k e he))
    obtain ⟨c', hc'⟩ := Option.isSome_iff_exists.mp ((isSome_column_iff seed).mpr (hsome' i k e he))
    rw [Option.map_some, Option.map_some, hc, hc', concur_column h _ hx _ _ _ c c' hc hc']

end Differences

namespace Effect

variable [Number K] {s s' : Signature K}

theorem concurs_ofBody {g g' : Block K → Option (Block K)} (h : ∀ x : Block K, x.sizes = s.inputSizes → Concur (g x) (g' x))
    (hstep : s'.options.step = s.options.step) (hout : s'.outputSizes = s.outputSizes) :
    Concurs s (fun _ => True) (ofBody s g) (ofBody s' g') := by
  refine ⟨h, fun x v hx hv _ => ?_, fun x w hx _ _ => ?_⟩
  · rw [ofBody, ofBody, hstep, hout]
    exact Differences.concur_along h _ hx _ hv
  · rw [ofBody, ofBody, hstep]
    exact Differences.concur_against h _ hx

end Effect

/-! ### Blocks -/

namespace Assemble

variable [Number K]

/-- The unit seed of a color that is used is not zero. -/
theorem not_zeroSeed_unitSeed (hone : Number.isZero (Number.one : K) = false) {ns members : Array Nat} {slot c : Nat}
    (hc : c ∈ members) (hlt : c < ns.getD slot 0) : ¬Effect.zeroSeed (unitSeed ns slot members : Block K) := by
  intro hzero
  have hsome : (Block.filled ns (Number.zero : K))[slot]? = some (.replicate (ns.getD slot 0) Number.zero) := by
    cases hn : ns[slot]? <;> simp_all [Block.filled, Array.getD_eq_getD_getElem?]
  have hget : (unitSeed ns slot members : Block K).get? slot c = some Number.one := by
    rw [unitSeed, Block.get?, Array.getElem?_modify, if_pos rfl, hsome, Option.map_some, Option.bind_some, ones_eq]
    refine Recover.getElem?_puts (by simpa using hlt) ⟨(c, some Number.one), by simpa using hc, rfl⟩ fun w hw _ => ?_
    obtain ⟨-, -, rfl⟩ := List.mem_map.mp hw
    rfl
  rw [Effect.zeroSeed, Block.all_eq_true_iff] at hzero
  exact absurd (hzero slot c _ hget) (by simp [hone])

theorem not_zeroSeed_color (hone : Number.isZero (Number.one : K) = false) {j : Job} {sig : Signature K} {inp out : Pattern}
    (hin : sig.inputs[j.iind]? = some inp) (hout : sig.outputs[j.oind]? = some out)
    (hused : j.partition.Used out.nnz inp.nnz) {k : Nat} (hk : k < j.partition.colors) :
    ¬Effect.zeroSeed (j.color sig k) := by
  obtain ⟨iind, oind, p, t, map, side, symmetric⟩ := j
  cases side with
  | forward s =>
    obtain ⟨c, hc, hlt⟩ := hused k hk
    exact not_zeroSeed_unitSeed hone hc (by simpa [Signature.inputSizes, Array.getD_eq_getD_getElem?, hin] using hlt)
  | adjoint s =>
    obtain ⟨r, hr, hlt⟩ := hused k hk
    exact not_zeroSeed_unitSeed hone hr (by simpa [Signature.outputSizes, Array.getD_eq_getD_getElem?, hout] using hlt)

end Assemble

namespace Effect

open Assemble

variable [Number K] {E E' : Effect K} {s s' : Signature K} {p p' : Definition K} {x : Block K}

theorem concur_values (h : Concurs s (fun v => ¬zeroSeed v) E E') {j : Job} (hin : s'.inputSizes = s.inputSizes)
    (hout : s'.outputSizes = s.outputSizes) (hseeds : ∀ k < j.partition.colors, ¬zeroSeed (j.color s k))
    (hx : x.sizes = s.inputSizes) : Concur (E.values s j x) (E'.values s' j x) := by
  have hcolor (k : Nat) : j.color s' k = j.color s k := by
    rw [Job.color, Job.color, hin, hout]
  have hsees (k : Nat) (hk : k < j.partition.colors) : Concur (E.sees s j x k) (E'.sees s' j x k) := by
    rw [sees, sees, hcolor k]
    refine Concur.map ?_ _
    rw [sweeps.eq_def, sweeps.eq_def]
    obtain ⟨iind, oind, p, t, map, side, symmetric⟩ := j
    cases side with
    | forward c => exact h.forward x _ hx (sizes_unitSeed _ _ _) (hseeds k hk)
    | adjoint c => exact h.adjoint x _ hx (sizes_unitSeed _ _ _) (hseeds k hk)
  intro y y' hy hy'
  rw [values] at hy hy'
  split at hy
  · next hall =>
    split at hy'
    · next hall' =>
      obtain rfl := Option.some.inj hy
      obtain rfl := Option.some.inj hy'
      refine congrArg Prod.snd (List.foldl_ext _ _ _ fun r k hk => ?_)
      have hk := List.mem_range.mp hk
      rw [Nat.zero_add]
      obtain ⟨v, hv⟩ := Option.isSome_iff_exists.mp (hall.2.2 k hk)
      obtain ⟨v', hv'⟩ := Option.isSome_iff_exists.mp (hall'.2.2 k hk)
      rw [hv, hv', hsees k hk v v' hv hv']
    · cases hy'
  · cases hy

end Effect

/-! ### Twins -/

/-- Another number, other numbers of directions, and zero seeds skipped or not. -/
inductive Signature.Alike (s : Signature K) : Signature K → Prop
  | intro (uid forward adjoint maxForward maxAdjoint : Nat) (compress : Bool) :
    Alike s {s with
      uid := uid
      options := {s.options with
        forwardDirections := forward
        adjointDirections := adjoint
        maxForward := maxForward
        maxAdjoint := maxAdjoint
        compressDirections := compress}}

/-- Zero seeds that the definition sweeps have sensitivities of zeros, where these pass its check. -/
def Definition.Quiet [Number K] (d : Definition K) : Prop := (d.bareEffect.checking d.sig).Quiet d.sig

/-- Definitions of one function that differ in how they sweep. Where the parents of derivatives differ in whether they
skip zero seeds, the one that sweeps them has zeros for them. -/
inductive Definition.Twins [Number K] : Definition K → Definition K → Prop
  | expressions {s s' : Signature K} (t : Tape K) (inputs : Array (Matrix (Expr K))) : s.Alike s' →
    Twins (.expressions s t inputs) (.expressions s' t inputs)
  | external {s s' : Signature K} (c : Callable K) : s.Alike s' → Twins (.external s c) (.external s' c)
  | jacobian {s s' : Signature K} (block : JacobianBlock) {p p' : Definition K} : s.Alike s' → Twins p p' →
    Twins (.jacobian s block p) (.jacobian s' block p')
  | derivative {s s' : Signature K} (f a : Nat) {p p' : Definition K} : s.Alike s' → Twins p p' →
    (p'.sig.options.compressDirections ≠ p.sig.options.compressDirections →
      (p.sig.options.compressDirections = false → p.Quiet) ∧
      (p'.sig.options.compressDirections = false → p'.Quiet)) →
    Twins (.derivative s f a p) (.derivative s' f a p')

namespace Definition.Twins

variable [Number K] {d d' p p' : Definition K} {E E' : Effect K}

theorem alike (h : Twins d d') : d.sig.Alike d'.sig := by
  cases h with
  | expressions _ _ h => exact h
  | external _ h => exact h
  | jacobian _ h => exact h
  | derivative _ _ h => exact h

theorem sizes (h : Twins d d') : d'.sig.inputSizes = d.sig.inputSizes ∧ d'.sig.outputSizes = d.sig.outputSizes := by
  cases hd : d'.sig with
  | mk uid options inputs outputs =>
    have := hd ▸ h.alike
    cases this
    exact ⟨rfl, rfl⟩

theorem jacSparsity_eq (h : Twins d d') (iind oind : Nat) (compact symmetric : Bool) :
    d'.jacSparsity iind oind compact symmetric = d.jacSparsity iind oind compact symmetric := by
  cases h with
  | expressions _ _ h => cases h; rfl
  | external _ h => cases h; rfl
  | jacobian _ h => cases h; rfl
  | derivative _ _ h => cases h; rfl

theorem partition_eq (h : Twins d d') (iind oind : Nat) (compact symmetric : Bool) :
    d'.partition iind oind compact symmetric = d.partition iind oind compact symmetric := by
  rw [partition, partition, h.jacSparsity_eq]
  cases h with
  | expressions _ _ h => cases h; rfl
  | external _ h => cases h; rfl
  | jacobian _ h => cases h; rfl
  | derivative _ _ h => cases h; rfl

theorem callable?_eq (h : Twins d d') : d'.callable? = d.callable? := by
  cases h <;> rfl

/-- The outputs of a Jacobian come from sweeps of unit seeds, or from the callable. -/
theorem concur_jacobian (hone : Number.isZero (Number.one : K) = false) (h : Twins p p')
    (hE : Effect.Concurs p.sig (fun v => ¬Effect.zeroSeed v) E E') {s s' : Signature K} {block : JacobianBlock}
    (hblock : block.StandsOn s p) (hout : s'.outputSizes = s.outputSizes) {x : Block K} (hx : x.sizes = s.inputSizes) :
    Concur (E.jacobian s block p x) (E'.jacobian s' block p' x) := by
  have hx : x.sizes = p.sig.inputSizes := by rw [hx, Signature.inputSizes, hblock.inputs, Signature.inputSizes]
  have hvalues : Concur (E.blockValues block p x) (E'.blockValues block p' x) := by
    rw [Effect.blockValues, Effect.blockValues, h.callable?_eq]
    cases hsource : block.source with
    | sweeps side =>
      obtain ⟨inp, out, hinp, houtp, hused⟩ := hblock.used side hsource
      exact Effect.concur_values hE h.sizes.1 h.sizes.2
        (fun k hk => Assemble.not_zeroSeed_color hone hinp houtp hused hk) hx
    | callable =>
      cases p.callable? with
      | none => exact .refl _
      | some c => exact (hE.value x hx).bind fun _ _ _ => .refl _
  have hparts : Concur (E.parts block p x) (E'.parts block p' x) :=
    hvalues.bind fun _ _ _ => (hE.value x hx).bind fun _ _ _ => .refl _
  rw [Effect.jacobian, Effect.jacobian, hout]
  exact hparts.bind fun _ _ _ => .refl _

/-- The outputs of a derivative come from any seeds that are among its inputs. -/
theorem concur_derivative (h : Twins p p') (hE : Effect.Concurs p.sig (fun _ => True) E E') {f a : Nat} {x : Block K}
    (hx : x.sizes = arranged p.sig.inputSizes p.sig.outputSizes f a) :
    Concur (E.derivative p f a x) (E'.derivative p' f a x) := by
  have hin : p'.sig.inputs.size = p.sig.inputs.size := by
    simpa [Signature.inputSizes] using congrArg Array.size h.sizes.1
  have hout : p'.sig.outputs.size = p.sig.outputs.size := by
    simpa [Signature.outputSizes] using congrArg Array.size h.sizes.2
  have hpoint := sizes_point hx
  have hforward (i : Nat) (hi : i < f) : Concur (E.forwardAt p x i) (E'.forwardAt p' x i) := by
    rw [Effect.forwardAt, Effect.forwardAt, hin]
    exact hE.forward _ _ hpoint (sizes_forwardSeed hx hi) trivial
  have hadjoint (i : Nat) (hi : i < a) : Concur (E.adjointAt p f x i) (E'.adjointAt p' f x i) := by
    rw [Effect.adjointAt, Effect.adjointAt, hin, hout]
    exact hE.adjoint _ _ hpoint (sizes_adjointSeed hx hi) trivial
  have hmap {n : Nat} {u u' : Nat → Option (Block K)} (hu : ∀ i < n, Concur (u i) (u' i)) (hs : ∀ i < n, (u i).isSome)
      (hs' : ∀ i < n, (u' i).isSome) :
      (Array.range n).map (fun i => (u i).getD #[]) = (Array.range n).map fun i => (u' i).getD #[] := by
    refine Array.map_congr_left fun i hi => ?_
    have hi : i < n := by simpa using hi
    obtain ⟨v, hv⟩ := Option.isSome_iff_exists.mp (hs i hi)
    obtain ⟨v', hv'⟩ := Option.isSome_iff_exists.mp (hs' i hi)
    rw [hv, hv', hu i hi v v' hv hv']
  intro y y' hy hy'
  rw [Effect.derivative] at hy hy'
  split at hy
  · next hall =>
    split at hy'
    · next hall' =>
      obtain ⟨z, hz, rfl⟩ := Option.map_eq_some_iff.mp hy
      obtain ⟨z', hz', rfl⟩ := Option.map_eq_some_iff.mp hy'
      rw [hin] at hz'
      rw [hE.value _ hpoint z z' hz hz', hmap hforward hall.2.1 hall'.2.1, hmap hadjoint hall.2.2 hall'.2.2]
    · cases hy'
  · cases hy

/-- By induction on how the twins stand on their parents: their evaluators tell the same of any seed. -/
theorem concurs (hone : Number.isZero (Number.one : K) = false) {A : Callable K → Prop} {roots : List (Expr K)}
    (h : Twins d d') (hd : d.Sound A roots) : Effect.Concurs d.sig (fun _ => True) d.bareEffect d'.bareEffect := by
  induction h with
  | expressions t inputs h =>
    cases h
    exact .refl _
  | external c h =>
    cases h
    exact Effect.concurs_ofBody (fun _ _ => .refl _) rfl rfl
  | jacobian block h hp ih =>
    cases hd with
    | jacobian hblock hd =>
      cases h
      exact Effect.concurs_ofBody (fun _ => hp.concur_jacobian hone (((ih hd).skipping _).checking _) hblock rfl) rfl rfl
  | derivative f a h hp hquiet ih =>
    cases hd with
    | derivative hin _ _ hd =>
      cases h
      refine Effect.concurs_ofBody (fun x hx =>
        hp.concur_derivative ((ih hd).everywhere hp.sizes.1 hp.sizes.2 hquiet) (hx.trans ?_)) rfl rfl
      rw [sig, Signature.inputSizes, hin]
      exact map_arranged _ _ _ _ _

end Definition.Twins

/-! ### Jacobian values -/

variable [Number K] {d d' : Definition K} {A : Callable K → Prop} {roots : List (Expr K)} {iind oind : Nat}
  {symmetric : Bool} {p : Pattern}

/-- The pattern of a block of a tape has the shape of the block. -/
theorem Symbolic.shape_jacSparsity {inputs outputs : Array (Matrix (Expr K))} {sig : Signature K} {t : Tape K}
    (h : Draws roots inputs outputs sig t) (hs : Sorts inputs outputs sig t)
    (hp : (Definition.expressions sig t inputs).jacSparsity iind oind true symmetric = .ok p) :
    ∃ inp out, sig.inputs[iind]? = some inp ∧ sig.outputs[oind]? = some out ∧ p.nrow = out.nnz ∧ p.ncol = inp.nnz := by
  obtain ⟨m, n, hm, hn, hdetect⟩ := exists_block h hp
  have hcols : m.pattern.nnz = m.values.size := by
    have hget := congrArg (fun ns : Array Nat => ns[iind]?) hs.inputSizes
    simpa [Signature.inputSizes, hs.inputPatterns, hm, Matrix.nnz] using hget
  have hrows : n.pattern.nnz = n.values.size := by
    have hget := congrArg (fun ns : Array Nat => ns[oind]?) hs.outputSizes
    simpa [Signature.outputSizes, hs.outputPatterns, hn, Matrix.nnz] using hget
  refine ⟨m.pattern, n.pattern, by simp [hs.inputPatterns, hm], by simp [hs.outputPatterns, hn], ?_⟩
  rw [hcols, hrows]
  cases symmetric with
  | false =>
    obtain rfl : dependence m.values n.values = p := Except.ok.inj ((hs.jacSparsity hm hn).symm.trans hp)
    exact ⟨nrow_dependence, ncol_dependence⟩
  | true =>
    have hsquare := square_of_detectPattern hs hm hn hdetect
    obtain ⟨q, hq, hover⟩ := hs.detectPattern_symmetric hm hn hsquare (S := fun _ _ => False) (fun _ _ h => h.elim)
      fun _ _ h => h
    obtain rfl : q = p := Except.ok.inj (hq.symm.trans hdetect)
    exact ⟨hover.nrow.trans hsquare.symm, hover.ncol⟩

/-- Where a tape has outputs, the pattern of a block has its shape. -/
theorem Symbolic.shape_of_value {inputs outputs : Array (Matrix (Expr K))} {sig : Signature K} {t : Tape K}
    (h : Draws roots inputs outputs sig t) {x : Block K}
    (hx : ((Effect.ofTape t sig.inputSizes sig.outputSizes).value x).isSome)
    (hp : (Definition.expressions sig t inputs).jacSparsity iind oind true symmetric = .ok p) :
    ∃ inp out, sig.inputs[iind]? = some inp ∧ sig.outputs[oind]? = some out ∧ p.nrow = out.nnz ∧ p.ncol = inp.nnz := by
  change (if t.free.isEmpty then (t.recorded sig.outputSizes false x).map (·.1) else none).isSome at hx
  split at hx
  · obtain ⟨r, hr⟩ := Option.isSome_iff_exists.mp (Option.isSome_map ▸ hx)
    exact shape_jacSparsity h (h.sorts (Tape.storesWithin_recorded hr)) hp
  · cases hx

/-- Where there are outputs, the pattern of a block has its shape. -/
theorem Definition.Sound.shape (h : d.Sound A roots) {x : Block K} (hx : (d.effect.value x).isSome)
    (hp : d.jacSparsity iind oind true symmetric = .ok p) : ∃ inp out, d.sig.inputs[iind]? = some inp ∧
      d.sig.outputs[oind]? = some out ∧ p.nrow = out.nnz ∧ p.ncol = inp.nnz := by
  cases h with
  | expressions hd =>
    have hvalue := Effect.isSome_of_filter hx
    rw [Effect.value_skipping] at hvalue
    exact Symbolic.shape_of_value hd hvalue hp
  | external | jacobian | derivative => exact shape_jacSparsity rfl hp

/-- There every column or every row of a block has one color. -/
theorem Definition.Sound.seeds (h : d.Sound A roots) {x : Block K} (hx : (d.effect.value x).isSome) {side : Partition}
    (hp : d.jacSparsity iind oind true symmetric = .ok p) (hside : d.partition iind oind true symmetric = .ok side) :
    ∃ inp out, d.sig.inputs[iind]? = some inp ∧ d.sig.outputs[oind]? = some out ∧ side.Seeds out.nnz inp.nnz := by
  obtain ⟨inp, out, hin, hout, hrow, hcol⟩ := h.shape hx hp
  exact ⟨inp, out, hin, hout, hrow ▸ hcol ▸ seeds_partition hp hside⟩

/-- Twins that have Jacobian values have the same. -/
theorem Definition.Twins.concur_jacobianAnswer (hone : Number.isZero (Number.one : K) = false) (h : Twins d d')
    (hd : d.Sound A roots) (iind oind : Nat) (symmetric : Bool) {x : Block K} (hsizes : x.sizes = d.sig.inputSizes) :
    Concur (d.jacobianAnswer iind oind symmetric x) (d'.jacobianAnswer iind oind symmetric x) := by
  have hE : Effect.Concurs d.sig (fun v => ¬Effect.zeroSeed v) d.effect d'.effect := (h.concurs hone hd).skipping _ |>.checking _
  rw [jacobianAnswer, jacobianAnswer, h.jacSparsity_eq, h.partition_eq]
  refine (Concur.refl _).bind fun p hp _ => (Concur.refl _).bind fun side hside _ => ?_
  intro J J' hJ hJ'
  obtain ⟨values, hvalues, hJ⟩ := Option.bind_eq_some_iff.mp hJ
  have hx : (d.effect.value x).isSome := by
    rw [Effect.values] at hvalues
    split at hvalues
    · next hall => exact hall.2.1
    · cases hvalues
  obtain ⟨inp, out, hin, hout, hseeds⟩ := hd.seeds hx (toOption_eq_some.mp hp) (toOption_eq_some.mp hside)
  have hconcur := Effect.concur_values (j := .of iind oind p side symmetric) hE h.sizes.1 h.sizes.2
    (fun k hk => Assemble.not_zeroSeed_color hone hin hout hseeds.used hk) hsizes
  exact (hconcur.bind fun _ _ _ => .refl _) J J' (Option.bind_eq_some_iff.mpr ⟨values, hvalues, hJ⟩) hJ'

end Fluxion
