import Fluxion.Proofs.Function.Seedwise
import Fluxion.Proofs.Function.Twins

/-!
What Jacobian values cost. The seed of a color is not zero, so an evaluation that skips zero seeds sweeps as many
directions as one that does not. A batch counts its colors and one evaluation, and the batches together count all colors.
-/
set_option autoImplicit false

namespace Fluxion

open Run

variable {K : Type}

/-- The counters after `n` more evaluations with `k` colors. -/
def Stats.after (s : Stats) (side : Partition) (n k : Nat) : Stats :=
  ⟨s.evaluations + n, s.forward + (Assemble.sweep side k).1, s.adjoint + (Assemble.sweep side k).2⟩

theorem Stats.after_zero (s : Stats) (side : Partition) : s.after side 0 0 = s := by cases side <;> rfl

theorem Stats.after_after (s : Stats) (side : Partition) (n k n' k' : Nat) :
    (s.after side n k).after side n' k' = s.after side (n+n') (k+k') := by
  cases side <;> simp [after, Assemble.sweep, Nat.add_assoc]

variable [Number K] {d : Definition K} {m m' : Machine K}

/-! ### Evaluations -/

/-- Where no seed is zero, all are swept. -/
theorem Signature.swept_eq {sig : Signature K} {b : Buffers K} {f a : Nat}
    (hf : ∀ k < f, ¬Effect.zeroSeed (b.forwardSeed.getD k #[]))
    (ha : ∀ k < a, ¬Effect.zeroSeed (b.adjointSeed.getD k #[])) :
    sig.swept b f a = (f,a) := by
  have hnonzero {n : Nat} {seeds : Array (Block K)} (h : ∀ k < n, ¬Effect.zeroSeed (seeds.getD k #[])) :
      Compaction.nonzero Number.isZero seeds n = n := by
    rw [Compaction.nonzero, List.countP_eq_length.mpr, List.length_range]
    intro k hk
    simpa [Effect.zeroSeed] using h k (List.mem_range.mp hk)
  rw [swept, hnonzero hf, hnonzero ha]
  split <;> rfl

/-- An evaluation that returns has counted what it swept. -/
theorem Definition.evaluate_counts {f a : Nat} {r : Report} (h : (d.evaluate f a).run m = (.ok r, m')) :
    f ≤ m.frame.buffers.forward ∧ a ≤ m.frame.buffers.adjoint ∧ m.frame.buffers.Undisturbed m'.frame.buffers ∧
      m'.frame.stats = ⟨m.frame.stats.evaluations + 1, m.frame.stats.forward + (d.sig.swept m.frame.buffers f a).1,
        m.frame.stats.adjoint + (d.sig.swept m.frame.buffers f a).2⟩ := by
  rw [evaluate_eq_around, Evaluate.around_eq, run_bind_ok (run_buffers m)] at h
  by_cases hf : m.frame.buffers.forward < f
  · rw [if_pos hf] at h
    cases h
  by_cases ha : m.frame.buffers.adjoint < a
  · rw [if_neg hf, if_pos ha] at h
    cases h
  rw [if_neg hf, if_neg ha] at h
  dsimp only at h
  obtain ⟨n, m₁, hsweep, h⟩ := exists_of_run_bind h
  rw [run_bind_ok (run_modify _ m₁)] at h
  have hkept : n = d.sig.swept m.frame.buffers f a ∧ m.frame.Undisturbed m₁.frame := by
    obtain ⟨after, hafter, hkept⟩ := Evaluate.run_sweeping d.keeps_dispatch (Nat.le_of_not_lt hf) (Nat.le_of_not_lt ha)
      rfl (by rw [hsweep]; simp)
    rw [hsweep] at hafter
    obtain ⟨hn, rfl⟩ := Prod.ext_iff.mp hafter
    cases hend : ((d.dispatch (d.sig.swept m.frame.buffers f a).1 (d.sig.swept m.frame.buffers f a).2).run
        (m.arranged d.sig f a)).1 with
    | ok u =>
      rw [hend] at hn
      exact ⟨Except.ok.inj hn, hkept⟩
    | error e =>
      rw [hend] at hn
      cases hn
  obtain ⟨rfl, hkept⟩ := hkept
  refine ⟨Nat.le_of_not_lt hf, Nat.le_of_not_lt ha, ?_⟩
  rw [← hkept.stats]
  generalize Stats.mk (m₁.frame.stats.evaluations + 1) _ _ = counted at h ⊢
  exact (Evaluate.keeps_regularity (I := fun g => m.frame.buffers.Undisturbed g.buffers ∧ g.stats = counted)
    d.sig f a).of_run h ⟨hkept.buffers, rfl⟩

/-! ### Batches -/

namespace Assemble

variable {j : Job}

omit [Number K] in
theorem room_undisturbed {b b' : Buffers K} (h : b.Undisturbed b') (side : Partition) : room side b' = room side b := by
  cases side with
  | forward s => exact congrArg Array.size h.forwardSeed
  | adjoint s => exact congrArg Array.size h.adjointSeed

theorem room_seeded (j : Job) (sig : Signature K) (start n : Nat) (b : Buffers K) :
    room j.partition (j.seeded sig start n b) = room j.partition b := by
  obtain ⟨iind, oind, p, t, map, side, symmetric⟩ := j
  cases side with
  | forward s => exact Array.size_mapIdx
  | adjoint s => exact Array.size_mapIdx

/-- The colors of a batch are swept, since their seeds are not zero. -/
theorem swept_seeded {sig : Signature K} {start n : Nat} {b : Buffers K} (hn : n ≤ room j.partition b)
    (hcolors : ∀ k < n, ¬Effect.zeroSeed (j.color sig (start+k))) :
    sig.swept (j.seeded sig start n b) (sweep j.partition n).1 (sweep j.partition n).2 = sweep j.partition n := by
  have hseeds {k : Nat} (hk : k < n) :
      ¬Effect.zeroSeed ((seeds j.partition (j.seeded sig start n b)).getD k #[]) := by
    rw [getD_seeded j sig start hn hk]
    exact hcolors k hk
  generalize j.seeded sig start n b = b' at hseeds
  generalize j.partition = side at hseeds
  cases side with
  | forward s => exact Signature.swept_eq (fun k hk => hseeds hk) fun k hk => absurd hk (Nat.not_lt_zero k)
  | adjoint s => exact Signature.swept_eq (fun k hk => absurd hk (Nat.not_lt_zero k)) fun k hk => hseeds hk

/-- A batch that returns has counted its colors and one evaluation. -/
theorem batch_counts {start n : Nat} {s s' : Array Nat × Array K} (hn : n ≤ room j.partition m.frame.buffers)
    (hcolors : ∀ k < n, ¬Effect.zeroSeed (j.color d.sig (start+k)))
    (h : (j.batch d.sig d.evaluate start n s).run m = (.ok s', m')) :
    m'.frame.stats = m.frame.stats.after j.partition 1 n ∧
      room j.partition m'.frame.buffers = room j.partition m.frame.buffers := by
  rw [batch_eq, run_bind_ok (run_seeds j d.sig start n m)] at h
  obtain ⟨r, m₁, heval, h⟩ := exists_of_run_bind h
  rw [run_bind_ok (run_buffers m₁)] at h
  cases h
  obtain ⟨-, -, hkept, hstats⟩ := Definition.evaluate_counts heval
  refine ⟨?_, (room_undisturbed hkept _).trans (room_seeded j d.sig start n _)⟩
  rw [hstats]
  change (⟨_, _ + (d.sig.swept (j.seeded d.sig start n m.frame.buffers) _ _).1, _ +
    (d.sig.swept (j.seeded d.sig start n m.frame.buffers) _ _).2⟩ : Stats) = _
  rw [swept_seeded hn hcolors]
  rfl

/-- A request for directions counts nothing and keeps the sizes of the buffers. -/
theorem keeps_requestDirections (sig : Signature K) (stats : Stats) (ins outs : Array Nat) (f a : Nat) :
    Keeps (fun g => g.stats = stats ∧ g.buffers.Shaped ins outs) (sig.requestDirections f a) := by
  rw [Signature.requestDirections]
  dsimp only
  refine keeps_when (keeps_warn _) (keeps_when (keeps_warn _) (keeps_buffers.bind fun _ => ?_))
  exact keeps_lift_bind fun _ _ => (keeps_modifyBuffers fun _ h => ⟨h.1, h.2.growForward _ _⟩).bind fun _ =>
    keeps_lift_bind fun _ _ => (keeps_modifyBuffers fun _ h => ⟨h.1, h.2.growAdjoint _ _⟩).bind fun _ => keeps_pure _

/-- The size of the batches is the number of directions, of which there is one at least. -/
theorem batchSize_counts {sig : Signature K} {side : Partition} {size : Nat} {ins outs : Array Nat}
    (hm : m.frame.buffers.Shaped ins outs) (h : (batchSize sig side.direction).run m = (.ok size, m')) :
    size = max 1 (room side m.frame.buffers) ∧ room side m'.frame.buffers = size ∧ m'.frame.stats = m.frame.stats ∧
      m'.frame.buffers.Shaped ins outs := by
  have hkept := (keeps_batchSize (keeps_requestDirections sig m.frame.stats ins outs) side.direction).of_run h ⟨rfl, hm⟩
  refine and_assoc.mp ⟨?_, hkept⟩
  obtain ⟨e, -, heq⟩ := batchSize_eq sig side
  rw [heq, run_bind_ok (run_buffers m)] at h
  have hnonempty {n : Nat} {m₁ : Machine K} (h : (nonempty e n).run m₁ = (.ok size, m')) :
      1 ≤ n ∧ size = n ∧ m' = m₁ := by
    rw [nonempty] at h
    split at h
    · cases h
    · cases h
      exact ⟨by omega, rfl, rfl⟩
  split at h
  · next h0 =>
    obtain ⟨c, m₁, hrequest, h⟩ := exists_of_run_bind h
    obtain ⟨hpos, rfl, rfl⟩ := hnonempty h
    obtain ⟨-, rfl, hbuffers, -⟩ := (Frame.hinges_requestDirections sig _ _ m).of_ok hrequest
    have hdirections : m'.frame.buffers.directions =
        Frame.asked sig.options m.frame.buffers (sweep side 1).1 (sweep side 1).2 :=
      hbuffers ▸ Frame.directions_grown (Nat.le_max_left _ _) (Nat.le_max_left _ _)
    refine ⟨?_, by rw [room_eq_select, hdirections]⟩
    cases side with
    | forward s =>
      simp only [room, Partition.select, Frame.asked, sweep] at h0 hpos ⊢
      omega
    | adjoint s =>
      simp only [room, Partition.select, Frame.asked, sweep] at h0 hpos ⊢
      omega
  · next h0 =>
    obtain ⟨hpos, rfl, rfl⟩ := hnonempty h
    exact ⟨(Nat.max_eq_right hpos).symm, rfl⟩

/-- A block that returns has evaluated the definition. -/
theorem exists_evaluate {values : Array K} (hm : m.frame.buffers.Shaped d.sig.inputSizes d.sig.outputSizes)
    (h : (j.run d.sig d.evaluate).run m = (.ok values, m')) :
    ∃ (n n' : Machine K) (f a : Nat) (r : Report), n.frame.buffers.Shaped d.sig.inputSizes d.sig.outputSizes ∧
      (d.evaluate f a).run n = (.ok r, n') := by
  rw [Job.run] at h
  dsimp only at h
  split at h
  · obtain ⟨r, m₁, heval, -⟩ := exists_of_run_bind h
    exact ⟨m, m₁, 0, 0, r, hm, heval⟩
  · next hne =>
    obtain ⟨size, m₁, hsize, h⟩ := exists_of_run_bind h
    obtain ⟨rfl, -, -, hshaped⟩ := batchSize_counts hm hsize
    obtain ⟨s, m₂, hloop, -⟩ := exists_of_run_bind h
    have hrounds : 0 < ceilDiv j.partition.colors (max 1 (room j.partition m.frame.buffers)) :=
      (lt_ceilDiv_iff (Nat.lt_of_lt_of_le Nat.one_pos (Nat.le_max_left _ _))).mpr (by omega)
    rw [← Nat.succ_pred_eq_of_pos hrounds, List.range_succ_eq_map, List.foldlM_cons] at hloop
    obtain ⟨s', m₃, hbatch, -⟩ := exists_of_run_bind hloop
    rw [batch_eq, run_bind_ok (run_seeds j d.sig _ _ m₁)] at hbatch
    obtain ⟨r, m₄, heval, -⟩ := exists_of_run_bind hbatch
    exact ⟨_, m₄, _, _, r, (recast_seeded j _ _ hshaped).shaped, heval⟩

/-- The batches of a block that returns have counted all colors. -/
theorem run_counts {values : Array K} {ins outs : Array Nat} (hm : m.frame.buffers.Shaped ins outs)
    (hcolors : ∀ k < j.partition.colors, ¬Effect.zeroSeed (j.color d.sig k))
    (h : (j.run d.sig d.evaluate).run m = (.ok values, m')) :
    let size := max 1 (room j.partition m.frame.buffers)
    m'.frame.stats = m.frame.stats.after j.partition
        (if j.partition.colors = 0 then 1 else ceilDiv j.partition.colors size) j.partition.colors ∧
      (j.partition.colors ≠ 0 → room j.partition m'.frame.buffers = size) := by
  rw [Job.run] at h
  dsimp only at h ⊢
  split at h
  · next h0 =>
    obtain ⟨r, m₁, heval, h⟩ := exists_of_run_bind h
    cases h
    obtain ⟨-, -, -, hstats⟩ := Definition.evaluate_counts heval
    have hnone : d.sig.swept m.frame.buffers 0 0 = (0,0) :=
      Signature.swept_eq (fun k hk => absurd hk (Nat.not_lt_zero k)) fun k hk => absurd hk (Nat.not_lt_zero k)
    rw [hstats, hnone, if_pos h0, h0]
    refine ⟨?_, fun hne => absurd rfl hne⟩
    cases j.partition <;> rfl
  · next hne =>
    obtain ⟨size, m₁, hsize, h⟩ := exists_of_run_bind h
    obtain ⟨rfl, hroom, hstats, -⟩ := batchSize_counts hm hsize
    have hpos : 0 < max 1 (room j.partition m.frame.buffers) := Nat.lt_of_lt_of_le Nat.one_pos (Nat.le_max_left _ _)
    generalize max 1 (room j.partition m.frame.buffers) = size at h hroom hpos
    rw [if_neg hne]
    obtain ⟨s, m₂, hloop, h⟩ := exists_of_run_bind h
    cases h
    have hrounds : m'.frame.stats = m.frame.stats.after j.partition (ceilDiv j.partition.colors size)
        (min j.partition.colors (ceilDiv j.partition.colors size * size)) ∧ room j.partition m'.frame.buffers = size := by
      refine holds_of_run_foldlM_range (fun r _ (n : Machine K) =>
        n.frame.stats = m.frame.stats.after j.partition r (min j.partition.colors (r*size)) ∧
        room j.partition n.frame.buffers = size) (fun r s s' n n' hr hn hbatch => ?_) ⟨?_, hroom⟩ hloop
      · have hlt : r*size < j.partition.colors := (lt_ceilDiv_iff hpos).mp hr
        obtain ⟨hcounted, hkept⟩ := batch_counts (by rw [hn.2]; exact Nat.min_le_left _ _)
          (fun k hk => hcolors (r*size+k) (by omega)) hbatch
        refine ⟨?_, hkept.trans hn.2⟩
        rw [hcounted, hn.1, Stats.after_after, Effect.min_succ hlt, Nat.min_eq_right (Nat.le_of_lt hlt)]
      · rw [Nat.zero_mul, Nat.min_zero, Stats.after_zero, hstats]
    have hall := le_ceilDiv_mul j.partition.colors hpos
    rw [Nat.min_eq_left hall] at hrounds
    exact ⟨hrounds.1, fun _ => hrounds.2⟩

end Assemble

open Assemble

/-- Where an evaluation returned, the pattern of a block has its shape. -/
theorem Definition.Sound.shape_of_evaluate {A : Callable K → Prop} {roots : List (Expr K)} (h : d.Sound A roots)
    (hm : m.frame.buffers.Shaped d.sig.inputSizes d.sig.outputSizes) {f a : Nat} {r : Report}
    (heval : (d.evaluate f a).run m = (.ok r, m')) {iind oind : Nat} {symmetric : Bool} {p : Pattern}
    (hp : d.jacSparsity iind oind true symmetric = .ok p) : ∃ inp out, d.sig.inputs[iind]? = some inp ∧
      d.sig.outputs[oind]? = some out ∧ p.nrow = out.nnz ∧ p.ncol = inp.nnz := by
  cases h with
  | @expressions sig t inputs _ hd =>
    have hsweeps : (Definition.expressions sig t inputs).Sweeps m f a := .inl ⟨r, congrArg Prod.fst heval⟩
    have hvalue := (hsweeps.gives hd hm).1.value
    rw [Effect.value_skipping] at hvalue
    exact Symbolic.shape_of_value hd (Option.isSome_of_eq_some hvalue) hp
  | external | jacobian | derivative => exact shape_jacSparsity rfl hp

/-- Jacobian values that an instance returns, in whatever state it was, with zero seeds skipped or not: it has swept
once for each color of the partition, on the side of the colors only, and evaluated once for each batch of as many
colors as it has directions, or once if there are no colors. There are no more colors than entries of the input, or of
the output. -/
theorem Made.jacobianValues_counts {A : Callable K → Prop} {n : Nat} (h : Made A n d)
    (hone : Number.isZero (Number.one : K) = false) {i : Instance K} (hi : i.Reached d) {iind oind : Nat}
    {symmetric : Bool} {J : Matrix K} (hJ : (i.run (d.jacobianValues iind oind symmetric)).1 = .ok J) :
    ∃ side inp out, d.partition iind oind true symmetric = .ok side ∧ d.sig.inputs[iind]? = some inp ∧
      d.sig.outputs[oind]? = some out ∧ side.colors ≤ side.select (inp.nnz, out.nnz) ∧
      let size := max 1 (room side i.frame.buffers)
      let i' := (i.run (d.jacobianValues iind oind symmetric)).2.1
      i'.frame.stats = ⟨i.frame.stats.evaluations + (if side.colors = 0 then 1 else ceilDiv side.colors size),
        i.frame.stats.forward + (sweep side side.colors).1, i.frame.stats.adjoint + (sweep side side.colors).2⟩ ∧
      (side.colors ≠ 0 → room side i'.frame.buffers = size) := by
  obtain ⟨roots, -, hsound⟩ := h.sound
  have hm := (hi.lives (h.sturdy hi.room (W := True) (.inl trivial))).fits.frame.shaped
  have hrun : (d.jacobianValues iind oind symmetric).run i.machine =
      (.ok J, ((d.jacobianValues iind oind symmetric).run i.machine).2) := Prod.ext hJ rfl
  rw [Definition.jacobianValues] at hrun
  obtain ⟨p, m₁, hp, hrun⟩ := exists_of_run_bind hrun
  obtain ⟨hp, rfl⟩ := Prod.ext_iff.mp ((run_liftExcept _).symm.trans hp)
  obtain ⟨side, m₂, hside, hrun⟩ := exists_of_run_bind hrun
  obtain ⟨hside, rfl⟩ := Prod.ext_iff.mp ((run_liftExcept _).symm.trans hside)
  obtain ⟨values, m₃, hvalues, hrun⟩ := exists_of_run_bind hrun
  obtain ⟨-, hend⟩ := Prod.ext_iff.mp hrun
  dsimp only at hp hside hend
  subst hend
  obtain ⟨n₁, n₂, f, a, r, hn, heval⟩ := exists_evaluate hm hvalues
  obtain ⟨inp, out, hin, hout, hrow, hcol⟩ := hsound.shape_of_evaluate hn heval hp
  have hseeds : side.Seeds out.nnz inp.nnz := hrow ▸ hcol ▸ Definition.seeds_partition hp hside
  refine ⟨side, inp, out, hside, hin, hout, hseeds.colors_le, ?_⟩
  exact run_counts (j := .of iind oind p side symmetric) hm
    (fun k hk => not_zeroSeed_color hone hin hout hseeds.used hk) hvalues

/-- A weighted sum of three numbers. -/
def weigh : Callable ℚ :=
  ⟨#[.dense 3 1], #[.scalar], fun x =>
    .ok #[#[(x.get? 0 0).getD 0 + 2 * (x.get? 0 1).getD 0 + 3 * (x.get? 0 2).getD 0]], fun _ _ => none, fun _ _ => none⟩

/-- As a function with two directions forward, which are preferred. -/
def weighed : Definition ℚ :=
  .external ⟨0, {Options.standard 1 with forwardDirections := 2, adMode := .forward}, #[.dense 3 1], #[.scalar]⟩ weigh

/-- Three colors are swept in two batches. -/
theorem Made.jacobianValues_counts_weighed :
    Made (fun _ => True) 1 weighed ∧ Number.isZero (Number.one : ℚ) = false ∧ (Instance.of weighed).Reached weighed ∧
    ((Instance.of weighed).run (weighed.jacobianValues 0 0 false)).1 = .ok ⟨.dense 1 3, #[1, 2, 3]⟩ ∧
    ((Instance.of weighed).run (weighed.jacobianValues 0 0 false)).2.1.frame.stats = ⟨2, 3, 0⟩ := by
  have hrun : (Definition.ofCallable weigh
      {Options.standard 1 with forwardDirections := 2, adMode := .forward}).run 0 = (.ok weighed, 1) := by cbv
  have hmade : Made (fun _ => True) 1 weighed := .external trivial hrun
  have hone : Number.isZero (Number.one : ℚ) = false := by cbv
  have hof : Instance.of? weighed = .ok (.of weighed) := by cbv
  have hreached : (Instance.of weighed).Reached weighed := ⟨_, [], hof, rfl⟩
  have hJ : ((Instance.of weighed).run (weighed.jacobianValues 0 0 false)).1 = .ok ⟨.dense 1 3, #[1, 2, 3]⟩ := by cbv
  obtain ⟨side, inp, out, hside, -, -, -, hstats, -⟩ := hmade.jacobianValues_counts hone hreached hJ
  have hcolors : weighed.partition 0 0 true false = .ok (.forward (.diagonal 3)) := by cbv
  obtain rfl := Except.ok.inj (hcolors.symm.trans hside)
  exact ⟨hmade, hone, hreached, hJ, hstats.trans (by cbv)⟩

end Fluxion
