import Fluxion.Proofs.Function.Ready
import Fluxion.Proofs.Function.Sparsity

/-!
Jacobian values from sweeps. After the first colors, the entries that they carry have their derivatives;
each batch brings the next colors, and every entry has a color.
-/
set_option autoImplicit false

namespace Fluxion

namespace Partition

/-- The sweep of color `k` carries the entry. -/
def Takes (side : Partition) (k : Nat) (e : Nat × Nat) : Prop :=
  match side with
  | .forward s => e.2 ∈ s.row k
  | .adjoint s => e.1 ∈ s.row k

/-- Where a sweep has the entry. -/
def place (side : Partition) (e : Nat × Nat) : Nat :=
  match side with
  | .forward _ => e.1
  | .adjoint _ => e.2

variable {p s : Pattern} {side : Partition}

/-- The colors fill the pattern: they have rows or columns of it, every entry of it has a color, and in the sweep of
that color it meets no other entry of `s`. -/
structure Fills (s : Pattern) (side : Partition) (p : Pattern) : Prop where
  valid : p.Valid
  nrow : p.nrow = s.nrow
  ncol : p.ncol = s.ncol
  lt : ∀ k < side.colors, ∀ i ∈ side.seeds.row k, i < match side with
    | .forward _ => p.ncol
    | .adjoint _ => p.nrow
  covered : ∀ e ∈ p.entries, ∃ k < side.colors, side.Takes k e
  alone : ∀ k < side.colors, ∀ e ∈ p.entries, side.Takes k e → ∀ e' ∈ s.entries, side.Takes k e' →
    side.place e' = side.place e → e' = e

/-- Colors that separate the columns or the rows of a pattern fill it. -/
theorem Colors.fills (h : side.Colors p) (hp : p.Valid) : side.Fills p p := by
  cases h with
  | forward =>
    have hs := Coloring.columns_separates hp
    refine ⟨hp, rfl, rfl, fun k hk c hc => hs.lt hk hc, fun e he => ?_, fun k hk e he ht e' he' ht' hplace => ?_⟩
    · obtain ⟨k, hk⟩ := hs.covered e.2 (hp.entry_lt he).2
      exact ⟨k, Pattern.mem_entries.mp hk⟩
    · have hplace : e'.1 = e.1 := hplace
      have he' : (e.1,e'.2) ∈ p.entries := hplace ▸ he'
      exact Prod.ext hplace (hs.apart k e.1 e'.2 e.2 (Pattern.mem_entries.mpr ⟨hk, ht'⟩)
        (Pattern.mem_entries.mpr ⟨hk, ht⟩) he' he)
  | adjoint =>
    have hs := Coloring.rows_separates hp
    refine ⟨hp, rfl, rfl, fun k hk r hr => hs.lt hk hr, fun e he => ?_, fun k hk e he ht e' he' ht' hplace => ?_⟩
    · obtain ⟨k, hk⟩ := hs.covered e.1 (by simpa using (hp.entry_lt he).1)
      exact ⟨k, Pattern.mem_entries.mp hk⟩
    · have hplace : e'.2 = e.2 := hplace
      have he' : (e'.1,e.2) ∈ p.entries := hplace ▸ he'
      exact Prod.ext (hs.apart k e.2 e'.1 e.1 (Pattern.mem_entries.mpr ⟨hk, ht'⟩)
        (Pattern.mem_entries.mpr ⟨hk, ht⟩) (hp.mem_transpose.mpr he') (hp.mem_transpose.mpr he)) hplace

end Partition

namespace Assemble

variable {T : Type} {p s : Pattern} {side : Partition} {iind oind : Nat}

theorem recover_forward (s : Pattern) (k : Nat) (sens : Array T) (v : Array Nat × Array T) :
    (Job.of iind oind p (.forward s) false).recover k sens v =
      (v.1, Recover.forward p.transpose p.transposeMap (s.row k) sens v.2) := by
  simp [Job.recover, Job.of, Partition.seeds]

theorem recover_adjoint (symmetric : Bool) (s : Pattern) (k : Nat) (sens : Array T)
    (v : Array Nat × Array T) : (Job.of iind oind p (.adjoint s) symmetric).recover k sens v =
      (v.1, Recover.adjoint p (s.row k) sens v.2) := by
  simp [Job.recover, Job.of, Partition.seeds]

theorem recover_symmetric (s : Pattern) (k : Nat) (sens : Array T) (v : Array Nat × Array T) :
    (Job.of iind oind p (.forward s) true).recover k sens v =
      Recover.symmetric p p.transpose p.transposeMap (s.row k) sens v := by
  simp [Job.recover, Job.of, Partition.seeds]

/-- The entries of the first `done` colors have their values. -/
structure Recovered (p : Pattern) (side : Partition) (V : Nat × Nat → T) (done : Nat)
    (values : Array T) : Prop where
  size : values.size = p.nnz
  value : ∀ (i : Nat) (e : Nat × Nat), p.entries[i]? = some e → (∃ k, k < done ∧ side.Takes k e) →
    values[i]? = some (V e)

theorem Recovered.finish {V : Nat × Nat → T} {values : Array T} (hside : side.Fills s p)
    (h : Recovered p side V side.colors values) : values = p.entries.map V := by
  refine Array.ext_getElem? fun i => ?_
  rw [Array.getElem?_map]
  cases he : p.entries[i]? with
  | none =>
    rw [Array.getElem?_eq_none_iff, hside.valid.size_entries, ← h.size] at he
    rw [Array.getElem?_eq_none he, Option.map_none]
  | some e => exact h.value i e he (hside.covered e (Array.mem_of_getElem? he))

theorem Recovered.step {V : Nat × Nat → T} {k : Nat} {sens : Array T} {v : Array Nat × Array T}
    (hside : side.Fills s p) (hk : k < side.colors) (h : Recovered p side V k v.2)
    (hsens : ∀ e ∈ p.entries, side.Takes k e → sens[side.place e]? = some (V e)) :
    Recovered p side V (k+1) ((Job.of iind oind p side false).recover k sens v).2 := by
  have hp := hside.valid
  have hwrites : ∃ writes : List (Nat × Option T),
      ((Job.of iind oind p side false).recover k sens v).2 = Recover.puts writes v.2 ∧
      ∀ (i : Nat) x, (i,x) ∈ writes ↔
        ∃ e, p.entries[i]? = some e ∧ side.Takes k e ∧ x = sens[side.place e]? := by
    cases side with
    | forward q =>
      have hlt : ∀ c ∈ q.row k, c < p.ncol := hside.lt k hk
      obtain ⟨writes, he, hmem⟩ := Recover.forward_writes hp hlt sens v.2
      exact ⟨writes, by rw [recover_forward, he], by simpa [Partition.Takes, Partition.place] using hmem⟩
    | adjoint q =>
      have hlt : ∀ r ∈ q.row k, r < p.nrow := hside.lt k hk
      obtain ⟨writes, he, hmem⟩ := Recover.adjoint_writes hp hlt sens v.2
      exact ⟨writes, by rw [recover_adjoint, he], by simpa [Partition.Takes, Partition.place] using hmem⟩
  obtain ⟨writes, hout, hmem⟩ := hwrites
  rw [hout]
  refine ⟨by rw [Recover.size_puts, h.size], fun i e he ⟨l, hl, ht⟩ => ?_⟩
  have hi : i < v.2.size := by
    have hlt := (Array.getElem?_eq_some_iff.mp he).1
    rwa [hp.size_entries, ← h.size] at hlt
  -- Entries of this color are written now and agree; the others were written before and stay.
  by_cases htake : side.Takes k e
  · refine Recover.getElem?_puts hi ⟨(i, _), (hmem i _).mpr ⟨e, he, htake, rfl⟩, rfl⟩ ?_
    rintro ⟨i', x⟩ hw rfl
    obtain ⟨e', he', htake', rfl⟩ := (hmem i' x).mp hw
    obtain rfl : e = e' := Option.some.inj (he.symm.trans he')
    exact hsens e (Array.mem_of_getElem? he) htake
  · have hne : ∀ w ∈ writes, w.1 ≠ i := by
      rintro ⟨i', x⟩ hw rfl
      obtain ⟨e', he', htake', rfl⟩ := (hmem i' x).mp hw
      obtain rfl : e = e' := Option.some.inj (he.symm.trans he')
      exact htake htake'
    have hlk : l ≠ k := by
      rintro rfl
      exact htake ht
    rw [Recover.getElem?_puts_of_ne hne]
    exact h.value i e he ⟨l, by omega, ht⟩

/-- What the colors of a batch write. -/
theorem Recovered.foldl {V : Nat × Nat → T} {start n : Nat} {sens : Nat → Array T}
    {v : Array Nat × Array T} (hside : side.Fills s p) (hn : start+n ≤ side.colors)
    (h : Recovered p side V start v.2)
    (hsens : ∀ d, d < n → ∀ e ∈ p.entries, side.Takes (start+d) e →
      (sens d)[side.place e]? = some (V e)) :
    Recovered p side V (start+n) ((List.range n).foldl (fun v d =>
      (Job.of iind oind p side false).recover (start+d) (sens d) v) v).2 := by
  induction n with
  | zero => exact h
  | succ n ih =>
    rw [List.range_succ, List.foldl_append]
    have hlt : start+n < side.colors := by omega
    exact (ih (by omega) fun d hd => hsens d (by omega)).step hside hlt (hsens n (by omega))

section Batch

variable {K : Type} [Number K]

/-- The directions that `n` colors need. -/
def sweep (side : Partition) (n : Nat) : Nat × Nat :=
  match side with
  | .forward _ => (n,0)
  | .adjoint _ => (0,n)

/-- Directions on the side of the colors. -/
def room (side : Partition) (b : Buffers K) : Nat :=
  match side with
  | .forward _ => b.forward
  | .adjoint _ => b.adjoint

/-- The buffers with the seeds of `n` colors. -/
def Job.seeded (j : Job) (sig : Signature K) (start n : Nat) (b : Buffers K) : Buffers K :=
  match j.partition with
  | .forward s =>
    let seed (d : Nat) : Block K := unitSeed sig.inputSizes j.iind (s.row (start+d))
    {b with forwardSeed := Buffers.firstBlocks n seed b.forwardSeed}
  | .adjoint s =>
    let seed (d : Nat) : Block K := unitSeed sig.outputSizes j.oind (s.row (start+d))
    {b with adjointSeed := Buffers.firstBlocks n seed b.adjointSeed}

omit [Number K] in
/-- The sensitivities of the block in direction `d`. -/
def Job.sens (j : Job) (b : Buffers K) (d : Nat) : Array K :=
  match j.partition with
  | .forward _ => (b.forwardSens.getD d #[]).getD j.oind #[]
  | .adjoint _ => (b.adjointSens.getD d #[]).getD j.iind #[]

theorem run_seeds (j : Job) (sig : Signature K) (start n : Nat) (m : Machine K) :
    ((List.range n).forM fun d => j.seed sig d (start+d)).run m =
      (.ok PUnit.unit, m.withBuffers (j.seeded sig start n m.frame.buffers)) := by
  obtain ⟨iind, oind, p, t, map, side, symmetric⟩ := j
  induction n with
  | zero => cases side <;> simp [Job.seeded, Buffers.firstBlocks_zero] <;> rfl
  | succ n ih =>
    rw [List.forM_eq_forM] at ih ⊢
    rw [List.range_succ, List.forM_append, run_bind_ok ih]
    cases side with
    | forward s =>
      simp only [Job.seeded, ← Buffers.firstBlocks_succ]
      rfl
    | adjoint s =>
      simp only [Job.seeded, ← Buffers.firstBlocks_succ]
      rfl

theorem batch_eq (j : Job) (sig : Signature K) (eval : Evaluation K) (start n : Nat)
    (s : Array Nat × Array K) : j.batch sig eval start n s = (do
      (List.range n).forM fun d => j.seed sig d (start+d)
      let _ ← eval (sweep j.partition n).1 (sweep j.partition n).2
      let b ← Run.buffers
      return (List.range n).foldl (fun s d => j.recover (start+d) (j.sens b d) s) s) := by
  obtain ⟨iind, oind, p, t, map, side, symmetric⟩ := j
  cases side <;> rfl

end Batch

section Sweeps

variable {K : Type} [CommRing K] [Number K] [ExactRing K] {inputs outputs : Array (Matrix (Expr K))}
  {sig : Signature K} {t : Tape K} {m n : Matrix (Expr K)} {symmetric : Bool}

/-- The sensitivities that the sweep of one color has. -/
def sweepOf (inputs outputs : Array (Matrix (Expr K))) (ρ : Symbol → K) (side : Partition) (iind oind k : Nat) :
    Array K :=
  match side with
  | .forward s =>
    (Tape.tangent inputs outputs ρ (unitSeed (inputs.map Matrix.nnz) iind (s.row k))).getD oind #[]
  | .adjoint s =>
    (Tape.gradient inputs outputs ρ (unitSeed (outputs.map Matrix.nnz) oind (s.row k))).getD iind #[]

/-- The sweep of a color has the derivatives of its entries. -/
theorem getElem?_sweepOf {ρ : Symbol → K} (h : Tape.Closed inputs outputs) (hm : inputs[iind]? = some m)
    (hn : outputs[oind]? = some n) (hside : side.Fills (dependence m.values n.values) p) {k : Nat}
    (hk : k < side.colors) {e : Nat × Nat} (he : e ∈ p.entries) (ht : side.Takes k e) :
    (sweepOf inputs outputs ρ side iind oind k)[side.place e]? =
      some (jacobianAt ρ m.values n.values e) := by
  obtain ⟨r, c⟩ := e
  have hlt := hside.valid.entry_lt he
  rw [hside.nrow, hside.ncol, nrow_dependence, ncol_dependence] at hlt
  have halone := hside.alone k hk (r,c) he ht
  cases side with
  | forward =>
    rw [sweepOf, Partition.place]
    exact Tape.tangent_unitSeed h hm hn ht (Array.getElem?_eq_getElem hlt.1) (Array.getElem?_eq_getElem hlt.2)
      fun d hd hde => congrArg Prod.snd (halone (r,d) hde hd rfl)
  | adjoint =>
    rw [sweepOf, Partition.place]
    exact Tape.gradient_unitSeed hm hn ht (Array.getElem?_eq_getElem hlt.1) (Array.getElem?_eq_getElem hlt.2)
      fun d hd hde => congrArg Prod.fst (halone (d,c) hde hd rfl)

omit [ExactRing K] in
/-- Whatever else the buffers hold, each direction has the sweep of its color. -/
theorem sens_evaluated (h : Expresses inputs outputs sig t) {b : Buffers K}
    (hb : b.Shaped sig.inputSizes sig.outputSizes) {start count d : Nat} (hcount : count ≤ room side b)
    (hd : d < count) :
    (Job.of iind oind p side symmetric).sens
      (Tape.evaluated inputs outputs (sweep side count).1 (sweep side count).2
        ((Job.of iind oind p side symmetric).seeded sig start count b)) d =
      sweepOf inputs outputs (Tape.valuation 0 inputs b.input) side iind oind (start+d) := by
  cases side with
  | forward s =>
    have hroom : d < b.forwardSeed.size := Nat.lt_of_lt_of_le hd hcount
    simp only [Job.sens, Job.seeded, Job.of, Tape.evaluated, sweep, sweepOf]
    rw [Buffers.getD_firstBlocks hd (by rw [hb.forward]; exact hroom),
      Buffers.getD_firstBlocks hd hroom, h.inputSizes]
  | adjoint s =>
    have hroom : d < b.adjointSeed.size := Nat.lt_of_lt_of_le hd hcount
    simp only [Job.sens, Job.seeded, Job.of, Tape.evaluated, sweep, sweepOf]
    rw [Buffers.getD_firstBlocks hd (by rw [hb.adjoint]; exact hroom),
      Buffers.getD_firstBlocks hd hroom, h.outputSizes]

end Sweeps

section Values

variable {K : Type} [Field K] [Number K] [ExactField K] {inputs outputs : Array (Matrix (Expr K))}
  {sig : Signature K} {t : Tape K} {m n : Matrix (Expr K)}

/-- An instance at the point `x` with directions for `size` colors. -/
structure Fit (sig : Signature K) (side : Partition) (x : Block K) (size : Nat) (f : Frame K) : Prop where
  ready : f.Ready sig
  input : f.buffers.input = x
  room : size ≤ room side f.buffers

omit [Field K] [ExactField K] in
theorem Fit.seeded {j : Job} {x : Block K} {size : Nat} {f : Frame K} (h : Fit sig j.partition x size f)
    (start n : Nat) : Fit sig j.partition x size {f with buffers := j.seeded sig start n f.buffers} := by
  obtain ⟨hready, hinput, hroom⟩ := h
  obtain ⟨iind, oind, p, t, map, side, symmetric⟩ := j
  cases side with
  | forward s =>
    have hsize := Buffers.size_firstBlocks n (fun d => unitSeed sig.inputSizes iind (s.row (start+d)))
      f.buffers.forwardSeed
    exact ⟨hready.replace (hready.shaped.withForwardSeed n _ fun _ _ => sizes_unitSeed _ _ _) hsize rfl, hinput,
      hroom.trans_eq hsize.symm⟩
  | adjoint s =>
    have hsize := Buffers.size_firstBlocks n (fun d => unitSeed sig.outputSizes oind (s.row (start+d)))
      f.buffers.adjointSeed
    exact ⟨hready.replace (hready.shaped.withAdjointSeed n _ fun _ _ => sizes_unitSeed _ _ _) rfl hsize, hinput,
      hroom.trans_eq hsize.symm⟩

omit [Field K] [ExactField K] in
/-- If directions are allowed, there are some, or one is made. -/
theorem run_batchSize {mach : Machine K} (hready : mach.frame.Ready sig)
    (hforward : 0 < sig.options.maxForward) (hadjoint : 0 < sig.options.maxAdjoint) (side : Partition) :
    ∃ size mach', (batchSize sig side.direction).run mach = (.ok size, mach') ∧ 0 < size ∧
      Fit sig side mach.frame.buffers.input size mach'.frame := by
  have hone : Count.hasRoom 1 24 = true := by decide
  cases side with
  | forward s =>
    by_cases hzero : mach.frame.buffers.forward = 0
    · have hrun := Frame.run_requestDirections (m := mach) (f := 1) (a := 0) hforward (Nat.zero_le _)
        (Frame.hasRoom_max hready.forward hone) (by simpa using hready.adjoint)
      have hkeeps := Frame.keeps_requestDirections 1 0 mach hready
      rw [hrun] at hkeeps
      refine ⟨1, _, ?_, Nat.one_pos, hkeeps, rfl, ?_⟩
      · rw [Partition.direction, batchSize, run_bind_ok (Run.run_buffers mach)]
        dsimp only
        rw [if_pos hzero, run_bind_ok hrun, hzero]
        rfl
      · simp [room]
    · refine ⟨_, mach, ?_, Nat.pos_of_ne_zero hzero, hready, rfl, Nat.le_refl _⟩
      rw [Partition.direction, batchSize, run_bind_ok (Run.run_buffers mach)]
      dsimp only
      rw [if_neg hzero, pure_bind, if_neg hzero]
      rfl
  | adjoint s =>
    by_cases hzero : mach.frame.buffers.adjoint = 0
    · have hrun := Frame.run_requestDirections (m := mach) (f := 0) (a := 1) (Nat.zero_le _) hadjoint
        (by simpa using hready.forward) (Frame.hasRoom_max hready.adjoint hone)
      have hkeeps := Frame.keeps_requestDirections 0 1 mach hready
      rw [hrun] at hkeeps
      refine ⟨1, _, ?_, Nat.one_pos, hkeeps, rfl, ?_⟩
      · rw [Partition.direction, batchSize, run_bind_ok (Run.run_buffers mach)]
        dsimp only
        rw [if_pos hzero, run_bind_ok hrun, hzero]
        rfl
      · simp [room]
    · refine ⟨_, mach, ?_, Nat.pos_of_ne_zero hzero, hready, rfl, Nat.le_refl _⟩
      rw [Partition.direction, batchSize, run_bind_ok (Run.run_buffers mach)]
      dsimp only
      rw [if_neg hzero, pure_bind, if_neg hzero]
      rfl

variable (h : Expresses inputs outputs sig t)
  (hr : ∀ e, Expr.ReachedFrom (Matrix.entries outputs) e → e.op ≠ .rem) (hm : inputs[iind]? = some m)
  (hn : outputs[oind]? = some n) (hside : side.Fills (dependence m.values n.values) p) {x : Block K}

include h hr in
theorem Fit.evaluate {size count : Nat} {mach : Machine K} (hfit : Fit sig side x size mach.frame)
    (hcount : count ≤ size) :
    ∃ mach', (Evaluate.around sig (Evaluate.tape sig t) (sweep side count).1 (sweep side count).2).run
        mach = (.ok Report.empty, mach') ∧ Fit sig side x size mach'.frame ∧
      mach'.frame.buffers = Tape.evaluated inputs outputs (sweep side count).1 (sweep side count).2
        mach.frame.buffers := by
  have hroom := hcount.trans hfit.room
  have hf : (sweep side count).1 ≤ mach.frame.buffers.forward := by
    cases side with
    | forward => exact hroom
    | adjoint => exact Nat.zero_le _
  have ha : (sweep side count).2 ≤ mach.frame.buffers.adjoint := by
    cases side with
    | forward => exact Nat.zero_le _
    | adjoint => exact hroom
  obtain ⟨stats, hrun⟩ := h.run_around ExactField.finite hr hfit.ready.shaped hf ha
  have hready := h.keeps_evaluate hr (sweep side count).1 (sweep side count).2 mach hfit.ready
  rw [hrun] at hready
  refine ⟨_, hrun, ⟨hready, hfit.input, ?_⟩, rfl⟩
  cases side with
  | forward => exact hfit.room
  | adjoint => exact hfit.room

include h hr hm hn hside in
theorem run_batch {size start count : Nat} {mach : Machine K} (hfit : Fit sig side x size mach.frame)
    (hcount : count ≤ size) (hend : start+count ≤ side.colors) {s : Array Nat × Array K}
    (hs : Recovered p side (jacobianAt (Tape.valuation 0 inputs x) m.values n.values) start s.2) :
    ∃ s' mach', ((Job.of iind oind p side false).batch sig (Evaluate.around sig (Evaluate.tape sig t))
        start count s).run mach = (.ok s', mach') ∧
      Recovered p side (jacobianAt (Tape.valuation 0 inputs x) m.values n.values) (start+count) s'.2 ∧
      Fit sig side x size mach'.frame := by
  have hseeded : Fit sig (Job.of iind oind p side false).partition x size
      (mach.withBuffers ((Job.of iind oind p side false).seeded sig start count mach.frame.buffers)).frame :=
    hfit.seeded (j := Job.of iind oind p side false) start count
  obtain ⟨mach', hrun, hfit', hbuffers⟩ := Fit.evaluate h hr hseeded hcount
  rw [batch_eq, run_bind_ok (run_seeds _ _ _ _ _), run_bind_ok hrun, run_bind_ok (Run.run_buffers _)]
  refine ⟨_, _, rfl, ?_, hfit'⟩
  refine Recovered.foldl hside hend hs fun d hd e he ht => ?_
  rw [hbuffers, ← hfit.input]
  exact (congrArg (·[side.place e]?) (sens_evaluated h hfit.ready.shaped (hcount.trans hfit.room) hd)).trans
    (getElem?_sweepOf h.closed hm hn hside (by omega) he ht)

omit [Field K] [ExactField K] in
theorem run_eq (iind oind : Nat) (p : Pattern) (side : Partition) (sig : Signature K)
    (eval : Evaluation K) : (Job.of iind oind p side false).run sig eval =
      if side.colors = 0 then (do
        let _ ← eval 0 0
        return .replicate p.nnz Number.zero)
      else (do
        let size ← batchSize sig side.direction
        let s ← (List.range (ceilDiv side.colors size)).foldlM (fun s r =>
          (Job.of iind oind p side false).batch sig eval (r*size) (min size (side.colors - r*size)) s)
          (.replicate p.nrow 0, .replicate p.nnz Number.zero)
        return s.2) := rfl

include h hr hm hn hside in
/-- The batches give the whole block. -/
theorem run_job {mach : Machine K} (hready : mach.frame.Ready sig)
    (hforward : 0 < sig.options.maxForward) (hadjoint : 0 < sig.options.maxAdjoint) :
    ∃ mach', ((Job.of iind oind p side false).run sig
        (Evaluate.around sig (Evaluate.tape sig t))).run mach =
      (.ok (p.entries.map (jacobianAt (Tape.valuation 0 inputs mach.frame.buffers.input)
        m.values n.values)), mach') := by
  generalize hV : jacobianAt (Tape.valuation 0 inputs mach.frame.buffers.input) m.values n.values = V
  have hstart : Recovered p side V 0 (.replicate p.nnz Number.zero) := by
    refine ⟨by simp, ?_⟩
    rintro i e - ⟨k, hk, -⟩
    exact absurd hk (Nat.not_lt_zero k)
  rw [run_eq]
  by_cases hzero : side.colors = 0
  · obtain ⟨stats, hrun⟩ := h.run_around ExactField.finite hr hready.shaped (Nat.zero_le _) (Nat.zero_le _)
    rw [← hzero] at hstart
    rw [if_pos hzero, run_bind_ok hrun, ← hstart.finish hside]
    exact ⟨_, rfl⟩
  · obtain ⟨size, first, hsize, hpos, hfit⟩ := run_batchSize hready hforward hadjoint side
    -- After `r` batches the first `r*size` colors are done.
    have hbatches := run_foldlM_range (s := first) (n := ceilDiv side.colors size)
      (b := (.replicate p.nrow 0, .replicate p.nnz Number.zero))
      (f := fun s r => (Job.of iind oind p side false).batch sig
        (Evaluate.around sig (Evaluate.tape sig t)) (r*size) (min size (side.colors - r*size)) s)
      (fun r s mach' => Recovered p side V (min (r*size) side.colors) s.2 ∧
        Fit sig side mach.frame.buffers.input size mach'.frame) (by
        intro r s mach' hlt ⟨hs, hfit'⟩
        have hbefore : r*size < side.colors := (lt_ceilDiv_iff hpos).mp hlt
        rw [Nat.min_eq_left hbefore.le, ← hV] at hs
        obtain ⟨s', mach'', hrun, hs', hfit''⟩ := run_batch h hr hm hn hside hfit'
          (Nat.min_le_left size (side.colors - r*size)) (by omega) hs
        have hdone : min ((r+1)*size) side.colors = r*size + min size (side.colors - r*size) := by
          rw [Nat.succ_mul]
          omega
        rw [hV, ← hdone] at hs'
        exact ⟨s', mach'', hrun, hs', hfit''⟩) ⟨by simpa using hstart, hfit⟩
    obtain ⟨s, last, hrun, hs, -⟩ := hbatches
    have hall : side.colors ≤ ceilDiv side.colors size * size := by
      by_contra hlt
      exact absurd ((lt_ceilDiv_iff hpos).mpr (Nat.lt_of_not_le hlt)) (Nat.lt_irrefl _)
    rw [Nat.min_eq_right hall] at hs
    rw [if_neg hzero, run_bind_ok hsize, run_bind_ok hrun, hs.finish hside]
    exact ⟨last, rfl⟩

end Values

end Assemble

end Fluxion
