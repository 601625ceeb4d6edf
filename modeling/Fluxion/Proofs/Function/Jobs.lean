import Fluxion.Proofs.Function.Quotients
import Fluxion.Proofs.Function.RecoverMap
import Fluxion.Proofs.Function.UsedColors

/-!
Jacobian values side by side. The batches are equally large on both sides, the seeds are set anew for each of
them, and the outputs are evaluated with them.
-/
set_option autoImplicit false

namespace Fluxion

variable {K T α : Type} {W E : Prop} {d : Definition K} {low high : Nat × Nat}

/-- An evaluation that comes to the same ends from buffers that are alike, and keeps the directions. -/
structure Evaluation.Settles (W E : Prop) (d : Definition K) (low high : Nat × Nat) (eval : Evaluation K) :
    Prop where
  beside : ∀ f a, Run.Beside W (Joint E d low high) (Run.onBuffers (Buffers.Alike f a)) (eval f a) (eval f a)
    fun r r' m m' => r' = r ∧ Run.onBuffers (Buffers.Settled f a) m m'
  directions : ∀ n f a, Run.Keeps (fun g => g.buffers.directions = n) (eval f a)

namespace Assemble

open Run

theorem Job.size_recover (j : Job) (k : Nat) (sens : Array T) (s : Array Nat × Array T) :
    (j.recover k sens s).2.size = s.2.size := by
  obtain ⟨hits, values⟩ := s
  obtain ⟨hits', writes, h⟩ := j.recover_writes k hits
  rw [h, Recover.size_puts]

variable [Number K]

/-- A batch has a direction at least. -/
def nonempty (e : Fault) (n : Nat) : Run K Nat := if n = 0 then throw e else pure n

omit [Number K] in
theorem nonempty_pos (e : Fault) {n : Nat} (h : 1 ≤ n) : (nonempty e n : Run K Nat) = pure n :=
  if_neg (by omega)

theorem batchSize_eq (sig : Signature K) (side : Partition) : ∃ e, (∀ c, e ≠ Fault.violation c) ∧
    batchSize sig side.direction = (do
      let b ← Run.buffers
      if room side b = 0 then do
        let n ← sig.requestDirections (sweep side 1).1 (sweep side 1).2
        nonempty e (side.select n)
      else nonempty e (room side b)) := by
  cases side with
  | forward s => exact ⟨.unsupported sig.name .forwardDirections, by simp, rfl⟩
  | adjoint s => exact ⟨.unsupported sig.name .adjointDirections, by simp, rfl⟩

/-- An instance without directions gets the first one. -/
theorem run_first {side : Partition} {m : Machine K} (hm : m.Fits d low high) (h0 : room side m.frame.buffers = 0)
    (hroom : Room high) (hhigh : 1 ≤ side.select high) (hmax : 1 ≤ side.select d.sig.options.limits) :
    ∃ n b, (d.sig.requestDirections (sweep side 1).1 (sweep side 1).2).run m = (.ok n, m.withBuffers b) ∧
      b.Fits d.sig low high ∧ side.select n = 1 ∧ b.input = m.frame.buffers.input ∧ room side b = 1 := by
  have hb := hm.frame
  have hgrow {f a : Nat} (hf : f ≤ high.1) (ha : a ≤ high.2) :=
    Frame.fits_grown hb (n := (max m.frame.buffers.forward f, max m.frame.buffers.adjoint a))
      (Nat.max_le.mpr ⟨hb.forward.2, hf⟩) (Nat.max_le.mpr ⟨hb.adjoint.2, ha⟩)
  have hrooms {f a : Nat} (hf : f ≤ high.1) (ha : a ≤ high.2) :
      Room (max m.frame.buffers.forward f, max m.frame.buffers.adjoint a) :=
    hroom.mono (Nat.max_le.mpr ⟨hb.forward.2, hf⟩) (Nat.max_le.mpr ⟨hb.adjoint.2, ha⟩)
  cases side with
  | forward s =>
    refine ⟨_, _, Frame.run_requestDirections hmax (Nat.zero_le _) (hrooms hhigh (Nat.zero_le _)).1
      (hrooms hhigh (Nat.zero_le _)).2, hgrow hhigh (Nat.zero_le _), ?_, rfl, ?_⟩
    · change max (room (.forward s) m.frame.buffers) 1 = 1
      rw [h0]
      rfl
    · change Buffers.forward (Buffers.growAdjoint _ _ _) = 1
      rw [Buffers.forward_growAdjoint, Buffers.forward_growForward]
      change max (room (.forward s) m.frame.buffers) (max (room (.forward s) m.frame.buffers) 1) = 1
      rw [h0]
      rfl
  | adjoint s =>
    refine ⟨_, _, Frame.run_requestDirections (Nat.zero_le _) hmax (hrooms (Nat.zero_le _) hhigh).1
      (hrooms (Nat.zero_le _) hhigh).2, hgrow (Nat.zero_le _) hhigh, ?_, rfl, ?_⟩
    · change max (room (.adjoint s) m.frame.buffers) 1 = 1
      rw [h0]
      rfl
    · change Buffers.adjoint (Buffers.growAdjoint _ _ _) = 1
      rw [Buffers.adjoint_growAdjoint, Buffers.adjoint_growForward]
      change max (room (.adjoint s) m.frame.buffers) (max (room (.adjoint s) m.frame.buffers) 1) = 1
      rw [h0]
      rfl

omit [Number K] in
/-- An instance that stands under a Jacobian has all its directions once it has one. -/
theorem room_eq {sig : Signature K} {b : Buffers K} (hb : b.Fits sig sig.options.initial (sig.options.granted 1 1))
    (side : Partition) (h : 1 ≤ room side b) : room side b = side.select (sig.options.granted 1 1) := by
  cases side with
  | forward s =>
    have hf := hb.forward
    simp only [room, Partition.select, Options.initial, Options.granted] at *
    omega
  | adjoint s =>
    have ha := hb.adjoint
    simp only [room, Partition.select, Options.initial, Options.granted] at *
    omega

omit [Number K] in
/-- It has them once it was asked for one, too. -/
theorem select_granted {sig : Signature K} {b b' : Buffers K} {side : Partition} {n n' : Nat × Nat}
    (hb : b.Fits sig sig.options.initial (sig.options.granted 1 1))
    (hb' : b'.Fits sig sig.options.initial (sig.options.granted 1 1))
    (h : Buffers.Granted sig.options (sweep side 1).1 (sweep side 1).2 n n' b b') :
    side.select n' = side.select n := by
  obtain ⟨-, rfl, rfl, hf, ha⟩ := h
  cases side with
  | forward s =>
    have hf₁ := hb.forward
    have hf₂ := hb'.forward
    simp only [Partition.select, Options.initial, Options.granted, sweep] at *
    omega
  | adjoint s =>
    have ha₁ := hb.adjoint
    have ha₂ := hb'.adjoint
    simp only [Partition.select, Options.initial, Options.granted, sweep] at *
    omega

omit [Number K] in
/-- One that has none got none at the start. -/
theorem limit_pos {sig : Signature K} {b : Buffers K} {side : Partition}
    (hb : b.Fits sig sig.options.initial (sig.options.granted 1 1)) (h0 : room side b = 0)
    (h : 1 ≤ side.select (sig.options.granted 1 1)) :
    side.select (sig.options.granted 1 1) = 1 ∧ 1 ≤ side.select sig.options.limits := by
  cases side with
  | forward s =>
    have hf := hb.forward
    simp only [room, Partition.select, Options.initial, Options.granted, Options.limits] at *
    omega
  | adjoint s =>
    have ha := hb.adjoint
    simp only [room, Partition.select, Options.initial, Options.granted, Options.limits] at *
    omega

/-- Directions that a batch can use, with the inputs on both sides. -/
structure Sized (side : Partition) (n : Nat) (b b' : Buffers K) : Prop where
  input : b'.input = b.input
  left : n ≤ room side b
  right : n ≤ room side b'

/-- What a Jacobian needs of the counts: instances that are the same, or that stand under a Jacobian. -/
structure Batches (W E : Prop) (o : Options K) (low high : Nat × Nat) : Prop where
  grants : Grants o high 1 1
  room : W ∧ E ∨ Room high
  counts : E ∨ low = o.initial ∧ high = o.granted 1 1

/-- Where only the other instance has directions it has one, and this one gets its first. -/
theorem first_direction (h : Batches W E d.sig.options low high) {side : Partition} {b b' : Buffers K}
    (hb : b.Fits d.sig low high) (hb' : b'.Fits d.sig low high) (h0 : room side b = 0) (h0' : room side b' ≠ 0)
    (hne : ¬E) : room side b' = 1 ∧ ∀ m : Machine K, m.Fits d low high → m.frame.buffers = b →
      ∃ n c, (d.sig.requestDirections (sweep side 1).1 (sweep side 1).2).run m = (.ok n, m.withBuffers c) ∧
        c.Fits d.sig low high ∧ side.select n = 1 ∧ c.input = m.frame.buffers.input ∧ room side c = 1 := by
  obtain ⟨hlow, hhigh⟩ := h.counts.resolve_left hne
  have hroom := h.room.resolve_left fun hr => hne hr.2
  subst hlow hhigh
  have heq := room_eq hb' side (by omega)
  obtain ⟨hone, hlimit⟩ := limit_pos hb h0 (by omega)
  refine ⟨heq.trans hone, fun m hm hmb => ?_⟩
  subst hmb
  exact run_first hm h0 hroom (by omega) hlimit

/-- Where neither has any, both ask for the first one and get equally many. -/
theorem beside_first (side : Partition) (h : Batches W E d.sig.options low high) {e : Fault}
    (he : ∀ c, e ≠ .violation c) :
    Beside W (Joint E d low high) (onBuffers fun b b' => b'.input = b.input)
      (d.sig.requestDirections (sweep side 1).1 (sweep side 1).2 >>= fun n => nonempty e (side.select n))
      (d.sig.requestDirections (sweep side 1).1 (sweep side 1).2 >>= fun n => nonempty e (side.select n))
      fun n n' m m' => (n' = n ∧ 1 ≤ n) ∧ onBuffers (Sized side n) m m' := by
  have hgrants : Grants d.sig.options high (sweep side 1).1 (sweep side 1).2 := by
    have := h.grants.forward
    have := h.grants.adjoint
    constructor <;> cases side <;> simp only [sweep] <;> omega
  refine (Beside.requestDirections hgrants (h.room.imp_left fun hr => ⟨hr.1, .inl hr.2⟩)).bind fun n n' =>
    .assume (p := side.select n' = side.select n) ?_ fun hn => ?_
  · rintro m m' hg ⟨hn, hm⟩
    obtain e | ⟨hlow, hhigh⟩ := h.counts
    · rw [hn e]
    · have hl := hg.left.frame
      have hr := hg.right.frame
      rw [hlow, hhigh] at hl hr
      exact select_granted hl hr hm
  rw [hn]
  by_cases h1 : 1 ≤ side.select n
  · rw [nonempty_pos e h1]
    refine .pure fun m m' _ hm => ⟨⟨rfl, h1⟩, hm.2.input, ?_, ?_⟩
    · obtain ⟨-, -, rfl, -⟩ := hm
      cases side <;> exact Nat.le_refl _
    · rw [← hn]
      obtain ⟨-, -, -, rfl, -⟩ := hm
      cases side <;> exact Nat.le_refl _
  · have hthrow : (nonempty e (side.select n) : Run K Nat) = throw e := if_pos (by omega)
    rw [hthrow]
    exact .throw (.inr he)

theorem beside_batchSize (side : Partition) (h : Batches W E d.sig.options low high) :
    Beside W (Joint E d low high) (onBuffers fun b b' => b'.input = b.input) (batchSize d.sig side.direction)
      (batchSize d.sig side.direction) fun n n' m m' => (n' = n ∧ 1 ≤ n) ∧ onBuffers (Sized side n) m m' := by
  obtain ⟨e, he, heq⟩ := batchSize_eq d.sig side
  rw [heq]
  refine .reading fun b b' hb hb' hsame hin => ?_
  by_cases h0 : room side b = 0 <;> by_cases h0' : room side b' = 0
  · rw [if_pos h0, if_pos h0']
    refine (beside_first side h he).before fun m m' _ hm => ?_
    rw [onBuffers, hm.1, hm.2]
    exact hin
  · rw [if_pos h0, if_neg h0']
    have hne : ¬E := fun e => h0' (by rw [hsame e, h0])
    obtain ⟨hone, hrun⟩ := first_direction h hb hb' h0 h0' hne
    rintro m m' hg ⟨rfl, rfl⟩
    obtain ⟨n, c, hrun, hc, hn, hcin, hcroom⟩ := hrun m hg.left rfl
    rw [run_bind_ok hrun, hn, hone, nonempty_pos e (Nat.le_refl 1)]
    exact ⟨⟨⟨hc, hg.left.inner⟩, hg.right, fun e => absurd e hne⟩, ⟨rfl, Nat.le_refl 1⟩, hin.trans hcin.symm,
      Nat.le_of_eq hcroom.symm, Nat.le_of_eq hone.symm⟩
  · rw [if_neg h0, if_pos h0']
    have hne : ¬E := fun e => h0 (by rw [← hsame e, h0'])
    obtain ⟨hone, hrun⟩ := first_direction h hb' hb h0' h0 hne
    rintro m m' hg ⟨rfl, rfl⟩
    obtain ⟨n, c, hrun, hc, hn, hcin, hcroom⟩ := hrun m' hg.right rfl
    rw [run_bind_ok hrun, hn, hone, nonempty_pos e (Nat.le_refl 1)]
    exact ⟨⟨hg.left, ⟨hc, hg.right.inner⟩, fun e => absurd e hne⟩, ⟨rfl, Nat.le_refl 1⟩, hcin.trans hin,
      Nat.le_of_eq hone.symm, Nat.le_of_eq hcroom.symm⟩
  · have hsize : room side b' = room side b := by
      obtain he | ⟨hlow, hhigh⟩ := h.counts
      · rw [hsame he]
      · rw [hlow, hhigh] at hb hb'
        rw [room_eq hb side (by omega), room_eq hb' side (by omega)]
    have h1 : 1 ≤ room side b := by omega
    rw [if_neg h0, if_neg h0', hsize, nonempty_pos e h1]
    refine .pure fun m m' _ hm => ⟨⟨rfl, h1⟩, ?_⟩
    rw [onBuffers, hm.1, hm.2]
    exact ⟨hin, Nat.le_refl _, Nat.le_of_eq hsize.symm⟩

section Run

theorem recast_seeded (j : Job) (start n : Nat) {b : Buffers K}
    (hb : b.Shaped d.sig.inputSizes d.sig.outputSizes) : b.Recast d.sig (j.seeded d.sig start n b) := by
  obtain ⟨iind, oind, p, t, map, side, symmetric⟩ := j
  cases side with
  | forward s =>
    exact ⟨hb.withForwardSeed n _ fun _ _ => sizes_unitSeed _ _ _, Buffers.size_firstBlocks _ _ _, rfl⟩
  | adjoint s =>
    exact ⟨hb.withAdjointSeed n _ fun _ _ => sizes_unitSeed _ _ _, rfl, Buffers.size_firstBlocks _ _ _⟩

/-- Seeds that are set anew are the same. -/
theorem alike_seeded (j : Job) (sig : Signature K) (start n : Nat) {b b' : Buffers K}
    (h : Sized j.partition n b b') : Buffers.Alike (sweep j.partition n).1 (sweep j.partition n).2
      (j.seeded sig start n b) (j.seeded sig start n b') := by
  obtain ⟨iind, oind, p, t, map, side, symmetric⟩ := j
  cases side with
  | forward s => exact ⟨h.input, Buffers.agree_firstBlocks _ h.left h.right, .zero _ _⟩
  | adjoint s => exact ⟨h.input, .zero _ _, Buffers.agree_firstBlocks _ h.left h.right⟩

omit [Number K] in
theorem room_eq_select (side : Partition) (b : Buffers K) : room side b = side.select b.directions := by
  cases side <;> rfl

omit [Number K] in
theorem room_recast {sig : Signature K} {b b' : Buffers K} (h : b.Recast sig b') (side : Partition) :
    room side b' = room side b := by
  cases side with
  | forward s => exact h.forward
  | adjoint s => exact h.adjoint

theorem beside_seeds (j : Job) (start : Nat) {n size : Nat} (hn : n ≤ size) :
    Beside W (Joint E d low high) (onBuffers (Sized j.partition size))
      ((List.range n).forM fun k => j.seed d.sig k (start+k)) ((List.range n).forM fun k => j.seed d.sig k (start+k))
      fun _ _ => onBuffers fun b b' => Buffers.Alike (sweep j.partition n).1 (sweep j.partition n).2 b b' ∧
        Sized j.partition size b b' := by
  intro m m' hg hm
  rw [run_seeds, run_seeds]
  have hl := recast_seeded j start n hg.left.frame.shaped
  have hr := recast_seeded j start n hg.right.frame.shaped
  have hsized : Sized j.partition n m.frame.buffers m'.frame.buffers :=
    ⟨hm.input, Nat.le_trans hn hm.left, Nat.le_trans hn hm.right⟩
  have halike := alike_seeded j d.sig start n hsized
  refine ⟨hg.withBuffers (hg.left.frame.recast hl) (hg.right.frame.recast hr) fun e => by rw [hg.same e],
    halike, halike.input, ?_, ?_⟩
  · exact (room_recast hl j.partition).symm ▸ hm.left
  · exact (room_recast hr j.partition).symm ▸ hm.right

variable {eval : Evaluation K} (heval : eval.Settles W E d low high)

/-- Batches leave the directions there, and the same outputs. -/
structure Swept (side : Partition) (size : Nat) (b b' : Buffers K) : Prop extends Sized side size b b' where
  output : b'.output = b.output

theorem Job.size_foldl_recover (j : Job) (start n : Nat) (sens : Nat → Array T) (s : Array Nat × Array T) :
    ((List.range n).foldl (fun s k => j.recover (start+k) (sens k) s) s).2.size = s.2.size :=
  List.foldlRecOn (motive := fun r : Array Nat × Array T => r.2.size = s.2.size) _ _ rfl fun r hr k _ =>
    (j.size_recover (start+k) (sens k) r).trans hr

include heval in
theorem beside_batch (j : Job) (start : Nat) {n size : Nat} (hn : n ≤ size) (s : Array Nat × Array K) :
    Beside W (Joint E d low high) (onBuffers (Sized j.partition size)) (j.batch d.sig eval start n s)
      (j.batch d.sig eval start n s) fun r r' m m' => (r' = r ∧ r.2.size = s.2.size) ∧
        onBuffers (Swept j.partition size) m m' := by
  rw [batch_eq]
  have hkeeps : Keeps (fun g => size ≤ room j.partition g.buffers)
      (eval (sweep j.partition n).1 (sweep j.partition n).2) := by
    intro m hm
    rw [room_eq_select] at hm ⊢
    rwa [heval.directions m.frame.buffers.directions (sweep j.partition n).1 (sweep j.partition n).2 m rfl]
  refine Beside.next (beside_seeds j start hn) fun _ _ => ?_
  refine Beside.bind (((heval.beside (sweep j.partition n).1 (sweep j.partition n).2).before
    (R := onBuffers fun b b' => Buffers.Alike (sweep j.partition n).1 (sweep j.partition n).2 b b' ∧
      Sized j.partition size b b') fun _ _ _ h => h.1).keeps hkeeps hkeeps fun _ _ h => ⟨h.2.left, h.2.right⟩) fun _ _ => ?_
  refine Beside.before (P := onBuffers fun b b' => Buffers.Settled (sweep j.partition n).1 (sweep j.partition n).2 b b' ∧
    size ≤ room j.partition b ∧ size ≤ room j.partition b') ?_ fun _ _ _ h => ⟨h.1.2, h.2⟩
  refine .reading fun b b' hb hb' he ⟨h, hl, hr⟩ => .pure fun m m' _ hm => ⟨⟨?_, j.size_foldl_recover _ _ _ _⟩, ?_⟩
  · have hsens (k : Nat) (hk : k ∈ List.range n) : j.sens b' k = j.sens b k := by
      rw [List.mem_range] at hk
      have hf := h.forwardSens
      have ha := h.adjointSens
      rw [Job.sens, Job.sens]
      cases hside : j.partition with
      | forward s =>
        rw [hside] at hf
        dsimp only
        rw [hf.getD hk]
      | adjoint s =>
        rw [hside] at ha
        dsimp only
        rw [ha.getD hk]
    exact List.foldl_ext _ _ _ fun r k hk => by rw [hsens k hk]
  · rw [onBuffers, hm.1, hm.2]
    exact ⟨⟨h.input, hl, hr⟩, h.output⟩

include heval in
/-- The values of both are the same, as many as the pattern has places, and so are the outputs. -/
theorem beside_run (j : Job) (h : Batches W E d.sig.options low high) :
    Beside W (Joint E d low high) (onBuffers fun b b' => b'.input = b.input) (j.run d.sig eval) (j.run d.sig eval)
      fun v v' m m' => (v' = v ∧ v.size = j.pattern.nnz) ∧ onBuffers (fun b b' => b'.output = b.output) m m' := by
  rw [Job.run]
  dsimp only
  refine .ite (fun _ => ?_) fun hn => ?_
  · refine Beside.next (((heval.beside 0 0).before fun m m' _ h => ⟨h, .zero _ _, .zero _ _⟩).after
      fun _ _ _ _ _ h => h.2.output) fun _ _ => .pure fun _ _ _ h => ⟨⟨rfl, Array.size_replicate⟩, h⟩
  · refine (beside_batchSize j.partition h).bind fun size size' => .assume (fun _ _ _ h => h.1) fun hsizes => ?_
    obtain ⟨hsize, hpos⟩ := hsizes
    rw [hsize]
    have hloop := Beside.foldlM_range (W := W) (G := Joint E d low high)
      (f := fun s r => j.batch d.sig eval (r*size) (min size (j.partition.colors - r*size)) s)
      (g := fun s r => j.batch d.sig eval (r*size) (min size (j.partition.colors - r*size)) s)
      (fun k s s' m m' => (s' = s ∧ s.2.size = j.pattern.nnz) ∧ onBuffers (Sized j.partition size) m m' ∧
        (0 < k → onBuffers (fun b b' => b'.output = b.output) m m')) (ceilDiv j.partition.colors size)
      (fun k _ s s' => .assume (fun _ _ _ h => h.1) fun hs => ?_)
      (.replicate j.pattern.nrow 0, .replicate j.pattern.nnz Number.zero)
      (.replicate j.pattern.nrow 0, .replicate j.pattern.nnz Number.zero)
    · have hrounds : 0 < ceilDiv j.partition.colors size := (lt_ceilDiv_iff hpos).mpr (by omega)
      refine (hloop.before fun m m' _ hm => ⟨⟨rfl, Array.size_replicate⟩, hm.2, fun h => absurd h (by omega)⟩).bind
        fun s s' => .pure fun m m' _ hm => ⟨⟨congrArg Prod.snd hm.1.1, hm.1.2⟩, hm.2.2 hrounds⟩
    · rw [hs.1]
      refine (beside_batch heval j (k*size) (Nat.min_le_left _ _) s).weaken (fun m m' _ hm => hm.2.1)
        fun r r' m m' _ hm => ⟨⟨hm.1.1, hm.1.2.trans hs.2⟩, hm.2.toSized, fun _ => hm.2.output⟩

end Run

end Assemble

end Fluxion
