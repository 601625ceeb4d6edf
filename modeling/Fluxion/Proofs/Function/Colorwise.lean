import Fluxion.Proofs.Function.Answers

/-!
Values of a Jacobian block, color by color. Whether a block has values hinges on the sweeps of its colors, one at a
time, and so do the values; into how many batches the colors are divided does not matter.
-/
set_option autoImplicit false

namespace Fluxion

open Run

variable {K α : Type} {d : Definition K} {low high : Nat × Nat} {m n : Machine K}

namespace Run.Hinges

variable {P : Prop} {act : Run K α} {Q : α → Machine K → Prop}

theorem warnIf {c : Prop} [Decidable c] (s : String)
    (h : ∀ n : Machine K, n.frame = m.frame → n.inner = m.inner → Hinges P n act Q) :
    Hinges P m
      (do
        if c then Run.warn s
        act) Q := by
  split
  · exact .modifying (h _ rfl rfl)
  · exact h m rfl rfl

end Run.Hinges

/-! ### Directions -/

namespace Frame

variable [Number K]

theorem hinges_requestDirections (sig : Signature K) (f a : Nat) (m : Machine K) :
    Hinges (Room (asked sig.options m.frame.buffers f a)) m (sig.requestDirections f a) fun c n =>
      c = asked sig.options m.frame.buffers f a ∧ n.frame.buffers = grown m.frame.buffers c ∧ n.inner = m.inner := by
  have hroom {n : Nat} : (∃ u, Buffers.checkRoom n = .ok u) ↔ Count.hasRoom n 24 = true :=
    ⟨fun ⟨_, h⟩ => checkRoom_ok h, fun h => ⟨(), Count.checkRoom_eq_ok_iff.mpr h⟩⟩
  rw [Signature.requestDirections]
  dsimp only
  refine .warnIf _ fun m₁ hframe₁ hinner₁ => .warnIf _ fun m₂ hframe₂ hinner₂ => .reading ?_
  rw [← hinner₁, ← hinner₂, ← hframe₁, ← hframe₂]
  refine ((Hinges.lift _).congr hroom).bind fun _ n _ hn => .writing ?_
  obtain ⟨-, rfl⟩ := hn
  exact ((Hinges.lift _).congr hroom).map fun _ n _ hn => .writing (.pure ⟨rfl, by rw [hn.2]; rfl, by rw [hn.2]; rfl⟩)

end Frame

/-- The most directions of an instance: one where one is allowed, and no more than are allowed. -/
structure Limited (o : Options K) (high : Nat × Nat) : Prop where
  grants : Grants o high 1 1
  forward : high.1 ≤ o.maxForward
  adjoint : high.2 ≤ o.maxAdjoint

/-- A machine at the inputs `x`, with so many directions. -/
structure Machine.Held (d : Definition K) (low high : Nat × Nat) (x : Block K) (dirs : Nat × Nat) (m : Machine K) :
    Prop where
  fits : m.Fits d low high
  input : m.frame.buffers.input = x
  directions : m.frame.buffers.directions = dirs

namespace Assemble

variable [Number K]

theorem hinges_batchSize (side : Partition) (hm : m.Fits d low high) (hroom : Room m.frame.buffers.directions)
    (hlimited : Limited d.sig.options high) :
    Hinges (1 ≤ side.select d.sig.options.limits) m (batchSize d.sig side.direction) fun size n =>
      1 ≤ size ∧ ∃ dirs, n.Held d low high m.frame.buffers.input dirs ∧ size ≤ side.select dirs ∧ Room dirs := by
  obtain ⟨e, -, heq⟩ := batchSize_eq d.sig side
  obtain ⟨⟨hgf, hga⟩, hlf, hla⟩ := hlimited
  have hb := hm.frame
  rw [heq]
  refine .reading (.ite (fun h0 => ?_) fun h0 => ?_)
  · generalize hc : Frame.asked d.sig.options m.frame.buffers (sweep side 1).1 (sweep side 1).2 = c
    have hcf : c.1 = max m.frame.buffers.forward (min (sweep side 1).1 d.sig.options.maxForward) := by rw [← hc]; rfl
    have hca : c.2 = max m.frame.buffers.adjoint (min (sweep side 1).2 d.sig.options.maxAdjoint) := by rw [← hc]; rfl
    have hone : (sweep side 1).1 ≤ 1 ∧ (sweep side 1).2 ≤ 1 := by cases side <;> simp [sweep]
    have hasked : Room c :=
      ⟨hcf ▸ Frame.hasRoom_max_of_le_one hroom.1 ((Nat.min_le_left _ _).trans hone.1),
        hca ▸ Frame.hasRoom_max_of_le_one hroom.2 ((Nat.min_le_left _ _).trans hone.2)⟩
    have hselect : side.select c = min 1 (side.select d.sig.options.limits) := by
      cases side with
      | forward s => exact hcf.trans (by rw [show m.frame.buffers.forward = 0 from h0, Nat.zero_max]; rfl)
      | adjoint s => exact hca.trans (by rw [show m.frame.buffers.adjoint = 0 from h0, Nat.zero_max]; rfl)
    have hhigh : c.1 ≤ high.1 ∧ c.2 ≤ high.2 := by
      have := hb.forward
      have := hb.adjoint
      omega
    refine Hinges.after ((Frame.hinges_requestDirections d.sig _ _ m).congr (iff_true_intro (hc ▸ hasked))) fun c' n hn => ?_
    rw [hc] at hn
    obtain ⟨rfl, hbuffers, hinner⟩ := hn
    rw [nonempty]
    refine .ite (fun hnone => .intro_error rfl (by omega)) fun hsome => .intro_ok rfl (by omega) ⟨by omega, c', ?_, Nat.le_refl _, hasked⟩
    refine ⟨⟨hbuffers ▸ Frame.fits_grown hb hhigh.1 hhigh.2, hinner ▸ hm.inner⟩, by rw [hbuffers]; rfl, ?_⟩
    rw [hbuffers]
    exact Frame.directions_grown (by omega) (by omega)
  · have hlimit : 1 ≤ side.select d.sig.options.limits := by
      have hf := hb.forward
      have ha := hb.adjoint
      cases side <;> simp only [room, Partition.select, Options.limits] at h0 ⊢ <;> omega
    rw [nonempty_pos e (Nat.pos_of_ne_zero h0)]
    exact .intro_ok rfl hlimit ⟨Nat.pos_of_ne_zero h0, _, ⟨hm, rfl, rfl⟩, Nat.le_of_eq (room_eq_select side _), hroom⟩

end Assemble

/-! ### Colors -/

namespace Assemble

/-- The seeds on the side of the colors. -/
def seeds (side : Partition) (b : Buffers K) : Array (Block K) :=
  match side with
  | .forward _ => b.forwardSeed
  | .adjoint _ => b.adjointSeed

/-- The sensitivities on the side of the colors. -/
def sensitivities (side : Partition) (b : Buffers K) : Array (Block K) :=
  match side with
  | .forward _ => b.forwardSens
  | .adjoint _ => b.adjointSens

/-- Where the block is in a sensitivity. -/
def Job.slot (j : Job) : Nat :=
  match j.partition with
  | .forward _ => j.oind
  | .adjoint _ => j.iind

theorem Job.sens_eq (j : Job) (b : Buffers K) (k : Nat) :
    j.sens b k = ((sensitivities j.partition b).getD k #[]).getD j.slot #[] := by
  rw [sens, slot]
  cases j.partition <;> rfl

theorem sweep_le {side : Partition} {b : Buffers K} {n : Nat} (h : n ≤ room side b) :
    (sweep side n).1 ≤ b.forward ∧ (sweep side n).2 ≤ b.adjoint := by
  cases side with
  | forward s => exact ⟨h, Nat.zero_le _⟩
  | adjoint s => exact ⟨Nat.zero_le _, h⟩

variable [Number K]

/-- The seed of a color. -/
def Job.color (j : Job) (sig : Signature K) (k : Nat) : Block K :=
  match j.partition with
  | .forward s => unitSeed sig.inputSizes j.iind (s.row k)
  | .adjoint s => unitSeed sig.outputSizes j.oind (s.row k)

theorem input_seeded (j : Job) (sig : Signature K) (start n : Nat) (b : Buffers K) :
    (j.seeded sig start n b).input = b.input := by
  rw [Job.seeded]
  split <;> rfl

theorem getD_seeded (j : Job) (sig : Signature K) (start : Nat) {b : Buffers K} {n k : Nat}
    (hn : n ≤ room j.partition b) (hk : k < n) :
    (seeds j.partition (j.seeded sig start n b)).getD k #[] = j.color sig (start+k) := by
  obtain ⟨iind, oind, p, t, map, side, symmetric⟩ := j
  cases side with
  | forward s => exact Buffers.getD_firstBlocks hk (Nat.lt_of_lt_of_le hk hn) _
  | adjoint s => exact Buffers.getD_firstBlocks hk (Nat.lt_of_lt_of_le hk hn) _

end Assemble

namespace Effect

open Assemble

variable {E : Effect K} {side : Partition} {b b' : Buffers K}

/-- The sensitivities for a seed on the side of the colors. -/
def sweeps (E : Effect K) (side : Partition) (x seed : Block K) : Option (Block K) :=
  match side with
  | .forward _ => E.forward x seed
  | .adjoint _ => E.adjoint x seed

theorem has_sweep_iff {n : Nat} : E.Has (sweep side n).1 (sweep side n).2 b ↔
    (E.value b.input).isSome ∧ ∀ k < n, (E.sweeps side b.input ((seeds side b).getD k #[])).isSome := by
  cases side with
  | forward s => exact ⟨fun h => ⟨h.value, h.forward⟩, fun h => ⟨h.1, h.2, fun k hk => absurd hk (Nat.not_lt_zero _)⟩⟩
  | adjoint s => exact ⟨fun h => ⟨h.value, h.adjoint⟩, fun h => ⟨h.1, fun k hk => absurd hk (Nat.not_lt_zero _), h.2⟩⟩

theorem Gives.sweeps {n k : Nat} (h : E.Gives (sweep side n).1 (sweep side n).2 b b') (hk : k < n) :
    E.sweeps side b.input ((seeds side b).getD k #[]) = some ((sensitivities side b').getD k #[]) := by
  cases side with
  | forward s => exact h.forward k hk
  | adjoint s => exact h.adjoint k hk

variable [Number K]

/-- What the sweep of color `k` sees of the block. -/
def sees (E : Effect K) (sig : Signature K) (j : Job) (x : Block K) (k : Nat) : Option (Array K) :=
  (E.sweeps j.partition x (j.color sig k)).map (·.getD j.slot #[])

/-- Hits and values after `n` colors from color `start` on. -/
def recovers (E : Effect K) (sig : Signature K) (j : Job) (x : Block K) (start n : Nat) (s : Array Nat × Array K) :
    Array Nat × Array K :=
  (List.range n).foldl (fun s k => j.recover (start+k) ((E.sees sig j x (start+k)).getD #[]) s) s

/-- The values of a block, where the outputs and the sweeps of all colors are there. -/
def values (E : Effect K) (sig : Signature K) (j : Job) (x : Block K) : Option (Array K) :=
  let colors := j.partition.colors
  if (colors = 0 ∨ 1 ≤ j.partition.select sig.options.limits) ∧ (E.value x).isSome ∧
      ∀ k < colors, (E.sees sig j x k).isSome then
    some (E.recovers sig j x 0 colors (.replicate j.pattern.nrow 0, .replicate j.pattern.nnz Number.zero)).2
  else none

theorem recovers_add (E : Effect K) (sig : Signature K) (j : Job) (x : Block K) (start n n' : Nat)
    (s : Array Nat × Array K) :
    E.recovers sig j x start (n+n') s = E.recovers sig j x (start+n) n' (E.recovers sig j x start n s) := by
  rw [recovers, recovers, recovers, List.range_add, List.foldl_append, List.foldl_map]
  simp only [Nat.add_assoc]

variable {eval : Evaluation K} {x : Block K} {dirs : Nat × Nat}

omit [Number K] in
/-- An evaluation leaves the inputs and the directions. -/
theorem Leaves.held {f a : Nat} (h : E.Leaves d low high f a m n) :
    n.Held d low high m.frame.buffers.input m.frame.buffers.directions := by
  have hforward : n.frame.buffers.forward = m.frame.buffers.forward := congrArg Array.size h.undisturbed.forwardSeed
  have hadjoint : n.frame.buffers.adjoint = m.frame.buffers.adjoint := congrArg Array.size h.undisturbed.adjointSeed
  exact ⟨h.fits, h.undisturbed.input, Prod.ext hforward hadjoint⟩

/-- A batch takes what its colors see. -/
theorem Decides.hinges_batch (h : E.Decides d eval) (j : Job) (start : Nat) {size k : Nat} (hk : k ≤ size)
    (hsize : size ≤ j.partition.select dirs) (hm : m.Held d low high x dirs) (s : Array Nat × Array K) :
    Hinges ((E.value x).isSome ∧ ∀ c < k, (E.sees d.sig j x (start+c)).isSome) m (j.batch d.sig eval start k s)
      fun s' n => s' = E.recovers d.sig j x start k s ∧ n.Held d low high x dirs ∧
        E.value x = some n.frame.buffers.output := by
  obtain ⟨hfits, rfl, rfl⟩ := hm
  have hroom : k ≤ room j.partition m.frame.buffers := by
    rw [room_eq_select]
    exact Nat.le_trans hk hsize
  have hrecast := recast_seeded j start k hfits.frame.shaped
  have hinput := input_seeded j d.sig start k m.frame.buffers
  have hseeds {c : Nat} (hc : c < k) := getD_seeded j d.sig start hroom hc
  have hsweep := sweep_le (room_recast hrecast j.partition ▸ hroom)
  rw [batch_eq, Hinges, run_bind_ok (run_seeds j d.sig start k m), ← Hinges]
  generalize j.seeded d.sig start k m.frame.buffers = b at hrecast hinput hseeds hsweep
  refine ((h low high _ _ (m.withBuffers b) ⟨hfits.frame.recast hrecast, hfits.inner⟩ hsweep.1 hsweep.2).congr ?_).map
    fun _ n hhas hn => .reading ?_
  · refine has_sweep_iff.trans (and_congr (by rw [← hinput]; rfl) (forall₂_congr fun c hc => ?_))
    change (E.sweeps j.partition b.input ((seeds j.partition b).getD c #[])).isSome ↔ _
    rw [hseeds hc, hinput, sees, Option.isSome_map]
  · have hgives : E.Gives (sweep j.partition k).1 (sweep j.partition k).2 b n.frame.buffers := hn.gives
    obtain ⟨hleft, hin, hdirs⟩ := hn.held
    refine .intro_ok rfl trivial ⟨List.foldl_ext _ _ _ fun s c hc => ?_, ⟨hleft, hin.trans hinput, ?_⟩, ?_⟩
    · have hsees := hgives.sweeps (List.mem_range.mp hc)
      rw [hseeds (List.mem_range.mp hc), hinput] at hsees
      rw [sees, hsees, Option.map_some, Option.getD_some, Job.sens_eq]
    · exact hdirs.trans (Prod.ext hrecast.forward hrecast.adjoint)
    · rw [← hinput]
      exact hgives.value

/-- The colors before round `r`. -/
theorem min_succ {colors size r : Nat} (hr : r*size < colors) :
    min colors ((r+1)*size) = r*size + min size (colors - r*size) := by
  rw [Nat.succ_mul]
  omega

/-- All rounds have all their colors exactly if all colors are there. -/
theorem forall_rounds_iff {P : Nat → Prop} {colors size rounds : Nat} (h : colors ≤ rounds*size) :
    (∀ r < rounds, ∀ c < min size (colors - r*size), P (r*size+c)) ↔ ∀ k < colors, P k := by
  constructor
  · intro hall k hk
    have hpos : 0 < size := Nat.pos_of_ne_zero fun h0 => by simp only [h0, Nat.mul_zero] at h; omega
    have hround : k / size < rounds := (Nat.div_lt_iff_lt_mul hpos).mpr (by omega)
    have hmod := Nat.mod_lt k hpos
    have hsplit := Nat.div_add_mod' k size
    have hcolor := hall (k/size) hround (k % size) (by omega)
    rwa [hsplit] at hcolor
  · exact fun hall r _ c hc => hall _ (by omega)

/-- The rounds take what all colors see. -/
theorem Decides.hinges_rounds (h : E.Decides d eval) (j : Job) (hcolors : j.partition.colors ≠ 0) {size : Nat}
    (hsize : 1 ≤ size) (hle : size ≤ j.partition.select dirs) (hm : m.Held d low high x dirs) (s : Array Nat × Array K) :
    Hinges ((E.value x).isSome ∧ ∀ k < j.partition.colors, (E.sees d.sig j x k).isSome) m
      ((List.range (ceilDiv j.partition.colors size)).foldlM
        (fun s r => j.batch d.sig eval (r*size) (min size (j.partition.colors - r*size)) s) s)
      fun s' n => s' = E.recovers d.sig j x 0 j.partition.colors s ∧ n.Held d low high x dirs ∧
        E.value x = some n.frame.buffers.output := by
  have hrounds : 0 < ceilDiv j.partition.colors size := (lt_ceilDiv_iff hsize).mpr (by omega)
  have hall := le_ceilDiv_mul j.partition.colors hsize
  have hloop := Hinges.foldlM_range (m := m) (b := s)
    (f := fun s r => j.batch d.sig eval (r*size) (min size (j.partition.colors - r*size)) s)
    (C := fun r => (E.value x).isSome ∧ ∀ c < min size (j.partition.colors - r*size), (E.sees d.sig j x (r*size+c)).isSome)
    (fun r s' n => s' = E.recovers d.sig j x 0 (min j.partition.colors (r*size)) s ∧ n.Held d low high x dirs ∧
      (0 < r → E.value x = some n.frame.buffers.output)) (n := ceilDiv j.partition.colors size)
    (fun r s' n hr hs => ?_) ⟨by rw [Nat.zero_mul, Nat.min_zero]; rfl, hm, fun h0 => absurd h0 (Nat.lt_irrefl 0)⟩
  · rw [Nat.min_eq_left hall] at hloop
    have hiff := forall_rounds_iff (P := fun k => (E.sees d.sig j x k).isSome) hall
    exact (hloop.congr ⟨fun hall => ⟨(hall 0 hrounds).1, hiff.mp fun r hr => (hall r hr).2⟩,
      fun hall r hr => ⟨hall.1, hiff.mpr hall.2 r hr⟩⟩).mono fun s' n _ hn => ⟨hn.1, hn.2.1, hn.2.2 hrounds⟩
  · have hlt : r*size < j.partition.colors := (lt_ceilDiv_iff hsize).mp hr
    refine (h.hinges_batch j (r*size) (Nat.min_le_left _ _) hle hs.2.1 s').mono fun s'' n _ hn => ⟨?_, hn.2.1, fun _ => hn.2.2⟩
    rw [hn.1, hs.1, min_succ hlt, recovers_add, Nat.min_eq_right (Nat.le_of_lt hlt), Nat.zero_add]

/-- Whether a block has values, and which, hinges on its colors; the number of directions does not matter. -/
theorem Decides.yields_run (h : E.Decides d eval) (j : Job) (hm : m.Fits d low high)
    (hroom : Room m.frame.buffers.directions) (hlimited : Limited d.sig.options high) :
    Yields (E.values d.sig j m.frame.buffers.input) m (j.run d.sig eval) fun _ n =>
      E.value m.frame.buffers.input = some n.frame.buffers.output ∧
        ∃ dirs, n.Held d low high m.frame.buffers.input dirs ∧ Room dirs := by
  rw [Job.run]
  dsimp only
  refine .ite (fun h0 => ?_) fun hcolors => ?_
  · rw [values, h0]
    refine Yields.of_hinges (((h low high 0 0 m hm (Nat.zero_le _) (Nat.zero_le _)).congr ?_).map
      fun _ n _ hn => .pure ⟨rfl, hn.gives.value, _, hn.held, hroom⟩)
    exact ⟨fun hhas => ⟨.inl rfl, hhas.value, fun k hk => absurd hk (Nat.not_lt_zero _)⟩,
      fun hall => ⟨hall.2.1, fun k hk => absurd hk (Nat.not_lt_zero _), fun k hk => absurd hk (Nat.not_lt_zero _)⟩⟩
  · refine Yields.of_hinges ?_
    refine ((hinges_batchSize j.partition hm hroom hlimited).bind fun size n₁ _ hn₁ => ?_).congr
      (and_congr_left' (or_iff_right hcolors).symm)
    obtain ⟨hsize, dirs, hheld, hle, hroom'⟩ := hn₁
    exact (h.hinges_rounds j hcolors hsize hle hheld _).map fun s n _ hn =>
      .pure ⟨congrArg Prod.snd hn.1, hn.2.2, dirs, hn.2.1, hroom'⟩

end Effect

end Fluxion
