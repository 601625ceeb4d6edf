import Fluxion.Proofs.Function.Beside
import Fluxion.Proofs.Tape.Checked

/-!
Replays side by side. Buffers that agree in what a replay reads, and may differ in what it writes, come to
agree in both: every output entry is stored, and so are the sensitivities of every direction that is swept.
-/
set_option autoImplicit false

namespace Fluxion

variable {K T α : Type}

/-- The first `n` items of two lists are there and are the same. -/
structure Agree (n : Nat) (s s' : Array T) : Prop where
  left : n ≤ s.size
  right : n ≤ s'.size
  get : ∀ d, d < n → s'[d]? = s[d]?

namespace Agree

variable {n : Nat} {s s' : Array T}

theorem zero (s s' : Array T) : Agree 0 s s' := ⟨Nat.zero_le _, Nat.zero_le _, fun _ h => absurd h (by omega)⟩

theorem mono (h : Agree n s s') {m : Nat} (hm : m ≤ n) : Agree m s s' :=
  ⟨Nat.le_trans hm h.left, Nat.le_trans hm h.right, fun d hd => h.get d (Nat.lt_of_lt_of_le hd hm)⟩

theorem getD (h : Agree n s s') {d : Nat} (hd : d < n) (x : T) : s'.getD d x = s.getD d x := by
  rw [Array.getD_eq_getD_getElem?, Array.getD_eq_getD_getElem?, h.get d hd]

/-- One more item that is set in both. -/
theorem set (h : Agree n s s') (hs : n < s.size) (hs' : n < s'.size) (x : T) :
    Agree (n+1) (s.setIfInBounds n x) (s'.setIfInBounds n x) := by
  refine ⟨by rwa [Array.size_setIfInBounds], by rwa [Array.size_setIfInBounds], fun d hd => ?_⟩
  rw [Array.getElem?_setIfInBounds, Array.getElem?_setIfInBounds]
  split
  · rfl
  · exact h.get d (by omega)

end Agree

namespace Buffers

/-- What an evaluation of `f` forward and `a` adjoint directions reads is there and is the same. -/
structure Alike (f a : Nat) (b b' : Buffers T) : Prop where
  input : b'.input = b.input
  forwardSeed : Agree f b.forwardSeed b'.forwardSeed
  adjointSeed : Agree a b.adjointSeed b'.adjointSeed

/-- So is what it writes. -/
structure Settled (f a : Nat) (b b' : Buffers T) : Prop extends Alike f a b b' where
  output : b'.output = b.output
  forwardSens : Agree f b.forwardSens b'.forwardSens
  adjointSens : Agree a b.adjointSens b'.adjointSens

/-- Blocks that are made anew are the same. -/
theorem agree_firstBlocks {n : Nat} (f : Nat → Block T) {bs bs' : Array (Block T)} (hl : n ≤ bs.size)
    (hr : n ≤ bs'.size) : Agree n (firstBlocks n f bs) (firstBlocks n f bs') := by
  refine ⟨by rwa [size_firstBlocks], by rwa [size_firstBlocks], fun d hd => ?_⟩
  rw [getElem?_firstBlocks, getElem?_firstBlocks, Array.getElem?_eq_getElem (by omega),
    Array.getElem?_eq_getElem (by omega), Option.map_some, Option.map_some, if_pos hd, if_pos hd]

theorem Shaped.setForwardSens {ins outs : Array Nat} {b : Buffers K} (h : b.Shaped ins outs) (d : Nat)
    {x : Block K} (hx : x.sizes = outs) :
    ({b with forwardSens := b.forwardSens.setIfInBounds d x} : Buffers K).Shaped ins outs :=
  ⟨h.input, h.output, h.forwardSeed, Assemble.mem_setIfInBounds h.forwardSens d hx, h.adjointSeed,
    h.adjointSens, by simpa using h.forward, h.adjoint⟩

theorem Shaped.setAdjointSens {ins outs : Array Nat} {b : Buffers K} (h : b.Shaped ins outs) (d : Nat)
    {x : Block K} (hx : x.sizes = ins) :
    ({b with adjointSens := b.adjointSens.setIfInBounds d x} : Buffers K).Shaped ins outs :=
  ⟨h.input, h.output, h.forwardSeed, h.forwardSens, h.adjointSeed,
    Assemble.mem_setIfInBounds h.adjointSens d hx, h.forward, by simpa using h.adjoint⟩

end Buffers

/-- Blocks of the same sizes agree where they agreed, and where both are set. -/
theorem Block.get?_set_congr {y y' : Block T} (h : y'.sizes = y.sizes) {i k r c : Nat} (x : T)
    (hget : (i,k) = (r,c) ∨ y'.get? r c = y.get? r c) : (y'.set i k x).get? r c = (y.set i k x).get? r c := by
  by_cases hsame : (i,k) = (r,c)
  · obtain ⟨rfl, rfl⟩ := Prod.mk.inj hsame
    have hsome : (y'.get? i k).isSome ↔ (y.get? i k).isSome :=
      (get?_isSome h).trans (get?_isSome rfl).symm
    by_cases hy : (y.get? i k).isSome
    · rw [get?_set_self hy, get?_set_self (hsome.mpr hy)]
    · have hnone {z : Block T} (hz : ¬(z.get? i k).isSome) : (z.set i k x).get? i k = none := by
        rw [← Option.not_isSome_iff_eq_none, get?_isSome (sizes_set z i k x), ← get?_isSome rfl]
        exact hz
      rw [hnone hy, hnone (hsome.not.mpr hy)]
  · rw [get?_set_of_ne hsame, get?_set_of_ne hsame]
    exact hget.resolve_left hsame

namespace Tape

/-- Every entry of outputs of the given sizes is stored. -/
def Covers (t : Tape K) (outs : Array Nat) : Prop :=
  ∀ i k n, outs[i]? = some n → k < n → ∃ el ∈ t.elements, el.op = .output ∧ el.result = i ∧ el.right = k

/-- Blocks that agree in what is stored are the same if everything is. -/
theorem Covers.eq {t : Tape K} {outs : Array Nat} (h : t.Covers outs) {y y' : Block T} (hy : y.sizes = outs)
    (hy' : y'.sizes = outs)
    (hget : ∀ el ∈ t.elements, el.op = .output → y'.get? el.result el.right = y.get? el.result el.right) :
    y' = y := by
  refine Block.ext_get? (hy'.trans hy.symm) fun i k z hz => ?_
  obtain ⟨n, hn, hk⟩ := (Block.get?_isSome hy').mp (Option.isSome_iff_exists.mpr ⟨z, hz⟩)
  obtain ⟨el, hel, hop, rfl, rfl⟩ := h i k n hn hk
  rw [← hget el hel hop, hz]

section Pass

/-- Two replays from buffers `b` and `b'` after the elements `done`: they differ in output entries that were
not stored yet. -/
structure Replay.Beside (outs : Array Nat) (b b' : Buffers K) (done : List (Element K)) (s s' : Replay K) :
    Prop where
  work : s'.work = s.work
  partials : s'.partials = s.partials
  left : s.buffers = {b with output := s.buffers.output}
  right : s'.buffers = {b' with output := s'.buffers.output}
  sizes : s.buffers.output.sizes = outs
  sizes' : s'.buffers.output.sizes = outs
  stored : ∀ el ∈ done, el.op = .output →
    s'.buffers.output.get? el.result el.right = s.buffers.output.get? el.result el.right
  slots : ∀ el ∈ done, el.op = .output → el.left < s.work.size

/-- Two replays that go on, or stop with the same fault. -/
def Ends (outs : Array Nat) (b b' : Buffers K) (Q : α → α → Prop) :
    Except (Stopped K) α → Except (Stopped K) α → Prop
  | .ok x, .ok x' => Q x x'
  | .error s, .error s' => s'.fault = s.fault ∧
      (s.buffers = {b with output := s.buffers.output} ∧ s.buffers.output.sizes = outs) ∧
      s'.buffers = {b' with output := s'.buffers.output} ∧ s'.buffers.output.sizes = outs
  | _, _ => False

variable {outs : Array Nat} {b b' : Buffers K} {done : List (Element K)} {s s' : Replay K} {el : Element K}

namespace Replay.Beside

/-- An element that is no store writes the same to both. -/
theorem write (h : Beside outs b b' done s s') (hop : el.op ≠ .output) (i : Nat) (x : K)
    (ps : Array (K × K)) : Beside outs b b' (done ++ [el]) ⟨s.work.setIfInBounds i x, ps, s.buffers⟩
      ⟨s'.work.setIfInBounds i x, ps, s'.buffers⟩ where
  work := by rw [h.work]
  partials := rfl
  left := h.left
  right := h.right
  sizes := h.sizes
  sizes' := h.sizes'
  stored d hd hd' := by
    obtain hd | hd := List.mem_append.mp hd
    · exact h.stored d hd hd'
    · exact absurd (List.mem_singleton.mp hd ▸ hd') hop
  slots d hd hd' := by
    obtain hd | hd := List.mem_append.mp hd
    · simpa using h.slots d hd hd'
    · exact absurd (List.mem_singleton.mp hd ▸ hd') hop

/-- A store writes the same to both. -/
theorem store (h : Beside outs b b' done s s') (hleft : el.left < s.work.size) (x : K) :
    Beside outs b b' (done ++ [el])
      ⟨s.work, s.partials, {s.buffers with output := s.buffers.output.set el.result el.right x}⟩
      ⟨s'.work, s'.partials, {s'.buffers with output := s'.buffers.output.set el.result el.right x}⟩ where
  work := h.work
  partials := h.partials
  left := congrArg (fun c : Buffers K => {c with output := s.buffers.output.set el.result el.right x}) h.left
  right := congrArg (fun c : Buffers K => {c with output := s'.buffers.output.set el.result el.right x}) h.right
  sizes := (Block.sizes_set _ _ _ _).trans h.sizes
  sizes' := (Block.sizes_set _ _ _ _).trans h.sizes'
  stored d hd hd' := by
    refine Block.get?_set_congr (h.sizes'.trans h.sizes.symm) x ?_
    obtain hd | hd := List.mem_append.mp hd
    · exact .inr (h.stored d hd hd')
    · exact .inl (by rw [List.mem_singleton.mp hd])
  slots d hd hd' := by
    obtain hd | hd := List.mem_append.mp hd
    · exact h.slots d hd hd'
    · exact List.mem_singleton.mp hd ▸ hleft

/-- Both have the same places for outputs. -/
theorem get?_output (h : Beside outs b b' done s s') (i k : Nat) :
    s.buffers.output.get? i k = none ∧ s'.buffers.output.get? i k = none ∨
      ∃ x x', s.buffers.output.get? i k = some x ∧ s'.buffers.output.get? i k = some x' := by
  have hsome : (s'.buffers.output.get? i k).isSome = (s.buffers.output.get? i k).isSome :=
    Bool.eq_iff_iff.mpr ((Block.get?_isSome h.sizes').trans (Block.get?_isSome h.sizes).symm)
  cases hx : s.buffers.output.get? i k with
  | none => exact .inl ⟨rfl, by simpa [hx] using hsome⟩
  | some x =>
    rw [hx] at hsome
    obtain ⟨x', hx'⟩ := Option.isSome_iff_exists.mp hsome
    exact .inr ⟨x, x', rfl, hx'⟩

theorem input (h : Beside outs b b' done s s') (hin : b'.input = b.input) :
    s'.buffers.input = s.buffers.input := by
  rw [h.left, h.right]
  exact hin

end Replay.Beside

theorem Replay.Beside.stop (h : Replay.Beside outs b b' done s s') (f : Fault)
    (Q : Replay K → Replay K → Prop) :
    Ends outs b b' Q (s.stop f : ExceptT (Stopped K) Id (Replay K)).run
      (s'.stop f : ExceptT (Stopped K) Id (Replay K)).run :=
  ⟨rfl, ⟨h.left, h.sizes⟩, h.right, h.sizes'⟩

variable [Number K]

/-- An operation whose derivatives are recorded. -/
def Replay.taped (s : Replay K) (el : Element K) (x y : K) : ExceptT (Stopped K) Id (Replay K) :=
  match (Arithmetic.numeric : Arithmetic K K Id).partials el.op x y (Number.eval el.op x y) with
  | some p => return ⟨s.work.setIfInBounds el.result (Number.eval el.op x y), s.partials.push p, s.buffers⟩
  | none => s.stop (.missingDerivative el.op)

theorem step_beside (t : Tape K) (taping : Bool) (hin : b'.input = b.input)
    (h : Replay.Beside outs b b' done s s') (el : Element K) :
    Ends outs b b' (Replay.Beside outs b b' (done ++ [el])) (Replay.step .numeric t taping s el).run
      (Replay.step .numeric t taping s' el).run := by
  have hstop := fun f => h.stop f (Replay.Beside outs b b' (done ++ [el]))
  have hinput := h.input hin
  obtain ⟨work, partials, c⟩ := s
  obtain ⟨work', partials', c'⟩ := s'
  obtain rfl : work' = work := h.work
  obtain rfl : partials' = partials := h.partials
  dsimp only at hinput
  unfold Replay.step
  split
  · next hop =>
    dsimp only
    rw [hinput]
    split
    · exact h.write (by simp [hop]) _ _ _
    · exact hstop _
  · next hop =>
    dsimp only
    cases hx : work'[el.left]? with
    | none => exact hstop _
    | some x =>
      obtain ⟨hy, hy'⟩ | ⟨y, y', hy, hy'⟩ := h.get?_output el.result el.right
      · rw [hy, hy']
        exact hstop _
      · rw [hy, hy']
        exact h.store (Array.getElem?_eq_some_iff.mp hx).1 x
  · next hop => exact h.write (by simp [hop]) _ _ _
  · next hop =>
    split
    · exact h.write (by simp [hop]) _ _ _
    · exact hstop _
  · next hout _ _ =>
    dsimp only
    split
    · next x y _ _ =>
      cases taping with
      | false => exact h.write hout _ _ _
      | true =>
        change Ends outs b b' _ (Replay.taped ⟨work', partials', c⟩ el x y).run
          (Replay.taped ⟨work', partials', c'⟩ el x y).run
        unfold Replay.taped
        split
        · exact h.write hout _ _ _
        · exact hstop _
    · exact hstop _

omit [Number K] in
theorem Ends.bind {β : Type} {P : α → α → Prop} {Q : β → β → Prop} {act act' : ExceptT (Stopped K) Id α}
    {f f' : α → ExceptT (Stopped K) Id β} (h : Ends outs b b' P act.run act'.run)
    (hf : ∀ a a', P a a' → Ends outs b b' Q (f a).run (f' a').run) :
    Ends outs b b' Q (act >>= f).run (act' >>= f').run := by
  rw [ExceptT.run_bind, ExceptT.run_bind]
  cases hr : act.run with
  | ok a =>
    cases hr' : act'.run with
    | ok a' =>
      rw [hr, hr'] at h
      exact hf a a' h
    | error e' =>
      rw [hr, hr'] at h
      exact h.elim
  | error e =>
    cases hr' : act'.run with
    | ok a' =>
      rw [hr, hr'] at h
      exact h.elim
    | error e' =>
      rw [hr, hr'] at h
      exact h

theorem foldlM_beside (t : Tape K) (taping : Bool) (hin : b'.input = b.input) (els : List (Element K))
    (h : Replay.Beside outs b b' done s s') :
    Ends outs b b' (Replay.Beside outs b b' (done ++ els)) (els.foldlM (Replay.step .numeric t taping) s).run
      (els.foldlM (Replay.step .numeric t taping) s').run := by
  induction els generalizing done s s' with
  | nil =>
    rw [List.append_nil]
    exact h
  | cons el els ih =>
    rw [List.foldlM_cons, List.foldlM_cons]
    refine (step_beside t taping hin h el).bind fun r r' hr => ?_
    rw [← List.singleton_append, ← List.append_assoc]
    exact ih hr

theorem forwardPass_beside (t : Tape K) (taping : Bool) (hin : b'.input = b.input)
    (hout : b.output.sizes = outs) (hout' : b'.output.sizes = outs) :
    Ends outs b b' (Replay.Beside outs b b' t.elements.toList) (t.forwardPass .numeric taping b).run
      (t.forwardPass .numeric taping b').run := by
  have hstart : Replay.Beside outs b b' [] ⟨.replicate t.worksize (Number.zero : K), #[], b⟩
      ⟨.replicate t.worksize Number.zero, #[], b'⟩ :=
    ⟨rfl, rfl, rfl, rfl, hout, hout', by simp, by simp⟩
  have hpass (b : Buffers K) : t.forwardPass (.numeric : Arithmetic K K Id) taping b =
      t.elements.toList.foldlM (Replay.step .numeric t taping)
        ⟨.replicate t.worksize (Number.zero : K), #[], b⟩ := by
    rw [Array.foldlM_toList]
    rfl
  rw [hpass, hpass]
  exact foldlM_beside t taping hin t.elements.toList hstart

end Pass

section Sweeps

variable [Number K] {outs : Array Nat} {partials : Array (K × K)} {seed : Block K} {size : Nat}
  {done : List (Element K)} {s s' : Sweep K} {el : Element K}

/-- Two sweeps after the elements `done`, over the same work slots. -/
structure Sweep.Beside (outs : Array Nat) (size : Nat) (done : List (Element K)) (s s' : Sweep K) : Prop where
  work : s'.work = s.work
  next : s'.next = s.next
  size : s.work.size = size
  sizes : s.sens.sizes = outs
  sizes' : s'.sens.sizes = outs
  stored : ∀ el ∈ done, el.op = .output → s'.sens.get? el.result el.right = s.sens.get? el.result el.right

omit [Number K] in
theorem Sweep.ext {s s' : Sweep K} (hwork : s'.work = s.work) (hsens : s'.sens = s.sens)
    (hnext : s'.next = s.next) : s' = s := by
  obtain ⟨work, sens, next⟩ := s
  obtain ⟨work', sens', next'⟩ := s'
  obtain rfl : work' = work := hwork
  obtain rfl : sens' = sens := hsens
  obtain rfl : next' = next := hnext
  rfl

/-- An element that is no store passes the sensitivities on. -/
theorem Sweep.forward_pass (partials : Array (K × K)) (seed : Block K) (hop : el.op ≠ .output) (work : Array K)
    (next : Nat) :
    ∃ w n, w.size = work.size ∧ ∀ sens,
      Sweep.forward (.numeric : Arithmetic K K Id) partials seed ⟨work, sens, next⟩ el =
        (pure ⟨w, sens, n⟩ : Id (Sweep K)) := by
  unfold Sweep.forward
  split
  · split
    · exact ⟨_, _, Array.size_setIfInBounds, fun _ => rfl⟩
    · exact ⟨_, _, rfl, fun _ => rfl⟩
  · next ho => exact absurd ho hop
  · exact ⟨_, _, Array.size_setIfInBounds, fun _ => rfl⟩
  · exact ⟨_, _, Array.size_setIfInBounds, fun _ => rfl⟩
  · dsimp only
    split
    · split
      · exact ⟨_, _, Array.size_setIfInBounds, fun _ => rfl⟩
      · exact ⟨_, _, Array.size_setIfInBounds, fun _ => rfl⟩
    · exact ⟨_, _, rfl, fun _ => rfl⟩

theorem Sweep.forward_beside (h : Sweep.Beside outs size done s s') (hslot : el.op = .output → el.left < size) :
    Sweep.Beside outs size (done ++ [el])
      (Sweep.forward (.numeric : Arithmetic K K Id) partials seed s el)
      (Sweep.forward (.numeric : Arithmetic K K Id) partials seed s' el) := by
  obtain ⟨work, sens, next⟩ := s
  obtain ⟨work', sens', next'⟩ := s'
  obtain rfl : work' = work := h.work
  obtain rfl : next' = next := h.next
  have hbefore : ∀ d ∈ done ++ [el], d ∈ done ∨ d = el := fun d hd => by simpa using hd
  by_cases hop : el.op = .output
  · have hleft : el.left < work'.size := by
      rw [h.size]
      exact hslot hop
    have hrun (sens : Block K) : Sweep.forward (.numeric : Arithmetic K K Id) partials seed
        ⟨work', sens, next'⟩ el = (pure ⟨work', sens.set el.result el.right work'[el.left], next'⟩ : Id (Sweep K)) := by
      unfold Sweep.forward
      dsimp only
      rw [hop, Array.getElem?_eq_getElem hleft]
    rw [hrun, hrun]
    refine ⟨rfl, rfl, h.size, (Block.sizes_set _ _ _ _).trans h.sizes, (Block.sizes_set _ _ _ _).trans h.sizes',
      fun d hd hd' => Block.get?_set_congr (h.sizes'.trans h.sizes.symm) _ ?_⟩
    obtain hd | rfl := hbefore d hd
    · exact .inr (h.stored d hd hd')
    · exact .inl rfl
  · obtain ⟨w, n, hw, hrun⟩ := Sweep.forward_pass partials seed hop work' next'
    rw [hrun, hrun]
    refine ⟨rfl, rfl, hw.trans h.size, h.sizes, h.sizes', fun d hd hd' => ?_⟩
    obtain hd | rfl := hbefore d hd
    · exact h.stored d hd hd'
    · exact absurd hd' hop

/-- Sweeps over the same slots and seeds come to the same slots and sensitivities. -/
theorem forwardSweep_beside (partials : Array (K × K)) (seed : Block K) {t : Tape K} (hcovers : t.Covers outs)
    {work : Array K}
    (hslots : ∀ el ∈ t.elements, el.op = .output → el.left < work.size) {sens sens' : Block K}
    (hs : sens.sizes = outs) (hs' : sens'.sizes = outs) :
    t.forwardSweep (.numeric : Arithmetic K K Id) partials work seed sens' =
      t.forwardSweep (.numeric : Arithmetic K K Id) partials work seed sens ∧
    (t.forwardSweep (.numeric : Arithmetic K K Id) partials work seed sens).sens.sizes = outs ∧
    (t.forwardSweep (.numeric : Arithmetic K K Id) partials work seed sens).work.size = work.size := by
  have general (els done : List (Element K)) (hels : ∀ el ∈ els, el.op = .output → el.left < work.size)
      {s s' : Sweep K} (h : Sweep.Beside outs work.size done s s') :
      Sweep.Beside outs work.size (done ++ els)
        (els.foldlM (Sweep.forward .numeric partials seed) s : Id (Sweep K))
        (els.foldlM (Sweep.forward .numeric partials seed) s' : Id (Sweep K)) := by
    induction els generalizing done s s' with
    | nil =>
      rw [List.append_nil]
      exact h
    | cons el els ih =>
      rw [List.foldlM_cons, List.foldlM_cons, ← List.singleton_append, ← List.append_assoc]
      exact ih (done ++ [el]) (fun d hd => hels d (List.mem_cons_of_mem _ hd))
        (Sweep.forward_beside h (hels el List.mem_cons_self))
  have hstart : Sweep.Beside outs work.size [] ⟨work, sens, 0⟩ ⟨work, sens', 0⟩ := ⟨rfl, rfl, rfl, hs, hs', by simp⟩
  have h := general t.elements.toList [] (fun el hel => hslots el (Array.mem_toList_iff.mp hel)) hstart
  rw [Array.foldlM_toList, Array.foldlM_toList, List.nil_append] at h
  refine ⟨?_, h.sizes, h.size⟩
  have hsens := hcovers.eq h.sizes h.sizes' fun el hel => h.stored el (Array.mem_toList_iff.mpr hel)
  exact Sweep.ext h.work hsens h.next

theorem Sweep.adjoint_sizes (s : Sweep K) (el : Element K) :
    (Id.run (Sweep.adjoint .numeric partials seed s el)).sens.sizes = s.sens.sizes := by
  obtain ⟨work, sens, next⟩ := s
  unfold Sweep.adjoint
  dsimp only
  split
  · split
    · exact Block.sizes_set _ _ _ _
    · rfl
  · split
    · split
      · rfl
      · rfl
    · rfl
  · rfl
  · rfl
  · split
    · split
      · rfl
      · split
        · rfl
        · rfl
    · rfl

/-- A reverse sweep makes its sensitivities anew. -/
theorem adjointSweep_beside (partials : Array (K × K)) (seed : Block K) (t : Tape K) (work : Array K) {sens sens' : Block K} (hs : sens.sizes = outs)
    (hs' : sens'.sizes = outs) :
    t.adjointSweep (.numeric : Arithmetic K K Id) partials work seed sens' =
      t.adjointSweep (.numeric : Arithmetic K K Id) partials work seed sens ∧
    (Id.run (t.adjointSweep .numeric partials work seed sens)).sens.sizes = outs := by
  have hclear {x : Block K} (hx : x.sizes = outs) : (x.mapM fun v => v.mapM fun _ =>
      (Arithmetic.numeric : Arithmetic K K Id).zero) = (pure (Block.filled outs Number.zero) : Id (Block K)) := by
    have hzero : (Arithmetic.numeric : Arithmetic K K Id).zero = pure Number.zero := rfl
    rw [← hx, ← Block.clear_eq]
    simp [hzero]
  have hrun {x : Block K} (hx : x.sizes = outs) :
      t.adjointSweep (.numeric : Arithmetic K K Id) partials work seed x =
        (t.elements.toList.foldrM (fun el s => Sweep.adjoint (.numeric : Arithmetic K K Id) partials seed s el)
          ⟨work, Block.filled outs Number.zero, partials.size⟩ : Id (Sweep K)) := by
    rw [adjointSweep, hclear hx, pure_bind, Array.foldrM_toList]
  rw [hrun hs, hrun hs']
  refine ⟨rfl, ?_⟩
  generalize t.elements.toList = els
  induction els with
  | nil => exact Block.sizes_filled _ _
  | cons el els ih =>
    rw [List.foldrM_cons]
    exact (Sweep.adjoint_sizes _ el).trans ih

omit [Number K] in
/-- Two loops without faults over the numbers below `n`. -/
theorem foldlM_range_beside {β : Type} {step : β → Nat → Id β} {R : Nat → β → β → Prop} {n : Nat}
    (hstep : ∀ k, k < n → ∀ s s', R k s s' → R (k+1) (Id.run (step s k)) (Id.run (step s' k))) {s s' : β}
    (h : R 0 s s') :
    R n (Id.run ((List.range n).foldlM step s)) (Id.run ((List.range n).foldlM step s')) := by
  induction n with
  | zero => exact h
  | succ n ih =>
    rw [List.range_succ, List.foldlM_append, List.foldlM_append]
    exact hstep n (Nat.lt_succ_self n) _ _ (ih fun k hk => hstep k (Nat.lt_succ_of_lt hk))

/-- Two replays after the pass and the sweeps of the first `nf` and `na` directions. -/
structure Replay.Swept (ins outs : Array Nat) (f a nf na : Nat) (r r' : Replay K) : Prop where
  work : r'.work = r.work
  partials : r'.partials = r.partials
  shaped : r.buffers.Shaped ins outs
  shaped' : r'.buffers.Shaped ins outs
  alike : r.buffers.Alike f a r'.buffers
  output : r'.buffers.output = r.buffers.output
  forwardSens : Agree nf r.buffers.forwardSens r'.buffers.forwardSens
  adjointSens : Agree na r.buffers.adjointSens r'.buffers.adjointSens

theorem forwardSweeps_beside {t : Tape K} {ins : Array Nat} (hcovers : t.Covers outs) {f a na : Nat}
    {r r' : Replay K} (hslots : ∀ el ∈ t.elements, el.op = .output → el.left < r.work.size)
    (h : Replay.Swept ins outs f a 0 na r r') :
    Replay.Swept ins outs f a f na (Id.run (t.forwardSweeps .numeric f r))
      (Id.run (t.forwardSweeps .numeric f r')) := by
  refine (foldlM_range_beside (R := fun k s s' => s.work.size = r.work.size ∧
    Replay.Swept ins outs f a k na s s') (fun d hd s s' ⟨hsize, hs⟩ => ?_) ⟨rfl, h⟩).2
  obtain ⟨work, partials, c⟩ := s
  obtain ⟨work', partials', c'⟩ := s'
  obtain rfl : work' = work := hs.work
  obtain rfl : partials' = partials := hs.partials
  have hshaped : c.Shaped ins outs := hs.shaped
  have hshaped' : c'.Shaped ins outs := hs.shaped'
  have halike : c.Alike f a c' := hs.alike
  have hsens : Agree d c.forwardSens c'.forwardSens := hs.forwardSens
  have hlt : d < c.forwardSens.size := by
    rw [hshaped.forward]
    exact Nat.lt_of_lt_of_le hd halike.forwardSeed.left
  have hlt' : d < c'.forwardSens.size := by
    rw [hshaped'.forward]
    exact Nat.lt_of_lt_of_le hd halike.forwardSeed.right
  have hseed : c'.forwardSeed.getD d #[] = c.forwardSeed.getD d #[] := halike.forwardSeed.getD hd #[]
  obtain ⟨heq, hsizes, hwork⟩ := forwardSweep_beside partials' (c.forwardSeed.getD d #[]) hcovers
    (fun el hel hop => hsize ▸ hslots el hel hop) (Buffers.sizes_getD hshaped.forwardSens hlt) (Buffers.sizes_getD hshaped'.forwardSens hlt')
  rw [← hseed] at heq
  dsimp only [Id.run, bind, pure]
  rw [heq, hseed]
  exact ⟨hwork.trans hsize, rfl, rfl, hshaped.setForwardSens d hsizes, hshaped'.setForwardSens d hsizes,
    ⟨halike.input, halike.forwardSeed, halike.adjointSeed⟩, hs.output, hsens.set hlt hlt' _, hs.adjointSens⟩

theorem adjointSweeps_beside (t : Tape K) {ins : Array Nat} {f a nf : Nat} {r r' : Replay K}
    (h : Replay.Swept ins outs f a nf 0 r r') :
    Replay.Swept ins outs f a nf a (Id.run (t.adjointSweeps .numeric a r))
      (Id.run (t.adjointSweeps .numeric a r')) := by
  unfold adjointSweeps
  by_cases ha : a = 0
  · subst ha
    exact h
  rw [if_neg ha, if_neg ha]
  obtain ⟨work, partials, c⟩ := r
  obtain ⟨work', partials', c'⟩ := r'
  obtain rfl : work' = work := h.work
  obtain rfl : partials' = partials := h.partials
  refine foldlM_range_beside (R := fun k s s' => Replay.Swept ins outs f a nf k s s')
    (fun d hd s s' hs => ?_) ⟨rfl, rfl, h.shaped, h.shaped', h.alike, h.output, h.forwardSens, h.adjointSens⟩
  obtain ⟨work, partials, c⟩ := s
  obtain ⟨work', partials', c'⟩ := s'
  obtain rfl : work' = work := hs.work
  obtain rfl : partials' = partials := hs.partials
  have hshaped : c.Shaped ins outs := hs.shaped
  have hshaped' : c'.Shaped ins outs := hs.shaped'
  have halike : c.Alike f a c' := hs.alike
  have hsens : Agree d c.adjointSens c'.adjointSens := hs.adjointSens
  have hlt : d < c.adjointSens.size := by
    rw [hshaped.adjoint]
    exact Nat.lt_of_lt_of_le hd halike.adjointSeed.left
  have hlt' : d < c'.adjointSens.size := by
    rw [hshaped'.adjoint]
    exact Nat.lt_of_lt_of_le hd halike.adjointSeed.right
  have hseed : c'.adjointSeed.getD d #[] = c.adjointSeed.getD d #[] := halike.adjointSeed.getD hd #[]
  obtain ⟨heq, hsizes⟩ := adjointSweep_beside partials' (c.adjointSeed.getD d #[]) t work'
    (Buffers.sizes_getD hshaped.adjointSens hlt) (Buffers.sizes_getD hshaped'.adjointSens hlt')
  rw [← hseed] at heq
  dsimp only [Id.run, bind, pure] at hsizes ⊢
  rw [heq, hseed]
  exact ⟨rfl, rfl, hshaped.setAdjointSens d hsizes, hshaped'.setAdjointSens d hsizes,
    ⟨halike.input, halike.forwardSeed, halike.adjointSeed⟩, hs.output, hs.forwardSens, hsens.set hlt hlt' _⟩

end Sweeps

section Evaluate

variable [Number K] {ins outs : Array Nat} {b b' : Buffers K} {f a : Nat}

/-- Replays over buffers that are alike stop with the same fault, or settle the buffers. -/
theorem evaluate_beside {t : Tape K} (hcovers : t.Covers outs) (hb : b.Shaped ins outs)
    (hb' : b'.Shaped ins outs) (h : b.Alike f a b') :
    Ends outs b b' (fun c c' => c.Shaped ins outs ∧ c'.Shaped ins outs ∧ c.Settled f a c')
      (t.evaluate .numeric b f a).run (t.evaluate .numeric b' f a).run := by
  refine (forwardPass_beside t _ h.input hb.output hb'.output).bind fun r r' hr => ?_
  have hshaped {c c₀ : Buffers K} (hc₀ : c₀.Shaped ins outs) (hc : c = {c₀ with output := c.output})
      (hsizes : c.output.sizes = outs) : c.Shaped ins outs := by
    rw [hc]
    exact hc₀.withOutput hsizes
  have hswept : Replay.Swept ins outs f a 0 0 r r' := by
    refine ⟨hr.work, hr.partials, hshaped hb hr.left hr.sizes, hshaped hb' hr.right hr.sizes', ?_, ?_, .zero _ _,
      .zero _ _⟩
    · rw [hr.left, hr.right]
      exact ⟨h.input, h.forwardSeed, h.adjointSeed⟩
    · exact hcovers.eq hr.sizes hr.sizes' fun el hel => hr.stored el (Array.mem_toList_iff.mpr hel)
  have hforward := forwardSweeps_beside hcovers
    (fun el hel hop => hr.slots el (Array.mem_toList_iff.mpr hel) hop) hswept
  have hadjoint := adjointSweeps_beside t hforward
  exact ⟨hadjoint.shaped, hadjoint.shaped', hadjoint.alike, hadjoint.output, hadjoint.forwardSens,
    hadjoint.adjointSens⟩

end Evaluate

end Tape

end Fluxion
