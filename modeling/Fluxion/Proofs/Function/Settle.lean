import Fluxion.Proofs.Function.Compaction
import Fluxion.Proofs.Function.Fits
import Fluxion.Proofs.Tape.Inside

/-!
Evaluators side by side. From buffers that are alike in the inputs and the seeds of the directions asked for,
an evaluator comes to the same fault, or to the same outputs and sensitivities, whatever the buffers held
before.
-/
set_option autoImplicit false

namespace Fluxion

variable {K T α β : Type}

theorem Agree.extract {n : Nat} {s s' : Array T} (h : Agree n s s') : s'.extract 0 n = s.extract 0 n := by
  refine Array.ext_getElem? fun d => ?_
  rw [Array.getElem?_extract, Array.getElem?_extract, Nat.zero_add]
  have hl := h.left
  have hr := h.right
  by_cases hd : d < n
  · rw [if_pos (by omega), if_pos (by omega), h.get d hd]
  · rw [if_neg (by omega), if_neg (by omega)]

namespace Compaction

variable {isZero : T → Bool} {seeds seeds' bs bs' : Array (Block T)} {n : Nat}

/-- Of the seeds that are moved only the first `n` count. -/
theorem compact_agree (isZero : T → Bool) (h : Agree n seeds seeds') {k : Nat} (hk : k ≤ n) :
    (compact isZero seeds' k).2 = (compact isZero seeds k).2 ∧
      Agree n (compact isZero seeds k).1 (compact isZero seeds' k).1 := by
  induction k with
  | zero => exact ⟨rfl, h⟩
  | succ k ih =>
    obtain ⟨hsame, hagree⟩ := ih (by omega)
    have hcount := (compact_sizes isZero seeds k).2.2
    rw [compact_succ, compact_succ]
    generalize compact isZero seeds k = c at hsame hagree hcount ⊢
    generalize compact isZero seeds' k = c' at hsame hagree ⊢
    obtain ⟨s, map, count⟩ := c
    obtain ⟨s', map', count'⟩ := c'
    obtain ⟨rfl, rfl⟩ := Prod.mk.inj hsame
    dsimp only at hagree hcount ⊢
    rw [hagree.getD (by omega)]
    split
    · exact ⟨rfl, hagree⟩
    · have hl := hagree.left
      have hr := hagree.right
      refine ⟨rfl, by simpa using hl, by simpa using hr, fun d hd => ?_⟩
      have hswap : Equiv.swap count' k d < n := by
        rw [Equiv.swap_apply_def]
        split
        · omega
        · split <;> omega
      rw [getElem?_swapIfInBounds (by omega) (by omega), getElem?_swapIfInBounds (by omega) (by omega)]
      exact hagree.get _ hswap

/-- What was swept agrees after it is moved back. -/
theorem expand_agree (h : Agree n seeds seeds') (hs : bs.size = seeds.size) (hs' : bs'.size = seeds'.size)
    (hb : Agree (compact isZero seeds n).2.2 bs bs') {d : Nat} (hd : d < n) (hne : ¬Blank isZero seeds d) :
    ((compact isZero seeds' n).2.1.expand bs')[d]? = ((compact isZero seeds n).2.1.expand bs)[d]? := by
  induction n generalizing bs bs' with
  | zero => omega
  | succ n ih =>
    have hl := h.left
    have hr := h.right
    have hbefore := h.mono (Nat.le_succ n)
    obtain ⟨hsame, hagree⟩ := compact_agree isZero hbefore (Nat.le_refl n)
    obtain ⟨source, hm⟩ := compact_moved isZero seeds (n := n) (by omega)
    obtain ⟨source', hm'⟩ := compact_moved isZero seeds' (n := n) (by omega)
    have hsizes := compact_sizes isZero seeds n
    have hlast : ((compact isZero seeds n).1.getD n #[]).all (·.all isZero) = true ↔ Blank isZero seeds n := by
      rw [Blank, hm.getD_next hsizes.1 (expand_compact isZero seeds (by omega))]
    have hlast' : ((compact isZero seeds' n).1.getD n #[]).all (·.all isZero) = true ↔ Blank isZero seeds n := by
      rw [hm'.getD_next (compact_sizes isZero seeds' n).1 (expand_compact isZero seeds' (by omega)), Blank,
        h.getD (Nat.lt_succ_self n)]
    rw [compact_succ] at hb ⊢
    rw [compact_succ]
    replace ih := @ih
    generalize compact isZero seeds n = c at hb hsame hagree hsizes hlast hm ih ⊢
    generalize compact isZero seeds' n = c' at hsame hagree hlast' hm' ih ⊢
    obtain ⟨s, map, count⟩ := c
    obtain ⟨s', map', count'⟩ := c'
    obtain ⟨rfl, rfl⟩ := Prod.mk.inj hsame
    obtain ⟨-, hmap, hcount⟩ := hsizes
    dsimp only at hb hlast hlast' hm hm' hmap hcount ih ⊢
    by_cases hblank : Blank isZero seeds n
    · rw [if_pos (hlast.mpr hblank)] at hb
      rw [if_pos (hlast.mpr hblank), if_pos (hlast'.mpr hblank)]
      dsimp only
      rw [expand_push_none, expand_push_none]
      exact ih hbefore hs hs' hb (Nat.lt_of_le_of_ne (Nat.le_of_lt_succ hd) fun e => hne (e ▸ hblank))
    · rw [if_neg (hlast.not.mpr hblank)] at hb
      rw [if_neg (hlast.not.mpr hblank), if_neg (hlast'.not.mpr hblank)]
      dsimp only
      rw [expand_push_some, expand_push_some, hmap]
      have hget {b : Array (Block T)} (hb : n < b.size) (d : Nat) :
          (b.swapIfInBounds count' n)[d]? = b[Equiv.swap count' n d]? :=
        getElem?_swapIfInBounds (by omega) (by omega) d
      rcases Nat.eq_or_lt_of_le (Nat.le_of_lt_succ hd) with rfl | hlt
      · rw [hm'.expand _ (by simpa using hs'), hm.expand _ (by simpa using hs), hm.rest d (Nat.le_refl d),
          hm'.rest d (Nat.le_refl d), hget (by omega), hget (by omega), Equiv.swap_apply_right]
        exact hb.get count' (by dsimp only; omega)
      · refine ih hbefore (by simpa using hs) (by simpa using hs') ?_ hlt
        refine ⟨by simp; omega, by simp; omega, fun e he => ?_⟩
        rw [hget (by omega), hget (by omega), Equiv.swap_apply_of_ne_of_ne (by omega) (by omega)]
        exact hb.get e (by dsimp only; omega)

/-- Directions that were skipped are cleared, so all of them agree. -/
theorem clear_agree (isZero : T → Bool) (zero : T) (ns : Array Nat) (h : Agree n seeds seeds')
    (bs bs' : Array (Block T)) (hs : bs.size = seeds.size) (hs' : bs'.size = seeds'.size)
    (hb : Agree (compact isZero seeds n).2.2 bs bs') (hsizes : ∀ x ∈ bs, x.sizes = ns)
    (hsizes' : ∀ x ∈ bs', x.sizes = ns) :
    Agree n ((compact isZero seeds n).2.1.clear zero ((compact isZero seeds n).2.1.expand bs))
      ((compact isZero seeds' n).2.1.clear zero ((compact isZero seeds' n).2.1.expand bs')) := by
  have hl := h.left
  have hr := h.right
  obtain ⟨source, hm⟩ := compact_moved isZero seeds h.left
  have hsame := (compact_agree isZero h (Nat.le_refl n)).1
  refine ⟨?_, ?_, fun d hd => ?_⟩
  · rw [size_clear, size_expand, hs]
    exact hl
  · rw [size_clear, size_expand, hs']
    exact hr
  rw [getElem?_clear, getElem?_clear, hsame]
  by_cases hblank : Blank isZero seeds d
  · rw [if_pos ((hm.skipped d).mpr ⟨hd, hblank⟩), if_pos ((hm.skipped d).mpr ⟨hd, hblank⟩)]
    have hcleared {map : Compaction} {c : Array (Block T)} (hc : ∀ x ∈ c, x.sizes = ns) (hd : d < c.size) :
        (map.expand c)[d]?.map (·.map (·.map fun _ => zero)) = some (Block.filled ns zero) := by
      have hlt : d < (map.expand c).size := by rwa [size_expand]
      rw [Array.getElem?_eq_getElem hlt, Option.map_some, Block.clear_eq, hc _ (mem_expand (Array.getElem_mem hlt))]
    rw [hcleared hsizes (by omega), hcleared hsizes' (by omega)]
  · have hkeep : (compact isZero seeds n).2.1[d]? ≠ some none := fun hb => hblank ((hm.skipped d).mp hb).2
    rw [if_neg hkeep, if_neg hkeep, ← expand_agree h hs hs' hb hd hblank, hsame]

end Compaction

namespace Buffers

variable [Number K] {ins outs : Array Nat} {b b' c c' : Buffers K} {f a : Nat}

theorem Alike.inFront_eq (h : b.Alike f a b') : b'.inFront f a = b.inFront f a := by
  rw [inFront, inFront, (Compaction.compact_agree _ h.forwardSeed (Nat.le_refl f)).1,
    (Compaction.compact_agree _ h.adjointSeed (Nat.le_refl a)).1]

/-- The seeds in front are the same. -/
theorem Alike.packed (h : b.Alike f a b') :
    (b.packed f a).Alike (b.inFront f a).1 (b.inFront f a).2 (b'.packed f a) where
  input := h.input
  forwardSeed := (Compaction.compact_agree _ h.forwardSeed (Nat.le_refl f)).2.mono (Compaction.compact_sizes _ _ _).2.2
  adjointSeed := (Compaction.compact_agree _ h.adjointSeed (Nat.le_refl a)).2.mono (Compaction.compact_sizes _ _ _).2.2

/-- Where the directions in front agree, all do once they are back in their places. -/
theorem Alike.settled_unpacked (h : b.Alike f a b') (hc : c.Shaped ins outs) (hc' : c'.Shaped ins outs)
    (hs : c.forwardSeed = (b.packed f a).forwardSeed ∧ c.adjointSeed = (b.packed f a).adjointSeed)
    (hs' : c'.forwardSeed = (b'.packed f a).forwardSeed ∧ c'.adjointSeed = (b'.packed f a).adjointSeed)
    (hsettled : c.Settled (b.inFront f a).1 (b.inFront f a).2 c') :
    (b.unpacked f a c).Settled f a (b'.unpacked f a c') := by
  refine ⟨⟨hsettled.input, ?_, ?_⟩, hsettled.output, ?_, ?_⟩
  · rw [unpacked, unpacked, hs.1, hs'.1]
    dsimp only [Buffers.packed]
    rw [Compaction.expand_compact _ _ h.forwardSeed.left, Compaction.expand_compact _ _ h.forwardSeed.right]
    exact h.forwardSeed
  · rw [unpacked, unpacked, hs.2, hs'.2]
    dsimp only [Buffers.packed]
    rw [Compaction.expand_compact _ _ h.adjointSeed.left, Compaction.expand_compact _ _ h.adjointSeed.right]
    exact h.adjointSeed
  · refine Compaction.clear_agree _ _ outs h.forwardSeed _ _ ?_ ?_ hsettled.forwardSens hc.forwardSens hc'.forwardSens
    · rw [hc.forward, hs.1]
      exact (Compaction.compact_sizes _ _ _).1
    · rw [hc'.forward, hs'.1]
      exact (Compaction.compact_sizes _ _ _).1
  · refine Compaction.clear_agree _ _ ins h.adjointSeed _ _ ?_ ?_ hsettled.adjointSens hc.adjointSens hc'.adjointSens
    · rw [hc.adjoint, hs.2]
      exact (Compaction.compact_sizes _ _ _).1
    · rw [hc'.adjoint, hs'.2]
      exact (Compaction.compact_sizes _ _ _).1

end Buffers

open Run

variable {W E : Prop} {d : Definition K} {low high : Nat × Nat} {f a : Nat}

namespace Evaluate

variable [Number K]

/-! ### Tapes -/

/-- What a tape has to be for its function: it stores all outputs and, unless `W`, its places are there. -/
structure Fitting (W : Prop) (sig : Signature K) (t : Tape K) : Prop where
  covers : t.Covers sig.outputSizes
  tame : W ∨ (t.free = #[] → t.Inside) ∧ t.inputSizes = sig.inputSizes ∧ t.outputSizes = sig.outputSizes

variable {t : Tape K} {b c : Buffers K}

theorem tame_tape (ht : Fitting W d.sig t) (hfree : t.free = #[]) (hb : b.Shaped d.sig.inputSizes d.sig.outputSizes)
    {s : Tape.Stopped K} (hs : (t.evaluate .numeric b f a).run = .error s) : Tame W s.fault := by
  refine ht.tame.imp_right fun ⟨hinside, hin, hout⟩ => ?_
  have hgoes := (hinside hfree).evaluate (hb.input.trans hin.symm) (hb.output.trans hout.symm) f a
  rw [hs] at hgoes
  exact hgoes

/-- An evaluation leaves as many directions as there were. -/
theorem recast_evaluated (hc : c.Shaped d.sig.inputSizes d.sig.outputSizes)
    (hrun : (t.evaluate .numeric b f a).run = .ok c) : b.Recast d.sig c := by
  have hleaves := Tape.leaves_evaluate (A := .numeric) t b f a
  rw [Tape.Leaves, hrun] at hleaves
  exact ⟨hc, congrArg Array.size hleaves.forwardSeed, congrArg Array.size hleaves.adjointSeed⟩

omit [Number K] in
/-- One that stops has written outputs at most. -/
theorem recast_stopped (hb : b.Shaped d.sig.inputSizes d.sig.outputSizes) (hc : c = {b with output := c.output})
    (hsize : c.output.sizes = d.sig.outputSizes) : b.Recast d.sig c := by
  rw [hc]
  exact ⟨hb.withOutput hsize, rfl, rfl⟩

theorem beside_tape (ht : Fitting W d.sig t) (f a : Nat) :
    Beside W (Joint E d low high) (onBuffers (Buffers.Alike f a)) (tape d.sig t f a) (tape d.sig t f a)
      fun _ _ => onBuffers (Buffers.Settled f a) := by
  rw [tape]
  refine .ite (fun _ => .throw_bind (.inr fun c hc => by cases hc)) fun hfree =>
    .reading fun b b' hb hb' he halike => ?_
  have hends := Tape.evaluate_beside ht.covers hb.shaped hb'.shaped halike
  have hsame (e : E) : t.evaluate .numeric b' f a = t.evaluate .numeric b f a := by rw [he e]
  cases hr : (t.evaluate .numeric b f a).run <;> cases hr' : (t.evaluate .numeric b' f a).run <;> rw [hr, hr'] at hends
  case ok.ok c c' =>
    obtain ⟨hc, hc', hsettled⟩ := hends
    refine .recast ?_
    rintro _ _ - - - ⟨rfl, rfl⟩
    refine ⟨recast_evaluated hc hr, recast_evaluated hc' hr', fun e => ?_, hsettled⟩
    rw [hsame e, hr] at hr'
    exact (Except.ok.inj hr').symm
  case error.error s s' =>
    obtain ⟨hfault, ⟨hs, hsize⟩, hs', hsize'⟩ := hends
    dsimp only
    rw [hfault]
    refine Beside.next (R := onBuffers fun _ _ => True) (.recast ?_) fun _ _ =>
      .throw (tame_tape ht (by simpa using hfree) hb.shaped hr)
    rintro _ _ - - - ⟨rfl, rfl⟩
    refine ⟨recast_stopped hb.shaped hs hsize, recast_stopped hb'.shaped hs' hsize', fun e => ?_, trivial⟩
    rw [hsame e, hr] at hr'
    exact (congrArg Tape.Stopped.buffers (Except.error.inj hr')).symm
  case ok.error | error.ok => exact hends.elim

/-! ### What every evaluation does -/

theorem recast_packed (hb : b.Shaped d.sig.inputSizes d.sig.outputSizes) (f a : Nat) :
    b.Recast d.sig (b.packed f a) :=
  ⟨hb.packed f a, (Compaction.compact_sizes _ _ _).1, (Compaction.compact_sizes _ _ _).1⟩

theorem recast_unpacked (hc : c.Shaped d.sig.inputSizes d.sig.outputSizes) (b : Buffers K)
    (f a : Nat) : c.Recast d.sig (b.unpacked f a c) :=
  ⟨hc.unpacked b f a, Compaction.size_expand _ _, Compaction.size_expand _ _⟩

section Around

variable {dispatch : Nat → Nat → Run K Unit}
  (hd : ∀ f a, Beside W (Joint E d low high) (onBuffers (Buffers.Alike f a)) (dispatch f a) (dispatch f a)
    fun _ _ => onBuffers (Buffers.Settled f a))
  (hk : ∀ g f a, Keeps (Frame.Undisturbed g) (dispatch f a))
include hd hk

theorem beside_compressed (f a : Nat) :
    Beside W (Joint E d low high) (onBuffers (Buffers.Alike f a)) (compressed dispatch f a)
      (compressed dispatch f a) fun n n' m m' => n' = n ∧ onBuffers (Buffers.Settled f a) m m' := by
  rw [compressed_eq]
  refine .reading fun b b' hb hb' he halike => ?_
  rw [halike.inFront_eq]
  have hkeep (c : Buffers K) : Keeps (fun g => g.buffers.forwardSeed = c.forwardSeed ∧
      g.buffers.adjointSeed = c.adjointSeed) (dispatch (b.inFront f a).1 (b.inFront f a).2) := by
    rintro m ⟨hf, ha⟩
    have hleft := (hk m.frame (b.inFront f a).1 (b.inFront f a).2 m (.refl _)).buffers
    exact ⟨hleft.forwardSeed.trans hf, hleft.adjointSeed.trans ha⟩
  refine Beside.next (R := onBuffers fun c c' => c = b.packed f a ∧ c' = b'.packed f a) (.recast ?_) fun _ _ => ?_
  · rintro _ _ - - - ⟨rfl, rfl⟩
    exact ⟨recast_packed hb.shaped f a, recast_packed hb'.shaped f a, fun e => by rw [he e], rfl, rfl⟩
  have hinner := ((hd (b.inFront f a).1 (b.inFront f a).2).before (R := onBuffers fun c c' =>
    c = b.packed f a ∧ c' = b'.packed f a) fun m m' _ h => ?_).keeps (hkeep (b.packed f a)) (hkeep (b'.packed f a))
    fun m m' h => ?_
  · refine hinner.outcome.bind (.observed (fun _ _ => ?_) fun e he => ?_)
    · refine Beside.next (R := onBuffers (Buffers.Settled f a)) ((Beside.recast (R := fun c c' =>
        c.Settled (b.inFront f a).1 (b.inFront f a).2 c' ∧
          (c.forwardSeed = (b.packed f a).forwardSeed ∧ c.adjointSeed = (b.packed f a).adjointSeed) ∧
          c'.forwardSeed = (b'.packed f a).forwardSeed ∧ c'.adjointSeed = (b'.packed f a).adjointSeed)
        ?_).before fun _ _ _ h => h) fun _ _ => .pure fun _ _ _ h => ⟨rfl, h⟩
      rintro c c' hc hc' hsame ⟨hsettled, hs, hs'⟩
      exact ⟨recast_unpacked hc b f a, recast_unpacked hc' b' f a, fun e => by rw [hsame e, he e],
        halike.settled_unpacked hc hc' hs hs' hsettled⟩
    · refine Beside.next (R := onBuffers fun _ _ => True) ((Beside.recast (R := fun _ _ => True)
        fun c c' hc hc' hsame _ => ?_).before fun _ _ _ _ => trivial) fun _ _ => .throw (.inr he)
      exact ⟨recast_unpacked hc b f a, recast_unpacked hc' b' f a, fun e => by rw [hsame e, ‹E → b' = b› e], trivial⟩
  · rw [onBuffers, h.1, h.2]
    exact halike.packed
  · rw [h.1, h.2]
    exact ⟨⟨rfl, rfl⟩, rfl, rfl⟩

theorem beside_sweeping (sig : Signature K) (f a : Nat) :
    Beside W (Joint E d low high) (onBuffers (Buffers.Alike f a)) (sweeping sig dispatch f a)
      (sweeping sig dispatch f a) fun n n' m m' => n' = n ∧ onBuffers (Buffers.Settled f a) m m' :=
  .ite (fun _ => beside_compressed hd hk f a) fun _ => (hd f a).next fun _ _ => .pure fun _ _ _ h => ⟨rfl, h⟩

omit hd hk in
/-- A report tells of what the buffers agree in. -/
theorem beside_regularity (sig : Signature K) (f a : Nat) :
    Beside W (Joint E d low high) (onBuffers (Buffers.Settled f a)) (regularity sig f a) (regularity sig f a)
      fun r r' m m' => r' = r ∧ onBuffers (Buffers.Settled f a) m m' := by
  refine .reading fun b b' _ _ _ h => ?_
  have hsame : irregular b' f a = irregular b f a := by
    simp only [irregular, h.output, h.forwardSens.extract, h.adjointSens.extract]
  dsimp only
  rw [hsame]
  have hkept : ∀ m m', onBuffers (fun c c' => c = b ∧ c' = b') m m' → onBuffers (Buffers.Settled f a) m m' := by
    rintro m m' ⟨hm, hm'⟩
    rw [onBuffers, hm, hm']
    exact h
  refine .ite (fun _ => .pure fun m m' _ h => ⟨rfl, hkept m m' h⟩) fun _ => .ite (fun _ => .throw ?_) fun _ =>
    (Beside.journal _).next fun _ _ => .pure fun m m' _ h => ⟨rfl, hkept m m' h⟩
  exact .inr fun c hc => by cases hc

theorem beside_around (f a : Nat) :
    Beside W (Joint E d low high) (onBuffers (Buffers.Alike f a)) (around d.sig dispatch f a)
      (around d.sig dispatch f a) fun r r' m m' => r' = r ∧ onBuffers (Buffers.Settled f a) m m' := by
  rw [around_eq]
  refine .reading fun b b' _ _ _ h => ?_
  have hfl : f ≤ b.forward := h.forwardSeed.left
  have hfr : f ≤ b'.forward := h.forwardSeed.right
  have hal : a ≤ b.adjoint := h.adjointSeed.left
  have har : a ≤ b'.adjoint := h.adjointSeed.right
  rw [if_neg (Nat.not_lt.mpr hfl), if_neg (Nat.not_lt.mpr hfr)]
  dsimp only
  rw [if_neg (Nat.not_lt.mpr hal), if_neg (Nat.not_lt.mpr har)]
  refine Beside.bind (R := fun n n' m m' => n' = n ∧ onBuffers (Buffers.Settled f a) m m')
    ((beside_sweeping hd hk d.sig f a).before fun m m' _ hm => ?_) fun n n' => .assume (fun _ _ _ h => h.1) fun hn => ?_
  · rw [onBuffers, hm.1, hm.2]
    exact h
  · rw [hn]
    refine Beside.next (R := onBuffers (Buffers.Settled f a)) (.modify fun m m' hg h => ⟨?_, h.2⟩) fun _ _ =>
      beside_regularity d.sig f a
    exact ⟨⟨hg.left.frame, hg.left.inner⟩, ⟨hg.right.frame, hg.right.inner⟩, fun e => by rw [hg.same e]⟩

omit hd in
/-- However it ends, an evaluation neither makes directions nor drops any. -/
theorem keeps_directions (sig : Signature K) (n : Nat × Nat) (f a : Nat) :
    Keeps (fun g => g.buffers.directions = n) (around sig dispatch f a) := by
  have hdispatch (f a : Nat) : Keeps (fun g => g.buffers.directions = n) (dispatch f a) := by
    intro m hm
    have hleft := (hk m.frame f a m (.refl _)).buffers
    rw [← hm]
    exact Prod.ext (congrArg Array.size hleft.forwardSeed) (congrArg Array.size hleft.adjointSeed)
  rw [around_eq]
  refine keeps_buffers.bind fun b => keeps_when (keeps_throw _) (keeps_when (keeps_throw _) ?_)
  refine Keeps.bind ?_ fun n => Keeps.bind (fun m hm => hm) fun _ => keeps_regularity sig f a
  rw [sweeping]
  split
  · intro m hm
    rw [compressed, run_bind_ok (run_buffers m)]
    dsimp only
    rw [run_bind_ok (run_modifyBuffers _ m)]
    refine (hdispatch _ _).outcome.bind (fun r => (keeps_modifyBuffers fun g hg => ?_).bind fun _ => ?_) _ ?_
    · rw [← hg]
      exact Prod.ext (Compaction.size_expand _ _) (Compaction.size_expand _ _)
    · split
      · exact keeps_pure _
      · exact keeps_throw _
    · rw [← hm]
      exact Prod.ext (Compaction.compact_sizes _ _ _).1 (Compaction.compact_sizes _ _ _).1
  · exact (hdispatch f a).bind fun _ => keeps_pure _

end Around

end Evaluate

end Fluxion
