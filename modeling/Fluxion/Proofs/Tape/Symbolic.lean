import Fluxion.Proofs.Tape.Map
import Fluxion.Proofs.Tape.Sensitivities

/-!
Symbolic replays. A replay over expressions follows the numeric replay over the values of these expressions,
element by element: what it makes has the values that the numeric one computes. Only a zero may be skipped by
one of them and added by the other.
-/
set_option autoImplicit false

namespace Fluxion

variable {K R T U : Type}

/-- The entries, each put through `f`. -/
def Block.image (f : T → U) (b : Block T) : Block U := Array.map (·.map f) b

theorem Block.get?_image (f : T → U) (b : Block T) (i k : Nat) :
    (b.image f).get? i k = (b.get? i k).map f := by
  cases hi : b[i]? with
  | none => simp [Block.image, Block.get?, hi]
  | some v => simp [Block.image, Block.get?, hi]

theorem Block.image_set (f : T → U) (b : Block T) (i k : Nat) (x : T) :
    (b.set i k x).image f = (b.image f).set i k (f x) := by
  refine Array.ext_getElem? fun j => ?_
  simp only [Block.image, Block.set, Array.getElem?_map, Array.getElem?_modify]
  split
  · simp [Option.map_map, Function.comp_def, Array.map_setIfInBounds]
  · rfl

@[simp] theorem Block.sizes_image (f : T → U) (b : Block T) : (b.image f).sizes = b.sizes := by
  simp [Block.image, Block.sizes, Function.comp_def]

def Buffers.image (f : T → U) (b : Buffers T) : Buffers U where
  input := b.input.image f
  output := b.output.image f
  forwardSeed := b.forwardSeed.map (.image f)
  forwardSens := b.forwardSens.map (.image f)
  adjointSeed := b.adjointSeed.map (.image f)
  adjointSens := b.adjointSens.map (.image f)

namespace Tape

def Replay.image (f : T → U) (s : Replay T) : Replay U :=
  ⟨s.work.map f, s.partials.map (Prod.map f f), s.buffers.image f⟩

def Sweep.image (f : T → U) (s : Sweep T) : Sweep U := ⟨s.work.map f, s.sens.image f, s.next⟩

end Tape

/-- All entries are there. -/
def Block.Held (roots : List (Expr K)) (b : Block (Expr K)) : Prop :=
  ∀ v ∈ b, ∀ x ∈ v, Expr.ReachedFrom roots x

/-- All expressions in the buffers are there. -/
structure Buffers.Held (roots : List (Expr K)) (b : Buffers (Expr K)) : Prop where
  input : b.input.Held roots
  output : b.output.Held roots
  forwardSeed : ∀ x ∈ b.forwardSeed, x.Held roots
  forwardSens : ∀ x ∈ b.forwardSens, x.Held roots
  adjointSeed : ∀ x ∈ b.adjointSeed, x.Held roots
  adjointSens : ∀ x ∈ b.adjointSens, x.Held roots

namespace Block

variable {roots roots' : List (Expr K)} {b : Block (Expr K)}

theorem Held.subset (h : b.Held roots) (hr : roots ⊆ roots') : b.Held roots' :=
  fun v hv x hx => (h v hv x hx).subset hr

theorem Held.get? (h : b.Held roots) {i k : Nat} {x : Expr K} (hx : b.get? i k = some x) :
    Expr.ReachedFrom roots x := by
  obtain ⟨v, hv, hk⟩ := Option.bind_eq_some_iff.mp hx
  exact h v (Array.mem_of_getElem? hv) x (Array.mem_of_getElem? hk)

theorem Held.set (h : b.Held roots) {x : Expr K} (hx : Expr.ReachedFrom roots x) (i k : Nat) :
    (b.set i k x).Held roots := by
  intro v hv y hy
  obtain ⟨j, hj⟩ := Array.mem_iff_getElem?.mp hv
  rw [Block.set, Array.getElem?_modify] at hj
  split at hj
  · obtain ⟨w, hw, rfl⟩ := Option.map_eq_some_iff.mp hj
    obtain hy | rfl := Array.mem_or_eq_of_mem_setIfInBounds hy
    · exact h w (Array.mem_of_getElem? hw) y hy
    · exact hx
  · exact h v (Array.mem_of_getElem? hj) y hy

end Block

namespace Tape

section Shape

variable {m : Type → Type} [Monad m] [Number K] (A : Arithmetic K T m)

theorem Sweep.forward_eq {el : Element K} (hop : el.op.isStructural = false)
    (partials : Array (T × T)) (seed : Block T) (s : Sweep T) :
    Sweep.forward A partials seed s el =
      match partials[s.next]?, s.work[el.left]?, s.work[el.right]? with
      | some (p, q), some x, some y => do
        let d ←
          if el.left = el.right then do A.mul (← A.add p q) x
          else do A.add (← A.mul p x) (← A.mul q y)
        return ⟨s.work.setIfInBounds el.result d, s.sens, s.next+1⟩
      | _, _, _ => return ⟨s.work, s.sens, s.next+1⟩ := by
  obtain ⟨op, result, left, right, v⟩ := el
  cases op
  case input | output | const | parameter => cases hop
  all_goals rfl

theorem Replay.step_eq {el : Element K} (hop : el.op.isStructural = false) (t : Tape K) (taping : Bool)
    (s : Replay T) : s.step A t taping el =
      match s.work[el.left]?, s.work[el.right]? with
      | some x, some y => do
        let r ← A.apply el.op x y
        if taping then
          match ← A.partials el.op x y r with
          | some p => return ⟨s.work.setIfInBounds el.result r, s.partials.push p, s.buffers⟩
          | none => s.stop (.missingDerivative el.op)
        else return s.write el.result r
      | _, _ => s.stop (.violation .slotOutside) := by
  obtain ⟨op, result, left, right, v⟩ := el
  cases op
  case input | output | const | parameter => cases hop
  all_goals rfl

theorem Sweep.adjoint_eq {el : Element K} (hop : el.op.isStructural = false)
    (partials : Array (T × T)) (seed : Block T) (s : Sweep T) :
    Sweep.adjoint A partials seed s el =
      match partials[s.next - 1]?, s.work[el.result]? with
      | some (p, q), some d => do
        let work := s.work.setIfInBounds el.result (← A.zero)
        if A.isZero d then return ⟨work, s.sens, s.next-1⟩
        else if el.left = el.right then
          let work ← accumulate A work el.left (do A.mul (← A.add p q) d)
          return ⟨work, s.sens, s.next-1⟩
        else
          let work ← accumulate A work el.left (A.mul p d)
          let work ← accumulate A work el.right (A.mul q d)
          return ⟨work, s.sens, s.next-1⟩
      | _, _ => return ⟨s.work, s.sens, s.next-1⟩ := by
  obtain ⟨op, result, left, right, v⟩ := el
  cases op
  case input | output | const | parameter => cases hop
  all_goals rfl

end Shape

/-- All expressions of a sweep are there. -/
structure Sweep.Held (roots : List (Expr K)) (s : Sweep (Expr K)) : Prop where
  work : ∀ x ∈ s.work, Expr.ReachedFrom roots x
  sens : s.sens.Held roots

/-- All derivatives that were recorded are there. -/
def Recorded (roots : List (Expr K)) (partials : Array (Expr K × Expr K)) : Prop :=
  ∀ p ∈ partials, Expr.ReachedFrom roots p.1 ∧ Expr.ReachedFrom roots p.2

section Sweeps

open Fluxion.Expr

variable [CommRing K] [Number K] [ExactRing K] [CommRing R] [Number R] [ExactRing R]
  {ok : Op → Prop} {symbols roots : List (Expr K)} {f : K →+* R} {ρ : Symbol → R}
  {partials : Array (Expr K × Expr K)} {seed : Block (Expr K)} {s : Sweep (Expr K)}

omit [CommRing K] [Number K] [ExactRing K] in
theorem held_setIfInBounds {work : Array (Expr K)} (h : ∀ x ∈ work, ReachedFrom roots x) {x : Expr K}
    (hx : ReachedFrom roots x) (i : Nat) : ∀ y ∈ work.setIfInBounds i x, ReachedFrom roots y := by
  intro y hy
  obtain hy | rfl := Array.mem_or_eq_of_mem_setIfInBounds hy
  · exact h y hy
  · exact hx

/-- A sweep that is there, with the values of a numeric one. -/
def Sweep.Mirrors (g : Expr K → R) (s' : Id (Sweep R)) (roots : List (Expr K)) (s : Sweep (Expr K)) : Prop :=
  s.Held roots ∧ s' = (pure (s.image g) : Id (Sweep R))

/-- The derivative of an operation, from those of its operands. -/
theorem yields_slope (hf : Reading ok f) {left right : Nat} {p q x y : Expr K} {α : Type}
    {next : Expr K → Fresh α} {Q : List (Expr K) → α → Prop} (hp : ReachedFrom roots p)
    (hq : ReachedFrom roots q) (hx : ReachedFrom roots x) (hy : ReachedFrom roots y)
    (hxy : left = right → x = y)
    (hnext : ∀ roots' d, roots ⊆ roots' →
      Denotes (meaning f ρ) (p.meaning f ρ * x.meaning f ρ + q.meaning f ρ * y.meaning f ρ) roots' d →
      Yields ok symbols roots' (next d) Q) :
    Yields ok symbols roots
      (if left = right then do
        let d ← Arithmetic.symbolic.mul (← (Arithmetic.symbolic : Arithmetic K _ _).add p q) x
        next d
      else do
        let d ← Arithmetic.symbolic.add (← (Arithmetic.symbolic : Arithmetic K _ _).mul p x)
          (← Arithmetic.symbolic.mul q y)
        next d) Q := by
  split
  · next h =>
    rw [← hxy h, ← add_mul] at hnext
    exact .bind (yields_add hf ⟨hp, rfl⟩ ⟨hq, rfl⟩) fun _ _ hr hsum =>
      .bind (yields_mul hf hsum ⟨hx.subset hr, rfl⟩) fun _ d hr' hd => hnext _ d (List.Subset.trans hr hr') hd
  · exact .bind (yields_mul hf ⟨hp, rfl⟩ ⟨hx, rfl⟩) fun _ _ hr hleft =>
      .bind (yields_mul hf ⟨hq.subset hr, rfl⟩ ⟨hy.subset hr, rfl⟩) fun _ _ hr' hright =>
        .bind (yields_add hf (hleft.subset hr') hright) fun _ d hr'' hd =>
          hnext _ d (List.Subset.trans hr (List.Subset.trans hr' hr'')) hd

theorem yields_forward_operation (hf : Reading ok f) (hp : Recorded roots partials)
    (hs : s.Held roots) {el : Element K} (hop : el.op.isStructural = false) :
    Yields ok symbols roots (Sweep.forward Arithmetic.symbolic partials seed s el)
      (Sweep.Mirrors (meaning f ρ) (Sweep.forward Arithmetic.numeric
        (partials.map (Prod.map (meaning f ρ) (meaning f ρ))) (seed.image (meaning f ρ))
        (s.image (meaning f ρ)) (el.map f))) := by
  obtain ⟨work, sens, next⟩ := s
  have hop' : (el.map f).op.isStructural = false := hop
  have hstay : (⟨work, sens, next+1⟩ : Sweep (Expr K)).Held roots := ⟨hs.work, hs.sens⟩
  rw [Sweep.forward_eq Arithmetic.symbolic hop]
  dsimp only
  cases hpq : partials[next]? with
  | none => exact .pure ⟨hstay, by simp [Sweep.forward_eq _ hop', Sweep.image, hpq]⟩
  | some pq =>
    cases hx : work[el.left]? with
    | none => exact .pure ⟨hstay, by simp [Sweep.forward_eq _ hop', Sweep.image, hpq, hx]⟩
    | some x =>
      cases hy : work[el.right]? with
      | none =>
        exact .pure ⟨hstay, by simp [Sweep.forward_eq _ hop', Sweep.image, hpq, hx, hy]⟩
      | some y =>
        have hheld := hp pq (Array.mem_of_getElem? hpq)
        refine yields_slope (ρ := ρ) hf hheld.1 hheld.2 (hs.work x (Array.mem_of_getElem? hx))
          (hs.work y (Array.mem_of_getElem? hy)) (fun h => Option.some.inj (by rw [← hx, ← hy, h]))
          fun roots' d hr hd => .pure ⟨⟨?_, hs.sens.subset hr⟩, ?_⟩
        · exact held_setIfInBounds (fun z hz => (hs.work z hz).subset hr) hd.1 _
        · rw [forward_operation hop' (d := Prod.map (meaning f ρ) (meaning f ρ) pq)
            (x := x.meaning f ρ) (y := y.meaning f ρ)]
          · simp [Sweep.image, Array.map_setIfInBounds, hd.2]
          all_goals simp [Sweep.image, hpq, hx, hy]

omit [ExactRing R] in
theorem yields_clear (hs : s.Held roots) (i : Nat) {Q : List (Expr K) → Sweep (Expr K) → Prop}
    (hq : ∀ roots' x, roots ⊆ roots' → x.meaning f ρ = 0 →
      (⟨s.work.setIfInBounds i x, s.sens, s.next⟩ : Sweep (Expr K)).Held roots' →
      Q roots' ⟨s.work.setIfInBounds i x, s.sens, s.next⟩) :
    Yields ok symbols roots (do
      let x ← (Arithmetic.symbolic : Arithmetic K _ _).zero
      return ⟨s.work.setIfInBounds i x, s.sens, s.next⟩) Q :=
  .bind (yields_zero f ρ) fun _ x hr hx => .pure (hq _ x hr hx.2
    ⟨held_setIfInBounds (fun z hz => (hs.work z hz).subset hr) hx.1 i, hs.sens.subset hr⟩)

theorem yields_forward (hf : Reading ok f) (hp : Recorded roots partials) (hseed : seed.Held roots)
    (hs : s.Held roots) (el : Element K) :
    Yields ok symbols roots (Sweep.forward Arithmetic.symbolic partials seed s el)
      (Sweep.Mirrors (meaning f ρ) (Sweep.forward Arithmetic.numeric
        (partials.map (Prod.map (meaning f ρ) (meaning f ρ))) (seed.image (meaning f ρ))
        (s.image (meaning f ρ)) (el.map f))) := by
  cases hop : el.op.isStructural with
  | false => exact yields_forward_operation hf hp hs hop
  | true =>
    obtain ⟨op, result, left, right, v⟩ := el
    cases op
    case input =>
      cases hx : seed.get? left right with
      | none =>
        simp only [Sweep.forward, hx]
        exact .pure ⟨hs, by simp [Element.map, Block.get?_image, hx, Sweep.image]⟩
      | some x =>
        simp only [Sweep.forward, hx]
        exact .pure ⟨⟨held_setIfInBounds hs.work (hseed.get? hx) _, hs.sens⟩, by
          simp [Element.map, Block.get?_image, hx, Sweep.image, Array.map_setIfInBounds]⟩
    case output =>
      cases hx : s.work[left]? with
      | none =>
        simp only [Sweep.forward, hx]
        exact .pure ⟨hs, by simp [Element.map, hx, Sweep.image]⟩
      | some x =>
        simp only [Sweep.forward, hx]
        exact .pure ⟨⟨hs.work, hs.sens.set (hs.work x (Array.mem_of_getElem? hx)) _ _⟩, by
          simp [Element.map, hx, Sweep.image, Block.image_set]⟩
    case const | parameter =>
      refine yields_clear (f := f) (ρ := ρ) hs result fun roots' x _ hx hheld => ⟨hheld, ?_⟩
      simp [Sweep.forward, Element.map, Arithmetic.numeric_zero, Sweep.image, Array.map_setIfInBounds, hx]
    all_goals cases hop

theorem yields_accumulate (hf : Reading ok f) {work : Array (Expr K)}
    (hw : ∀ x ∈ work, ReachedFrom roots x) {act : Fresh (Expr K)} {d : R} (slot : Nat)
    (hact : Yields ok symbols roots act (Denotes (meaning f ρ) d)) :
    Yields ok symbols roots (Sweep.accumulate Arithmetic.symbolic work slot act) fun roots' work' =>
      (∀ x ∈ work', ReachedFrom roots' x) ∧
        work'.map (meaning f ρ) = (work.map (meaning f ρ)).modify slot (· + d) := by
  cases hx : work[slot]? with
  | none =>
    simp only [Sweep.accumulate, hx]
    refine .pure ⟨hw, ?_⟩
    refine Array.ext_getElem? fun i => ?_
    rw [Array.getElem?_modify]
    split
    · next h => simp [← h, hx]
    · rfl
  | some x =>
    simp only [Sweep.accumulate, hx]
    have hheld := hw x (Array.mem_of_getElem? hx)
    refine .bind hact fun roots' y hr hy => .bind (yields_add hf ⟨hheld.subset hr, rfl⟩ hy)
      fun roots'' z hr' hz => .pure ⟨?_, ?_⟩
    · exact held_setIfInBounds (fun w h => ((hw w h).subset hr).subset hr') hz.1 _
    · refine Array.ext_getElem? fun i => ?_
      rw [Array.getElem?_modify, Array.getElem?_map, Array.getElem?_setIfInBounds]
      split
      · next h =>
        subst h
        obtain ⟨hlt, rfl⟩ := Array.getElem?_eq_some_iff.mp hx
        simp [hlt, hz.2]
      · simp

/-- What an operation passes on to the slots of its operands. Adding zero changes nothing, so the symbolic sweep may
skip an adjoint that is zero; it adds once where both operands are in one slot, the numeric sweep twice. -/
theorem yields_spread (hf : Reading ok f) {work : Array (Expr K)} (hw : ∀ x ∈ work, ReachedFrom roots x)
    {work' : Array R} (hwork : work.map (meaning f ρ) = work') {sens : Block (Expr K)} (hsens : sens.Held roots) {p q d : Expr K} (hp : ReachedFrom roots p)
    (hq : ReachedFrom roots q) (hd : ReachedFrom roots d) (left right next : Nat) :
    Yields ok symbols roots
      (if Arithmetic.symbolic.isZero d then return ⟨work, sens, next⟩
      else if left = right then do
        let work ← Sweep.accumulate Arithmetic.symbolic work left (do
          Arithmetic.symbolic.mul (← (Arithmetic.symbolic : Arithmetic K _ _).add p q) d)
        return ⟨work, sens, next⟩
      else do
        let work ← Sweep.accumulate Arithmetic.symbolic work left (Arithmetic.symbolic.mul p d)
        let work ← Sweep.accumulate Arithmetic.symbolic work right (Arithmetic.symbolic.mul q d)
        return ⟨work, sens, next⟩)
      (Sweep.Mirrors (meaning f ρ) (pure ⟨(work'.modify left (· + p.meaning f ρ * d.meaning f ρ)).modify right
        (· + q.meaning f ρ * d.meaning f ρ), sens.image (meaning f ρ), next⟩)) := by
  subst hwork
  split
  · next hzero =>
    have hd0 : d.meaning f ρ = 0 := meaning_of_isZero hzero
    refine .pure ⟨⟨hw, hsens⟩, ?_⟩
    simp only [hd0, mul_zero, modify_add_zero]
    rfl
  · split
    · next hsame =>
      have hact : Yields ok symbols roots (do
          Arithmetic.symbolic.mul (← (Arithmetic.symbolic : Arithmetic K _ _).add p q) d)
          (Denotes (meaning f ρ) ((p.meaning f ρ + q.meaning f ρ) * d.meaning f ρ)) :=
        .bind (yields_add hf ⟨hp, rfl⟩ ⟨hq, rfl⟩) fun _ _ hr hsum => yields_mul hf hsum ⟨hd.subset hr, rfl⟩
      refine .bind (yields_accumulate hf hw left hact) fun _ _ hr hsum => .pure ⟨⟨hsum.1, hsens.subset hr⟩, ?_⟩
      rw [← hsame, modify_add_add, ← add_mul, ← hsum.2]
      rfl
    · have hdd : Denotes (meaning f ρ) (d.meaning f ρ) roots d := ⟨hd, rfl⟩
      have hqd : Denotes (meaning f ρ) (q.meaning f ρ) roots q := ⟨hq, rfl⟩
      refine .bind (yields_accumulate hf hw left (yields_mul hf ⟨hp, rfl⟩ hdd)) fun _ _ hr hleft =>
        .bind (yields_accumulate hf hleft.1 right (yields_mul hf (hqd.subset hr) (hdd.subset hr)))
          fun _ _ hr' hright => .pure ⟨⟨hright.1, (hsens.subset hr).subset hr'⟩, ?_⟩
      rw [← hleft.2, ← hright.2]
      rfl

theorem yields_adjoint_operation (hf : Reading ok f) (hp : Recorded roots partials)
    (hs : s.Held roots) {el : Element K} (hop : el.op.isStructural = false) :
    Yields ok symbols roots (Sweep.adjoint Arithmetic.symbolic partials seed s el)
      (Sweep.Mirrors (meaning f ρ) (Sweep.adjoint Arithmetic.numeric
        (partials.map (Prod.map (meaning f ρ) (meaning f ρ))) (seed.image (meaning f ρ))
        (s.image (meaning f ρ)) (el.map f))) := by
  obtain ⟨work, sens, next⟩ := s
  have hop' : (el.map f).op.isStructural = false := hop
  have hstay : (⟨work, sens, next-1⟩ : Sweep (Expr K)).Held roots := ⟨hs.work, hs.sens⟩
  rw [Sweep.adjoint_eq Arithmetic.symbolic hop]
  dsimp only
  cases hpq : partials[next-1]? with
  | none => exact .pure ⟨hstay, by simp [Sweep.adjoint_eq _ hop', Sweep.image, hpq]⟩
  | some pq =>
    cases hd : work[el.result]? with
    | none => exact .pure ⟨hstay, by simp [Sweep.adjoint_eq _ hop', Sweep.image, hpq, hd]⟩
    | some d =>
      have hheld := hp pq (Array.mem_of_getElem? hpq)
      rw [adjoint_operation _ _ _ _ hop' (p := Prod.map (meaning f ρ) (meaning f ρ) pq) (d := d.meaning f ρ)
        (by simp [Sweep.image, hpq]) (by simp [Sweep.image, hd])]
      refine .bind (yields_zero f ρ) fun roots' z hr hz => ?_
      have hcleared : ∀ x ∈ work.setIfInBounds el.result z, ReachedFrom roots' x :=
        held_setIfInBounds (fun x hx => (hs.work x hx).subset hr) hz.1 _
      have himage : (work.setIfInBounds el.result z).map (meaning f ρ) =
          (work.map (meaning f ρ)).setIfInBounds el.result 0 := by
        rw [Array.map_setIfInBounds, hz.2]
      exact yields_spread hf hcleared himage (hs.sens.subset hr) (hheld.1.subset hr) (hheld.2.subset hr)
        ((hs.work d (Array.mem_of_getElem? hd)).subset hr) el.left el.right (next-1)

/-- A seed that is zero may be skipped too. -/
theorem yields_adjoint_output (hf : Reading ok f) (hseed : seed.Held roots) (hs : s.Held roots)
    (result left right : Nat) (v : K) :
    Yields ok symbols roots (Sweep.adjoint Arithmetic.symbolic partials seed s ⟨.output, result, left, right, v⟩)
      (Sweep.Mirrors (meaning f ρ) (Sweep.adjoint Arithmetic.numeric
        (partials.map (Prod.map (meaning f ρ) (meaning f ρ))) (seed.image (meaning f ρ))
        (s.image (meaning f ρ)) (Element.map f ⟨.output, result, left, right, v⟩))) := by
  cases hx : seed.get? result right with
  | none =>
    simp only [Sweep.adjoint, hx]
    exact .pure ⟨hs, by simp [Element.map, Block.get?_image, hx, Sweep.image]⟩
  | some d =>
    have hd : Denotes (meaning f ρ) (d.meaning f ρ) roots d := ⟨hseed.get? hx, rfl⟩
    have hget : (seed.image (meaning f ρ)).get? result right = some (d.meaning f ρ) := by
      rw [Block.get?_image, hx]
      rfl
    have hnum : Sweep.adjoint Arithmetic.numeric
        (partials.map (Prod.map (meaning f ρ) (meaning f ρ))) (seed.image (meaning f ρ))
        (s.image (meaning f ρ)) (Element.map f ⟨.output, result, left, right, v⟩) =
        (pure ⟨(s.work.map (meaning f ρ)).modify left (· + d.meaning f ρ),
          s.sens.image (meaning f ρ), s.next⟩ : Id (Sweep R)) :=
      adjoint_output rfl hget
    rw [hnum]
    simp only [Sweep.adjoint, hx]
    split
    · next hzero =>
      refine .pure ⟨hs, ?_⟩
      rw [meaning_of_isZero hzero, modify_add_zero]
      rfl
    · refine .bind (yields_accumulate hf hs.work left (.pure hd)) fun roots' w hr hw =>
        .pure ⟨⟨hw.1, hs.sens.subset hr⟩, ?_⟩
      rw [← hw.2]
      rfl

theorem yields_adjoint (hf : Reading ok f) (hp : Recorded roots partials) (hseed : seed.Held roots)
    (hs : s.Held roots) (el : Element K) :
    Yields ok symbols roots (Sweep.adjoint Arithmetic.symbolic partials seed s el)
      (Sweep.Mirrors (meaning f ρ) (Sweep.adjoint Arithmetic.numeric
        (partials.map (Prod.map (meaning f ρ) (meaning f ρ))) (seed.image (meaning f ρ))
        (s.image (meaning f ρ)) (el.map f))) := by
  cases hop : el.op.isStructural with
  | false => exact yields_adjoint_operation hf hp hs hop
  | true =>
    obtain ⟨op, result, left, right, v⟩ := el
    cases op
    case input =>
      cases hx : s.work[result]? with
      | none =>
        simp only [Sweep.adjoint, hx]
        exact .pure ⟨hs, by simp [Element.map, hx, Sweep.image]⟩
      | some x =>
        simp only [Sweep.adjoint, hx]
        have hheld := hs.work x (Array.mem_of_getElem? hx)
        refine .bind (yields_zero f ρ) fun roots' z hr hz => .pure ⟨⟨?_, ?_⟩, ?_⟩
        · exact held_setIfInBounds (fun y hy => (hs.work y hy).subset hr) hz.1 _
        · exact (hs.sens.subset hr).set (hheld.subset hr) _ _
        · simp [Element.map, hx, Sweep.image, Arithmetic.numeric_zero, Array.map_setIfInBounds, hz.2,
            Block.image_set]
    case output => exact yields_adjoint_output hf hseed hs result left right v
    case const | parameter =>
      refine yields_clear (f := f) (ρ := ρ) hs result fun roots' x _ hx hheld => ⟨hheld, ?_⟩
      simp [Sweep.adjoint, Element.map, Arithmetic.numeric_zero, Sweep.image, Array.map_setIfInBounds, hx]
    all_goals cases hop

end Sweeps

end Tape

end Fluxion
