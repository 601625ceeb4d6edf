import Fluxion.Arithmetic
import Fluxion.Count

/-!
Buffers of one instance of a function: inputs and outputs, and for every direction its seeds and its
sensitivities.
-/
set_option autoImplicit false

namespace Fluxion

/-- The entries of several matrices. -/
abbrev Block (T : Type) := Array (Array T)

namespace Block

variable {T : Type}

def filled (sizes : Array Nat) (x : T) : Block T := sizes.map (.replicate · x)

def get? (b : Block T) (i k : Nat) : Option T := b[i]?.bind (·[k]?)

def set (b : Block T) (i k : Nat) (x : T) : Block T := b.modify i (·.setIfInBounds k x)

def sizes (b : Block T) : Array Nat := b.map (·.size)

theorem get?_set_self {b : Block T} {i k : Nat} (h : (b.get? i k).isSome) (x : T) :
    (b.set i k x).get? i k = some x := by
  cases hi : b[i]? with
  | none => simp [get?, hi] at h
  | some v =>
    have hk : k < v.size := by simpa [get?, hi] using h
    simp [get?, set, Array.getElem?_modify, hi, hk]

theorem get?_set_of_ne {b : Block T} {i k j l : Nat} (h : (i,k) ≠ (j,l)) (x : T) :
    (b.set i k x).get? j l = b.get? j l := by
  by_cases hi : i = j
  · subst hi
    have hk : k ≠ l := fun e => h (by rw [e])
    cases hb : b[i]? with
    | none => simp [get?, set, Array.getElem?_modify, hb]
    | some v => simp [get?, set, Array.getElem?_modify, hb, Array.getElem?_setIfInBounds_ne hk]
  · simp [get?, set, Array.getElem?_modify, hi]

theorem sizes_set (b : Block T) (i k : Nat) (x : T) : (b.set i k x).sizes = b.sizes := by
  ext j hj hj'
  · simp [sizes, set]
  · simp only [sizes, set, Array.getElem_map, Array.getElem_modify]
    split <;> simp

theorem sizes_filled (ns : Array Nat) (x : T) : (filled ns x).sizes = ns := by
  simp [sizes, filled, Function.comp_def]

end Block

/-- Forward seeds belong to inputs and forward sensitivities to outputs; adjoint ones the other way. -/
structure Buffers (T : Type) where
  input : Block T
  output : Block T
  forwardSeed : Array (Block T)
  forwardSens : Array (Block T)
  adjointSeed : Array (Block T)
  adjointSens : Array (Block T)
  deriving Inhabited

namespace Buffers

variable {T : Type}

def filled (inputs outputs : Array Nat) (forward adjoint : Nat) (x : T) : Buffers T where
  input := .filled inputs x
  output := .filled outputs x
  forwardSeed := .replicate forward (.filled inputs x)
  forwardSens := .replicate forward (.filled outputs x)
  adjointSeed := .replicate adjoint (.filled outputs x)
  adjointSens := .replicate adjoint (.filled inputs x)

/-- Allocated forward directions. -/
def forward (b : Buffers T) : Nat := b.forwardSeed.size

def adjoint (b : Buffers T) : Nat := b.adjointSeed.size

/-- Allocated forward and adjoint directions. -/
def directions (b : Buffers T) : Nat × Nat := (b.forward, b.adjoint)

def extendTo (bs : Array (Block T)) (n : Nat) (b : Block T) : Array (Block T) :=
  bs ++ Array.replicate (n - bs.size) b

/-- Room for so many directions: a block is kept as a place, a length and a capacity, 8 bytes each. -/
def checkRoom (n : Nat) : Except Fault Unit := Count.checkRoom n 24

/-- At least `n` forward directions. New ones are filled with `x`, the others stay. -/
def growForward (b : Buffers T) (n : Nat) (x : T) : Buffers T :=
  {b with
    forwardSeed := extendTo b.forwardSeed n (.filled b.input.sizes x)
    forwardSens := extendTo b.forwardSens n (.filled b.output.sizes x)}

/-- At least `n` adjoint directions. -/
def growAdjoint (b : Buffers T) (n : Nat) (x : T) : Buffers T :=
  {b with
    adjointSeed := extendTo b.adjointSeed n (.filled b.output.sizes x)
    adjointSens := extendTo b.adjointSens n (.filled b.input.sizes x)}

end Buffers

/-- Where each direction went when the nonzero seeds moved to the front; nothing for a zero seed. -/
abbrev Compaction := Array (Option Nat)

namespace Compaction

variable {T : Type}

/-- Moves the nonzero seeds among the first `n` to the front, by swapping, and counts them. -/
def compact (isZero : T → Bool) (seeds : Array (Block T)) (n : Nat) :
    Array (Block T) × Compaction × Nat :=
  (List.range n).foldl (fun (seeds, map, count) d =>
    if (seeds.getD d #[]).all (·.all isZero) then (seeds, map.push none, count)
    else (seeds.swapIfInBounds count d, map.push (some count), count+1)) (seeds, #[], 0)

/-- Undoes the swaps, the last one first. -/
def expand (map : Compaction) (bs : Array (Block T)) : Array (Block T) :=
  map.toList.zipIdx.foldr (fun (slot, d) bs =>
    match slot with
    | some k => bs.swapIfInBounds k d
    | none => bs) bs

/-- Zero sensitivities for the directions that were not swept. -/
def clear (map : Compaction) (zero : T) (bs : Array (Block T)) : Array (Block T) :=
  map.toList.zipIdx.foldl (fun bs (slot, d) =>
    match slot with
    | some _ => bs
    | none => bs.modify d (·.map (·.map fun _ => zero))) bs

theorem swap_swap (bs : Array (Block T)) {i j : Nat} (hi : i < bs.size) (hj : j < bs.size) :
    (bs.swapIfInBounds i j).swapIfInBounds i j = bs := by
  simp [Array.swapIfInBounds, hi, hj]

theorem expand_push_none (map : Compaction) (bs : Array (Block T)) :
    expand (map.push none) bs = map.expand bs := by
  simp [expand, List.zipIdx_append]

theorem expand_push_some (map : Compaction) (k : Nat) (bs : Array (Block T)) :
    expand (map.push (some k)) bs = map.expand (bs.swapIfInBounds k map.size) := by
  simp [expand, List.zipIdx_append]

/-- One more direction. -/
theorem compact_succ (isZero : T → Bool) (seeds : Array (Block T)) (n : Nat) :
    compact isZero seeds (n+1) =
      let (s, map, count) := compact isZero seeds n
      if (s.getD n #[]).all (·.all isZero) then (s, map.push none, count)
      else (s.swapIfInBounds count n, map.push (some count), count+1) := by
  simp [compact, List.range_succ]

/-- Moving the seeds keeps their number; the map has one entry for each, and its slots stay below. -/
theorem compact_sizes (isZero : T → Bool) (seeds : Array (Block T)) (n : Nat) :
    (compact isZero seeds n).1.size = seeds.size ∧ (compact isZero seeds n).2.1.size = n ∧
      (compact isZero seeds n).2.2 ≤ n := by
  induction n with
  | zero => simp [compact]
  | succ n ih =>
    rw [compact_succ]
    dsimp only
    split
    · exact ⟨ih.1, by simp [ih.2.1], Nat.le_succ_of_le ih.2.2⟩
    · exact ⟨by simp [ih.1], by simp [ih.2.1], Nat.succ_le_succ ih.2.2⟩

/-- Undoing the moves gives the seeds back. -/
theorem expand_compact (isZero : T → Bool) (seeds : Array (Block T)) {n : Nat} (h : n ≤ seeds.size) :
    (compact isZero seeds n).2.1.expand (compact isZero seeds n).1 = seeds := by
  induction n with
  | zero => rfl
  | succ n ih =>
    have hs := compact_sizes isZero seeds n
    rw [compact_succ]
    dsimp only
    split
    · rw [expand_push_none]
      exact ih (by omega)
    · obtain ⟨h1, h2, h3⟩ := hs
      rw [expand_push_some, h2, swap_swap _ (Nat.lt_of_le_of_lt h3 (by omega)) (by omega)]
      exact ih (by omega)

end Compaction

end Fluxion
