import Fluxion.Function.Machine

/-!
Directional derivatives of an opaque function by central differences. A forward direction costs two
evaluations; the adjoint ones together cost two for each input entry, since the Jacobian is built column
by column.
-/
set_option autoImplicit false

namespace Fluxion

/-- Evaluates outputs from inputs. The outputs come back as far as they were written, with the fault that
ended the evaluation. -/
abbrev Body (K : Type) := Block K → Block K → Run K (Block K × Option Fault)

namespace Differences

variable {K : Type} [Number K]

open Number

/-- The largest absolute value, or zero. -/
def maxAbs (b : Block K) : K := b.foldl (fun m v => v.foldl (fun m x => larger m (abs x)) m) zero

def zipBlocks (f : K → K → K) (x y : Block K) : Block K := x.zipWith (fun x y => x.zipWith f y) y

/-- The point `base + h * dir`. -/
def perturb (base dir : Block K) (h : K) : Block K := zipBlocks (fun b d => add b (mul h d)) base dir

/-- The quotient of a difference by twice the step. -/
def quotient (h p m : K) : K := div (sub p m) (mul two h)

/-- Evaluates all outputs, or fails. -/
def outputsAt (body : Body K) (x y : Block K) : Run K (Block K) := do
  match ← body x y with
  | (y, none) => return y
  | (_, some f) => throw f

/-- A point, and outputs on both sides of the inputs. All directions share them; an evaluation starts from
the outputs of the one before on its side. -/
structure Scratch (K : Type) where
  point : Block K
  plus : Block K
  minus : Block K

/-- Evaluates at two points and stays at the second one. -/
def Scratch.between (s : Scratch K) (body : Body K) (p q : Block K) : Run K (Scratch K) := do
  let plus ← outputsAt body p s.plus
  let minus ← outputsAt body q s.minus
  return ⟨q, plus, minus⟩

/-- The difference quotient along one seed. A zero seed costs nothing. -/
def forwardSens (body : Body K) (step scale : K) (input seed : Block K) (s : Scratch K) :
    Run K (Block K × Scratch K) := do
  let norm := maxAbs seed
  if isZero norm then return (s.plus.map (·.map fun _ => zero), s)
  let h := div (mul step scale) norm
  let s ← s.between body (perturb input seed h) (perturb input seed (neg h))
  return (zipBlocks (quotient h) s.plus s.minus, s)

def forward (body : Body K) (step scale : K) (input : Block K) (s : Scratch K) (d : Nat) :
    Run K (Scratch K) := do
  let seed := (← Run.buffers).forwardSeed.getD d #[]
  let (sens, s) ← forwardSens body step scale input seed s
  Run.modifyBuffers fun b => {b with forwardSens := b.forwardSens.setIfInBounds d sens}
  return s

/-- Product of an adjoint seed with the column of difference quotients. -/
def contract (h : K) (seed plus minus : Block K) : K :=
  (seed.zip (plus.zip minus)).foldl (fun acc (s, p, m) =>
    (s.zip (p.zip m)).foldl (fun acc (s, p, m) =>
      add acc (div (mul s (sub p m)) (mul two h))) acc) zero

/-- Column `k` of input `i`, for the adjoint sensitivities of all directions below `n`. The entry of the point
is set back afterwards. -/
def adjointColumn (body : Body K) (h : K) (n i k : Nat) (x : K) (s : Scratch K) : Run K (Scratch K) := do
  let up := s.point.set i k (add x h)
  let s ← s.between body up (up.set i k (sub x h))
  Run.modifyBuffers fun b => {b with
    adjointSens := (List.range n).foldl (fun sens d =>
      sens.modify d (Block.set · i k (contract h (b.adjointSeed.getD d #[]) s.plus s.minus)))
      b.adjointSens}
  return {s with point := s.point.set i k x}

def adjoint (body : Body K) (h : K) (input : Block K) (n : Nat) (s : Scratch K) : Run K (Scratch K) := do
  Run.modifyBuffers fun b => {b with
    adjointSens := b.adjointSens.mapIdx fun d v => if d < n then v.map (·.map fun _ => zero) else v}
  input.zipIdx.toList.foldlM (fun s (v, i) =>
    v.zipIdx.toList.foldlM (fun s (x, k) => adjointColumn body h n i k x s) s) {s with point := input}

/-- Sensitivities of the first `f` forward and `a` adjoint directions at the inputs in the buffers. -/
def directions (body : Body K) (step : K) (f a : Nat) : Run K Unit := do
  if f = 0 && a = 0 then return
  let {input, output, ..} ← Run.buffers
  let scale := add one (maxAbs input)
  let s ← (List.range f).foldlM (forward body step scale input) ⟨input, output, output⟩
  if a = 0 then return
  let _ ← adjoint body (mul step scale) input a s

end Differences

end Fluxion
