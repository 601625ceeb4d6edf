import Fluxion.Buffers
import Fluxion.Tape.Build

/-!
Replay of a tape over any arithmetic: one forward pass for the values, which records the derivatives of
every operation when directions are asked for; then one forward sweep for each forward direction and one
reverse sweep for each adjoint direction.

A result may take the slot of one of its operands. Every element reads its operands before it writes, and
the reverse sweep clears the result's slot before it adds to the operands.
-/
set_option autoImplicit false

namespace Fluxion.Tape

variable {K T : Type} {m : Type → Type}

/-- A replay that a fault ended, with the buffers as they stood. -/
structure Stopped (T : Type) where
  fault : Fault
  buffers : Buffers T

/-- Work slots, recorded derivatives and buffers in the middle of a replay. -/
structure Replay (T : Type) where
  work : Array T
  partials : Array (T × T)
  buffers : Buffers T

namespace Replay

def stop {α : Type} [Monad m] (s : Replay T) (f : Fault) : ExceptT (Stopped T) m α :=
  throw ⟨f, s.buffers⟩

def write (s : Replay T) (slot : Nat) (x : T) : Replay T :=
  {s with work := s.work.setIfInBounds slot x}

variable [Monad m] [Number K]

/-- One element of the forward pass. -/
def step (A : Arithmetic K T m) (t : Tape K) (taping : Bool) (s : Replay T) (el : Element K) :
    ExceptT (Stopped T) m (Replay T) := do
  match el.op with
  | .input =>
    match s.buffers.input.get? el.left el.right with
    | some x => return s.write el.result x
    | none => s.stop (.violation .slotOutside)
  | .output =>
    match s.work[el.left]?, s.buffers.output.get? el.result el.right with
    | some x, some _ =>
      let {work, partials, buffers} := s
      return ⟨work, partials, {buffers with output := buffers.output.set el.result el.right x}⟩
    | _, _ => s.stop (.violation .slotOutside)
  | .const => return s.write el.result (← A.lift el.value)
  | .parameter =>
    match t.free[el.left]?.bind A.free with
    | some x => return s.write el.result x
    | none => s.stop (t.unresolved "tape")
  | op =>
    match s.work[el.left]?, s.work[el.right]? with
    | some x, some y =>
      let r ← A.apply op x y
      if taping then
        match ← A.partials op x y r with
        | some p =>
          let {work, partials, buffers} := s
          return ⟨work.setIfInBounds el.result r, partials.push p, buffers⟩
        | none => s.stop (.missingDerivative op)
      else return s.write el.result r
    | _, _ => s.stop (.violation .slotOutside)

end Replay

variable [Monad m] [Number K]

/-- Work slots and sensitivities in the middle of a sweep, and the number of the next derivative. -/
structure Sweep (T : Type) where
  work : Array T
  sens : Block T
  next : Nat

namespace Sweep

def forward (A : Arithmetic K T m) (partials : Array (T × T)) (seed : Block T) (s : Sweep T)
    (el : Element K) : m (Sweep T) := do
  let {work, sens, next} := s
  match el.op with
  | .input =>
    match seed.get? el.left el.right with
    | some x => return ⟨work.setIfInBounds el.result x, sens, next⟩
    | none => return ⟨work, sens, next⟩
  | .output =>
    match work[el.left]? with
    | some x => return ⟨work, sens.set el.result el.right x, next⟩
    | none => return ⟨work, sens, next⟩
  | .const | .parameter => return ⟨work.setIfInBounds el.result (← A.zero), sens, next⟩
  | _ =>
    match partials[next]?, work[el.left]?, work[el.right]? with
    | some (p, q), some x, some y =>
      let d ←
        if el.left = el.right then do A.mul (← A.add p q) x
        else do A.add (← A.mul p x) (← A.mul q y)
      return ⟨work.setIfInBounds el.result d, sens, next+1⟩
    | _, _, _ => return ⟨work, sens, next+1⟩

/-- Adds `d` to a slot. -/
def accumulate (A : Arithmetic K T m) (work : Array T) (slot : Nat) (d : m T) : m (Array T) := do
  match work[slot]? with
  | some x => return work.setIfInBounds slot (← A.add x (← d))
  | none => return work

/-- One element from the end of the tape. `next` counts the derivatives that are left. -/
def adjoint (A : Arithmetic K T m) (partials : Array (T × T)) (seed : Block T) (s : Sweep T)
    (el : Element K) : m (Sweep T) := do
  let {work, sens, next} := s
  match el.op with
  | .input =>
    match work[el.result]? with
    | some x =>
      return ⟨work.setIfInBounds el.result (← A.zero), sens.set el.left el.right x, next⟩
    | none => return ⟨work, sens, next⟩
  | .output =>
    match seed.get? el.result el.right with
    | some d =>
      if A.isZero d then return ⟨work, sens, next⟩
      else return ⟨← accumulate A work el.left (pure d), sens, next⟩
    | none => return ⟨work, sens, next⟩
  | .const | .parameter => return ⟨work.setIfInBounds el.result (← A.zero), sens, next⟩
  | _ =>
    match partials[next - 1]?, work[el.result]? with
    | some (p, q), some d =>
      let work := work.setIfInBounds el.result (← A.zero)
      if A.isZero d then return ⟨work, sens, next-1⟩
      else if el.left = el.right then
        let work ← accumulate A work el.left (do A.mul (← A.add p q) d)
        return ⟨work, sens, next-1⟩
      else
        let work ← accumulate A work el.left (A.mul p d)
        let work ← accumulate A work el.right (A.mul q d)
        return ⟨work, sens, next-1⟩
    | _, _ => return ⟨work, sens, next-1⟩

end Sweep

def forwardSweep (A : Arithmetic K T m) (t : Tape K) (partials : Array (T × T)) (work : Array T)
    (seed sens : Block T) : m (Sweep T) :=
  t.elements.foldlM (Sweep.forward A partials seed) ⟨work, sens, 0⟩

/-- Expects a work array of zeros and leaves one. Inputs that no output depends on get zero. -/
def adjointSweep (A : Arithmetic K T m) (t : Tape K) (partials : Array (T × T)) (work : Array T)
    (seed sens : Block T) : m (Sweep T) := do
  let sens ← sens.mapM fun v => v.mapM fun _ => A.zero
  t.elements.foldrM (fun el s => Sweep.adjoint A partials seed s el) ⟨work, sens, partials.size⟩

/-- The forward pass. -/
def forwardPass (A : Arithmetic K T m) (t : Tape K) (taping : Bool) (b : Buffers T) :
    ExceptT (Stopped T) m (Replay T) := do
  let zero ← A.zero
  t.elements.foldlM (Replay.step A t taping) ⟨.replicate t.worksize zero, #[], b⟩

/-- Forward sweeps for directions below `n`, one after the other over the same work array. -/
def forwardSweeps (A : Arithmetic K T m) (t : Tape K) (n : Nat) (r : Replay T) : m (Replay T) :=
  (List.range n).foldlM (fun r d => do
    let {work, partials, buffers} := r
    let s ← t.forwardSweep A partials work (buffers.forwardSeed.getD d #[])
      (buffers.forwardSens.getD d #[])
    return ⟨s.work, partials,
      {buffers with forwardSens := buffers.forwardSens.setIfInBounds d s.sens}⟩) r

def adjointSweeps (A : Arithmetic K T m) (t : Tape K) (n : Nat) (r : Replay T) : m (Replay T) := do
  if n = 0 then return r
  let {work, partials, buffers} := r
  let work ← work.mapM fun _ => A.zero
  (List.range n).foldlM (fun r d => do
    let {work, partials, buffers} := r
    let s ← t.adjointSweep A partials work (buffers.adjointSeed.getD d #[])
      (buffers.adjointSens.getD d #[])
    return ⟨s.work, partials,
      {buffers with adjointSens := buffers.adjointSens.setIfInBounds d s.sens}⟩)
    ⟨work, partials, buffers⟩

/-- Outputs at the inputs in the buffers, and the sensitivities of the first `forward` and `adjoint`
directions. -/
def evaluate (A : Arithmetic K T m) (t : Tape K) (b : Buffers T) (forward adjoint : Nat) :
    ExceptT (Stopped T) m (Buffers T) := do
  let r ← t.forwardPass A (0 < forward || 0 < adjoint) b
  let r ← (t.forwardSweeps A forward r : m (Replay T))
  let r ← (t.adjointSweeps A adjoint r : m (Replay T))
  return r.buffers

/-- The outputs at numeric inputs. -/
def evalNumeric (t : Tape K) (inputs : Block K) : Except Fault (Block K) := do
  if !t.free.isEmpty then throw (t.unresolved "tape")
  if inputs.size ≠ t.inputSizes.size then
    throw (.inputCount "tape" t.inputSizes.size inputs.size)
  match (inputs.zip t.inputSizes).zipIdx.find? (fun ((x, n), _) => x.size ≠ n) with
  | some ((x, n), i) =>
    t.inputSizes.forM (Count.checkRoom · 8)
    throw (.length .input i "tape" n x.size)
  | none => pure ()
  let b := Buffers.filled t.inputSizes t.outputSizes 0 0 (Number.zero : K)
  match (t.evaluate .numeric {b with input := inputs} 0 0).run with
  | .ok b => return b.output
  | .error s => throw s.fault

end Fluxion.Tape
