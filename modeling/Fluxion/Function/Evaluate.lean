import Fluxion.Function.Assemble
import Fluxion.Function.Differences

/-!
Evaluation of a function with any number of its directions. A function that stands on a parent evaluates
an instance of the parent.
-/
set_option autoImplicit false

namespace Fluxion

variable {K : Type} [Number K]

namespace Evaluate

/-- Replays a tape over the buffers. -/
def tape (sig : Signature K) (t : Tape K) (f a : Nat) : Run K Unit := do
  if !t.free.isEmpty then throw (t.unresolved sig.name)
  let b ← Run.buffers
  match (t.evaluate .numeric b f a).run with
  | .ok b => Run.modifyBuffers fun _ => b
  | .error s =>
    Run.modifyBuffers fun _ => s.buffers
    throw s.fault

/-- New values where there are some, the old ones elsewhere. -/
def overlay (old new : Block K) : Block K :=
  old.mapIdx fun i v => v.mapIdx fun k x => (new.get? i k).getD x

/-- Asks a callable. -/
def callable (sig : Signature K) (c : Callable K) : Body K := fun x y => do
  Run.modifyJournal fun j => {j with evaluations := j.evaluations+1}
  match c.evaluate x with
  | .ok new => return (overlay y new, none)
  | .error f => return (y, some (f.fault sig.name))

/-- Asks a callable for the values of a Jacobian block, one for each entry of its pattern. -/
def callableJacobian (sig : Signature K) (c : Callable K) (block : JacobianBlock) (x : Block K) :
    Run K (Array K) := do
  Run.modifyJournal fun j => {j with jacobians := j.jacobians+1}
  match c.jacobian block.iind block.oind with
  | none =>
    throw (.external sig.name s!"no jacobian for output {block.oind} wrt input {block.iind}")
  | some jac =>
    match jac x with
    | .ok values =>
      if values.size = block.pattern.nnz then return values else throw (.violation .valueLength)
    | .error f => throw (f.fault sig.name)

/-- The first output of a Jacobian function. A gradient has its entries on the pattern of the input. -/
def firstOutput (block : JacobianBlock) (values old : Array K) : Array K :=
  match block.layout with
  | .jacobian => values
  | .gradient =>
    let zeros := old.map fun _ => Number.zero
    if block.pattern.nrow = 1 then
      ((block.pattern.row 0).zip values).foldl (fun v (j, x) => v.setIfInBounds j x) zeros
    else zeros

/-- Outputs of a Jacobian function: the block, then the outputs of the parent. The block over all elements
may have fewer places than values, and then takes none. -/
def jacobian (block : JacobianBlock) (parent : Definition K) (eval : Evaluation K) : Body K :=
  fun x y => do
    let r ← Run.observe <| Run.inParent parent.sig.frame do
      parent.sig.setInputs x
      let values ← match block.source, parent.callable? with
        | .sweeps p, _ =>
          (Assemble.Job.of block.iind block.oind block.pattern p false).run parent.sig eval
        | .callable, some c => do
          let _ ← eval 0 0
          callableJacobian parent.sig c block x
        | .callable, none => pure #[]
      return (values, (← Run.buffers).output)
    match r with
    | .ok (values, outputs) =>
      let old := y.getD 0 #[]
      if block.layout = .jacobian && values.size ≠ old.size then
        return (y, some (.violation .valueLength))
      return (#[firstOutput block values old] ++ outputs, none)
    | .error f => return (y, some f)

/-- Copies `n` blocks of `width` parts from position `start` on into the first directions. -/
def loadSeeds (seeds : Array (Block K)) (x : Block K) (start width n : Nat) : Array (Block K) :=
  seeds.mapIdx fun d old =>
    if d < n then x.extract (start + d*width) (start + (d+1)*width) else old

/-- Writes the first `n` directions into the outputs from position `start` on. -/
def storeSens (sens : Array (Block K)) (y : Block K) (start width n : Nat) : Block K :=
  (List.range n).foldl (fun y d =>
    (sens.getD d #[]).zipIdx.foldl (fun y (v, k) => y.setIfInBounds (start + d*width + k) v) y) y

/-- One round of a derivative function: as many of its directions as the parent can hold. -/
def round (f a : Nat) (cap : Nat × Nat) (parent : Definition K) (eval : Evaluation K)
    (x y : Block K) (r : Nat) : Run K (Block K) := do
  let nIn := parent.sig.inputs.size
  let nOut := parent.sig.outputs.size
  let (f0, a0) := (r*cap.1, r*cap.2)
  let nf := min cap.1 (f-f0)
  let na := min cap.2 (a-a0)
  Run.modifyBuffers fun b => {b with
    forwardSeed := loadSeeds b.forwardSeed x (nIn + f0*nIn) nIn nf
    adjointSeed := loadSeeds b.adjointSeed x (nIn + f*nIn + a0*nOut) nOut na}
  let _ ← eval nf na
  let b ← Run.buffers
  return storeSens b.adjointSens (storeSens b.forwardSens y (nOut + f0*nOut) nOut nf)
    (nOut + f*nOut + a0*nIn) nIn na

/-- Outputs of a derivative function: those of the parent, then the sensitivities of all directions.
Rounds that succeeded before a fault stay written. -/
def derivative (f a : Nat) (parent : Definition K) (eval : Evaluation K) : Body K := fun x y => do
  let s := parent.sig
  let start ← Run.observe <| Run.inParent s.frame do
    s.setInputs (x.extract 0 s.inputs.size)
    let cap ← s.requestDirections f a
    if (0 < f && cap.1 = 0) || (0 < a && cap.2 = 0) then
      throw (.unsupported s.name .directionCapacity)
    return cap
  match start with
  | .error e => return (y, some e)
  | .ok cap =>
    let rounds := max 1 (max (ceilDiv f (max 1 cap.1)) (ceilDiv a (max 1 cap.2)))
    let (y, e) ← (List.range rounds).foldlM (fun (y, e?) r => do
      if e?.isSome then return (y, e?)
      match ← Run.observe (Run.inParent s.frame (round f a cap parent eval x y r)) with
      | .ok y => return (y, none)
      | .error e => return (y, some e)) (y, none)
    if e.isSome then return (y, e)
    let outputs ← Run.inParent s.frame do return (← Run.buffers).output
    return (outputs ++ y.extract s.outputs.size y.size, none)

/-- A function that has no tape: the outputs at the inputs, then differences for the directions. -/
def byDifferences (sig : Signature K) (body : Body K) (f a : Nat) : Run K Unit := do
  let {input, output, ..} ← Run.buffers
  let (y, e) ← body input output
  Run.modifyBuffers fun b => {b with output := y}
  match e with
  | some e => throw e
  | none => Differences.directions body sig.options.step f a

/-- Entries that are not finite, of the outputs and of the directions asked for. -/
def irregular (b : Buffers K) (f a : Nat) : Report :=
  let scan (place : Nat → Nat → Location) (v : Block K) : Array Location :=
    v.zipIdx.flatMap fun (xs, i) =>
      xs.zipIdx.filterMap fun (x, k) => if Number.finite x then none else some (place i k)
  let directions (n : Nat) (place : Nat → Nat → Nat → Location) (bs : Array (Block K)) :=
    ((bs.extract 0 n).zipIdx).flatMap fun (v, d) => scan (place d) v
  ⟨scan .output b.output ++ directions f .forward b.forwardSens ++
    directions a .adjoint b.adjointSens⟩

/-- The report of an evaluation: a fault or a warning when a value is not finite. -/
def regularity (sig : Signature K) (f a : Nat) : Run K Report := do
  let r := irregular (← Run.buffers) f a
  if r.isRegular then return r
  else if sig.options.regularityCheck then throw (.irregular sig.name r)
  else
    Run.warn s!"\"{sig.name}\": {r.text}"
    return r

/-- Runs an evaluation on the directions whose seed is not zero, and puts everything back in its place,
unless a violation ends it. Answers how many there were. -/
def compressed (dispatch : Nat → Nat → Run K Unit) (f a : Nat) : Run K (Nat × Nat) := do
  let b ← Run.buffers
  let (fs, fmap, nf) := Compaction.compact Number.isZero b.forwardSeed f
  let (as, amap, na) := Compaction.compact Number.isZero b.adjointSeed a
  Run.modifyBuffers fun b => {b with forwardSeed := fs, adjointSeed := as}
  let r ← Run.outcome (dispatch nf na)
  Run.modifyBuffers fun b => {b with
    forwardSeed := fmap.expand b.forwardSeed
    forwardSens := fmap.clear Number.zero (fmap.expand b.forwardSens)
    adjointSeed := amap.expand b.adjointSeed
    adjointSens := amap.clear Number.zero (amap.expand b.adjointSens)}
  match r with
  | .ok _ => return (nf, na)
  | .error e => throw e

/-- What every evaluation does around its evaluator: it checks the directions, skips zero seeds, counts
and looks for values that are not finite. -/
def around (sig : Signature K) (dispatch : Nat → Nat → Run K Unit) (f a : Nat) : Run K Report := do
  let b ← Run.buffers
  if b.forward < f then throw (sig.outOfRange .forwardDirection (f-1) b.forward)
  if b.adjoint < a then throw (sig.outOfRange .adjointDirection (a-1) b.adjoint)
  let (nf, na) ←
    if sig.options.compressDirections && (0 < f || 0 < a) then compressed dispatch f a
    else do
      dispatch f a
      pure (f, a)
  modify fun m => {m with frame := {m.frame with
    stats := ⟨m.frame.stats.evaluations+1, m.frame.stats.forward+nf, m.frame.stats.adjoint+na⟩}}
  regularity sig f a

end Evaluate

namespace Definition

/-- Evaluates the outputs and the first forward and adjoint directions at the inputs and seeds of the
instance. -/
def evaluate : Definition K → Evaluation K
  | expressions s t _ => Evaluate.around s (Evaluate.tape s t)
  | external s c => Evaluate.around s (Evaluate.byDifferences s (Evaluate.callable s c))
  | jacobian s b p => Evaluate.around s (Evaluate.byDifferences s (Evaluate.jacobian b p p.evaluate))
  | derivative s f a p =>
    Evaluate.around s (Evaluate.byDifferences s (Evaluate.derivative f a p p.evaluate))

/-- The outputs at the given inputs. -/
def call (d : Definition K) (x : Block K) : Run K (Block K) := do
  d.sig.checkCount x.size
  d.sig.setInputs x
  let _ ← d.evaluate 0 0
  return (← Run.buffers).output

/-- Values of a Jacobian block from sweeps along a coloring. -/
def assemble (d : Definition K) (j : Assemble.Job) : Run K (Array K) := j.run d.sig d.evaluate

end Definition

end Fluxion
