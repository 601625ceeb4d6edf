import Fluxion.Buffers
import Fluxion.Detect.Propagation
import Fluxion.Tape.Basic

/-!
Dependency words through a tape: an operation joins the words of its operands. The result may name more
than the true dependencies (`x - x` depends on `x`), and never less.
-/
set_option autoImplicit false

namespace Fluxion.Tape

variable {K : Type}

/-- Words in the work slots, and those that reached the far side. -/
structure Flow where
  work : Array Word
  reached : Block Word

def Flow.at (f : Flow) (slot : Nat) : Word := f.work.getD slot 0

def Flow.write (f : Flow) (slot : Nat) (w : Word) : Flow :=
  {f with work := f.work.setIfInBounds slot w}

def Flow.join (f : Flow) (slot : Nat) (w : Word) : Flow :=
  {f with work := f.work.modify slot (· ||| w)}

def Flow.forward (input : Block Word) (f : Flow) (el : Element K) : Flow :=
  match el.op with
  | .input => f.write el.result ((input.get? el.left el.right).getD 0)
  | .output => {f with reached := f.reached.set el.result el.right (f.at el.left)}
  | .const | .parameter => f.write el.result 0
  | _ => f.write el.result (f.at el.left ||| f.at el.right)

def Flow.reverse (output : Block Word) (el : Element K) (f : Flow) : Flow :=
  match el.op with
  | .input =>
    let w := f.at el.result
    let f := f.write el.result 0
    {f with reached := f.reached.set el.left el.right w}
  | .output => f.join el.left ((output.get? el.result el.right).getD 0)
  | .const | .parameter => f.write el.result 0
  | _ =>
    let w := f.at el.result
    ((f.write el.result 0).join el.left w).join el.right w

/-- Output words of the given sizes from input words. -/
def propagateForward (t : Tape K) (outputs : Array Nat) (input : Block Word) : Flow :=
  t.elements.foldl (Flow.forward input) ⟨.replicate t.worksize 0, .filled outputs 0⟩

/-- Input words of the given sizes from output words. -/
def propagateReverse (t : Tape K) (inputs : Array Nat) (output : Block Word) : Flow :=
  t.elements.foldr (Flow.reverse output) ⟨.replicate t.worksize 0, .filled inputs 0⟩

/-- Sweeps through the block of one output with respect to one input, between blocks of the given sizes.
The state counts the sweeps. -/
def propagation (t : Tape K) (inputs outputs : Array Nat) (iind oind : Nat) : Propagation Nat where
  nnzIn := inputs.getD iind 0
  nnzOut := outputs.getD oind 0
  can _ := true
  sweep dir seed := do
    modify (· + 1)
    return match dir with
    | .forward =>
      let input := (Block.filled inputs 0).setIfInBounds iind seed
      (t.propagateForward outputs input).reached.getD oind #[]
    | .reverse =>
      let output := (Block.filled outputs 0).setIfInBounds oind seed
      (t.propagateReverse inputs output).reached.getD iind #[]

/-- Every store is into an entry of an output of the given size. -/
def storesWithin (t : Tape K) (outputs : Array Nat) : Bool :=
  t.elements.all fun el => el.op != .output || el.right < outputs.getD el.result 0

end Fluxion.Tape
