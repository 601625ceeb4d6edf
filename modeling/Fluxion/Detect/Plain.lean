import Fluxion.Detect.Propagation

/-!
Plain detection: one bit for each seed entry, a word of them in each sweep.
-/
set_option autoImplicit false

namespace Fluxion.Detect

variable {σ : Type}

def plainDirection (s : Propagation σ) (mode : AdMode) : Direction :=
  s.choose mode
    (if ceilDiv s.nnzIn Word.size ≤ ceilDiv s.nnzOut Word.size then .forward else .reverse)

/-- Seeds of sweep `k`: entry `64 k + j` has bit `j`. -/
def plainSeed (n k : Nat) : Array Word :=
  (Array.range n).map fun i => if i / Word.size = k then Word.bit (i % Word.size) else 0

/-- Entries read off the words of sweep `k`. -/
def plainEntries (dir : Direction) (k : Nat) (sens : Array Word) : Array (Nat × Nat) :=
  sens.zipIdx.flatMap fun (w, el) =>
    (w.bits.map fun j =>
      match dir with
      | .forward => (el, Word.size*k+j)
      | .reverse => (Word.size*k+j, el)).toArray

def plain (s : Propagation σ) (mode : AdMode) : ExceptT Fault (StateM σ) Pattern := do
  let dir := plainDirection s mode
  let n := s.seedSize dir
  let found ← (List.range (ceilDiv n Word.size)).foldlM (fun acc k => do
    let sens ← s.sweep dir (plainSeed n k)
    return acc ++ plainEntries dir k sens) #[]
  Pattern.ofEntries? s.nnzOut s.nnzIn found

end Fluxion.Detect
