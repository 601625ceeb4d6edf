/-!
The outcome of a numeric evaluation: where a value that is not finite showed up.
-/
set_option autoImplicit false

namespace Fluxion

/-- One entry of an output, of a forward sensitivity or of an adjoint sensitivity. -/
inductive Location where
  | output (index entry : Nat)
  | forward (direction index entry : Nat)
  | adjoint (direction index entry : Nat)
  deriving DecidableEq, Repr

def Location.text : Location → String
  | .output i k => s!"output {i}[{k}]"
  | .forward d i k => s!"forward sensitivity {d} of output {i}[{k}]"
  | .adjoint d i k => s!"adjoint sensitivity {d} of input {i}[{k}]"

/-- The entries that are not finite, in the order of the scan. -/
structure Report where
  entries : Array Location
  deriving DecidableEq, Repr

namespace Report

def empty : Report := ⟨#[]⟩

def isRegular (r : Report) : Bool := r.entries.isEmpty

/-- The count and the first four entries. -/
def text (r : Report) : String :=
  if r.isRegular then "regular"
  else
    let shown := ", ".intercalate ((r.entries.toList.take 4).map Location.text)
    let more := if 4 < r.entries.size then ", ..." else ""
    s!"{r.entries.size} non-finite value(s): {shown}{more}"

end Report

end Fluxion
