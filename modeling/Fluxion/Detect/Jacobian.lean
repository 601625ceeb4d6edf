import Fluxion.Detect.Plain
import Fluxion.Detect.Hierarchical

/-!
The sparsity of a Jacobian block, by the detector that suits its shape.
-/
set_option autoImplicit false

namespace Fluxion.Detect

variable {σ : Type}

/-- Direction, weight of a reverse sweep, and whether blocks are refined. -/
structure Settings where
  mode : AdMode
  penalty : Nat
  hierarchical : Bool

/-- Dense where no sweep is available. A symmetric square block gets a symmetric pattern. -/
def jacobian (s : Propagation σ) (o : Settings) (symmetric : Bool) :
    ExceptT Fault (StateM σ) Pattern := do
  if !s.can .forward && !s.can .reverse then return .dense s.nnzOut s.nnzIn
  let square := s.nnzIn == s.nnzOut
  if o.hierarchical && symmetric && square && 1 < s.nnzIn && s.can .forward then
    hierarchicalSymmetric s
  else
    let p ← if o.hierarchical && 1 < s.nnzIn && 1 < s.nnzOut then hierarchical s o.mode o.penalty
      else plain s o.mode
    if symmetric && square then p.symmetrize else return p

end Fluxion.Detect
