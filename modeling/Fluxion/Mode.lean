import Fluxion.Count

/-!
Choices that steer differentiation: the direction of a sweep, how it is chosen, and the order of a tape.
-/
set_option autoImplicit false

namespace Fluxion

/-- Forward from inputs to outputs, or in reverse from outputs to inputs. -/
inductive Direction where
  | forward | reverse
  deriving DecidableEq, Repr, Inhabited

/-- A direction that is preferred, or the cheaper one. -/
inductive AdMode where
  | forward | reverse | automatic
  deriving DecidableEq, Repr, Inhabited

namespace AdMode

def text : AdMode → String
  | forward => "forward"
  | reverse => "reverse"
  | automatic => "automatic"

def ofText? : String → Option AdMode
  | "forward" => some forward
  | "reverse" => some reverse
  | "automatic" => some automatic
  | _ => none

/-- Reads a mode; a reverse sweep may also be called an adjoint one. -/
def parse (s : String) : Except Fault AdMode :=
  match ofText? (if s = "adjoint" then "reverse" else s) with
  | some m => return m
  | none => throw (.unknownAdMode s)

theorem parse_text (m : AdMode) : parse m.text = .ok m := by cases m <;> rfl

end AdMode

/-- Each operation close to its consumers, or level by level. -/
inductive Sorting where
  | depthFirst | breadthFirst
  deriving DecidableEq, Repr, Inhabited

namespace Sorting

def text : Sorting → String
  | depthFirst => "depth-first"
  | breadthFirst => "breadth-first"

def ofText? : String → Option Sorting
  | "depth-first" => some depthFirst
  | "breadth-first" => some breadthFirst
  | _ => none

def parse (s : String) : Except Fault Sorting :=
  match ofText? s with
  | some m => return m
  | none => throw (.optionType "topological_sorting" .sorting)

theorem parse_text (m : Sorting) : parse m.text = .ok m := by cases m <;> rfl

end Sorting

/-- Whether a forward cost is at most `penalty` reverse costs. The product is one word, so a penalty
near the bound of words may count for little. -/
def forwardWins (penalty forward reverse : Nat) : Bool := forward ≤ Count.wrap (penalty*reverse)

end Fluxion
