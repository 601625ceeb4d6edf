import Fluxion.Op
import Fluxion.Report

/-!
What can go wrong while a function is built, evaluated or differentiated. Every cause has one constructor
and one text.
-/
set_option autoImplicit false

namespace Fluxion

/-- Why compressed rows, or values on them, do not make a pattern of the wanted kind. -/
inductive PatternFault where
  | rowStartLength (got expected : Nat)
  | rowStartEnds
  | rowStartDecreases (row : Nat)
  | columnOutOfRange (row : Nat)
  | columnsNotIncreasing (row : Nat)
  | valueCount (got nonzeros : Nat)
  | starNotSquare (nrow ncol : Nat)
  | blockNotSquare (function : String) (nrow ncol : Nat)
  | blockShape (function : String) (nrow ncol rows columns : Nat)
  deriving DecidableEq, Repr

def PatternFault.text : PatternFault → String
  | .rowStartLength got expected => s!"rowind has length {got}, expected {expected}"
  | .rowStartEnds => "rowind must start at 0 and end at the number of nonzeros"
  | .rowStartDecreases row => s!"rowind decreases at row {row}"
  | .columnOutOfRange row => s!"column out of range in row {row}"
  | .columnsNotIncreasing row => s!"columns of row {row} are not strictly increasing"
  | .valueCount got nonzeros => s!"{got} values for a pattern with {nonzeros} nonzeros"
  | .starNotSquare nrow ncol => s!"star coloring needs a square pattern, got {nrow}x{ncol}"
  | .blockNotSquare function nrow ncol =>
      s!"symmetric Jacobian block of \"{function}\" must be square, got {nrow}x{ncol}"
  | .blockShape function nrow ncol rows columns =>
      s!"external \"{function}\" reports a {nrow}x{ncol} pattern for a {rows}x{columns} jacobian block"

/-- What an index or a value list refers to. -/
inductive Place where
  | input | output | forwardDirection | adjointDirection | forwardSeed | adjointSeed
  deriving DecidableEq, Repr

def Place.text : Place → String
  | .input => "input"
  | .output => "output"
  | .forwardDirection => "forward direction"
  | .adjointDirection => "adjoint direction"
  | .forwardSeed => "forward seed"
  | .adjointSeed => "adjoint seed"

/-- The kind of value that an option takes. -/
inductive Expected where
  | boolean | integer | string | float | positiveFinite | sorting
  deriving DecidableEq, Repr

def Expected.text : Expected → String
  | .boolean => "boolean"
  | .integer => "integer"
  | .string => "string"
  | .float => "float"
  | .positiveFinite => "positive finite"
  | .sorting => "\"depth-first\" or \"breadth-first\""

/-- A service that a function may lack. -/
inductive Capability where
  | symbolicEvaluation | forwardDirections | adjointDirections | directionCapacity
  deriving DecidableEq, Repr

def Capability.text : Capability → String
  | .symbolicEvaluation => "symbolic evaluation"
  | .forwardDirections => "forward directions (max_number_of_fwd_dir is 0)"
  | .adjointDirections => "adjoint directions (max_number_of_adj_dir is 0)"
  | .directionCapacity => "directional derivatives with zero direction capacity"

/-- A precondition that a caller broke. -/
inductive Violation where
  | entryOutside (row column nrow ncol : Nat)
  | structuralNode (op : Op)
  | structuralValue (op : Op)
  | shapesDiffer
  | mapLength
  | rowOutside
  | notSquare
  | slotOutside
  | nodeOutside
  | noColumns
  | noRoom
  | valueLength
  deriving DecidableEq, Repr

def Violation.text? : Violation → Option String
  | .entryOutside row column nrow ncol => some s!"entry ({row}, {column}) outside {nrow}x{ncol}"
  | .structuralNode op => some s!"cannot build a {op.name} node"
  | _ => none

inductive Fault where
  | unresolvedSymbols (function : String) (names : Array String)
  | nonScalarOutput (what : String) (index nrow ncol : Nat)
  | inputCount (function : String) (expected got : Nat)
  | length (place : Place) (index : Nat) (function : String) (expected got : Nat)
  | indexOutOfRange (place : Place) (index : Nat) (function : String) (available : Nat)
  | unknownAdMode (text : String)
  | unknownOption (key : String)
  | optionType (key : String) (expected : Expected)
  | invalidInput (index entry : Nat)
  | invalidPattern (cause : PatternFault)
  | missingDerivative (op : Op)
  | unsupported (function : String) (what : Capability)
  | irregular (function : String) (report : Report)
  | external (function message : String)
  | violation (cause : Violation)
  deriving DecidableEq, Repr

def Fault.message? : Fault → Option String
  | .unresolvedSymbols function names =>
      let listed := ", ".intercalate names.toList
      some s!"cannot evaluate \"{function}\": free variables [{listed}]"
  | .nonScalarOutput what index nrow ncol =>
      some s!"only {what} of scalar outputs allowed, output {index} is {nrow}x{ncol}"
  | .inputCount function expected got => some s!"\"{function}\" has {expected} inputs, got {got}"
  | .length place index function expected got =>
      some s!"{place.text} {index} of \"{function}\" has {expected} nonzeros, got {got}"
  | .indexOutOfRange place index function available =>
      some s!"{place.text} index {index} out of range for \"{function}\" ({available} available)"
  | .unknownAdMode text =>
      some s!"unknown ad_mode \"{text}\", expected \"forward\", \"reverse\" or \"automatic\""
  | .unknownOption key => some s!"unknown option \"{key}\""
  | .optionType key expected => some s!"option \"{key}\" expects a {expected.text} value"
  | .invalidInput index entry =>
      some s!"input {index}, nonzero {entry} is not a distinct symbolic variable"
  | .invalidPattern cause => some s!"invalid sparsity pattern: {cause.text}"
  | .missingDerivative op => some s!"no derivative rule for {op.name}"
  | .unsupported function what => some s!"\"{function}\" does not support {what.text}"
  | .irregular function report => some s!"numerical irregularity in \"{function}\": {report.text}"
  | .external function message => some s!"external function \"{function}\" failed: {message}"
  | .violation cause => cause.text?

end Fluxion
