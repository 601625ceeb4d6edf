import Fluxion.Mode
import Fluxion.Record

/-!
Options of a function, set one by one under their names or read from a record.
-/
set_option autoImplicit false

namespace Fluxion

structure Options (K : Type) where
  name : String
  adMode : AdMode
  /-- Jacobians by one directional derivative for each entry, not by symbols and a coloring. -/
  numericJacobian : Bool
  /-- The same for the gradient behind a Hessian. -/
  numericHessian : Bool
  forwardDirections : Nat
  adjointDirections : Nat
  maxForward : Nat
  maxAdjoint : Nat
  /-- A work slot is used again once its value is dead. -/
  liveVariables : Bool
  sorting : Sorting
  /-- Values that are not finite are a fault, not a warning. -/
  regularityCheck : Bool
  /-- Directions whose seed is zero are not swept. -/
  compressDirections : Bool
  hierarchicalSparsity : Bool
  /-- Symbols that are no inputs are accepted. -/
  allowFree : Bool
  /-- Weight of a reverse sweep relative to a forward sweep. -/
  adjointPenalty : Nat
  /-- Relative step of finite differences. -/
  step : K
  deriving BEq, Repr

/-- A value that an option may be set to. -/
inductive OptionValue (K : Type) where
  | bool (b : Bool)
  | integer (n : Nat)
  | float (x : K)
  | text (s : String)

namespace OptionValue

variable {K : Type}

def toBool (key : String) : OptionValue K → Except Fault Bool
  | bool b => return b
  | _ => throw (.optionType key .boolean)

def toNat (key : String) : OptionValue K → Except Fault Nat
  | integer n => return n
  | _ => throw (.optionType key .integer)

def toText (key : String) : OptionValue K → Except Fault String
  | text s => return s
  | _ => throw (.optionType key .string)

def toFloat (key : String) : OptionValue K → Except Fault K
  | float x => return x
  | _ => throw (.optionType key .float)

end OptionValue

namespace Options

variable {K : Type}

def standard (step : K) : Options K where
  name := "unnamed_function"
  adMode := .automatic
  numericJacobian := false
  numericHessian := false
  forwardDirections := 1
  adjointDirections := 1
  maxForward := 64
  maxAdjoint := 64
  liveVariables := true
  sorting := .depthFirst
  regularityCheck := true
  compressDirections := true
  hierarchicalSparsity := true
  allowFree := false
  adjointPenalty := 2
  step

/-- The standard options for doubles, with a step of a millionth. -/
def double : Options Float := standard 1e-6

def named (o : Options K) (name : String) : Options K := {o with name}

/-- Sets the option that is stored under `key`. -/
def set (o : Options K) (key : String) (v : OptionValue K) : Except Fault (Options K) :=
  match key with
  | "name" => return {o with name := ← v.toText key}
  | "ad_mode" => return {o with adMode := ← AdMode.parse (← v.toText key)}
  | "numeric_jacobian" => return {o with numericJacobian := ← v.toBool key}
  | "numeric_hessian" => return {o with numericHessian := ← v.toBool key}
  | "number_of_fwd_dir" => return {o with forwardDirections := ← v.toNat key}
  | "number_of_adj_dir" => return {o with adjointDirections := ← v.toNat key}
  | "max_number_of_fwd_dir" => return {o with maxForward := ← v.toNat key}
  | "max_number_of_adj_dir" => return {o with maxAdjoint := ← v.toNat key}
  | "live_variables" => return {o with liveVariables := ← v.toBool key}
  | "topological_sorting" => return {o with sorting := ← Sorting.parse (← v.toText key)}
  | "regularity_check" => return {o with regularityCheck := ← v.toBool key}
  | "compress_directions" => return {o with compressDirections := ← v.toBool key}
  | "hierarchical_sparsity" => return {o with hierarchicalSparsity := ← v.toBool key}
  | "allow_free" => return {o with allowFree := ← v.toBool key}
  | "adjoint_penalty" => return {o with adjointPenalty := ← v.toNat key}
  | "fd_step" => return {o with step := ← v.toFloat key}
  | _ => throw (.unknownOption key)

/-- Forward directions allocated at the start. -/
def initialForward (o : Options K) : Nat := min o.forwardDirections o.maxForward

def initialAdjoint (o : Options K) : Nat := min o.adjointDirections o.maxAdjoint

variable [Number K]

/-- The stored form, under the same names as `set`. -/
def record (o : Options K) : Record K :=
  .fields [
    ("name", .text o.name),
    ("ad_mode", .text o.adMode.text),
    ("numeric_jacobian", .bool o.numericJacobian),
    ("numeric_hessian", .bool o.numericHessian),
    ("number_of_fwd_dir", .ofNat o.forwardDirections),
    ("number_of_adj_dir", .ofNat o.adjointDirections),
    ("max_number_of_fwd_dir", .ofNat o.maxForward),
    ("max_number_of_adj_dir", .ofNat o.maxAdjoint),
    ("live_variables", .bool o.liveVariables),
    ("topological_sorting", .text o.sorting.text),
    ("regularity_check", .bool o.regularityCheck),
    ("compress_directions", .bool o.compressDirections),
    ("hierarchical_sparsity", .bool o.hierarchicalSparsity),
    ("allow_free", .bool o.allowFree),
    ("adjoint_penalty", .ofNat o.adjointPenalty),
    ("fd_step", .ofNumber o.step)]

def fieldNames : List String :=
  ["name", "ad_mode", "numeric_jacobian", "numeric_hessian", "number_of_fwd_dir",
    "number_of_adj_dir", "max_number_of_fwd_dir", "max_number_of_adj_dir", "live_variables",
    "topological_sorting", "regularity_check", "compress_directions", "hierarchical_sparsity",
    "allow_free", "adjoint_penalty", "fd_step"]

/-- Reads the stored form. A missing field keeps the value it has in `o`; unknown fields are ignored. -/
def ofRecord? (o : Options K) (r : Record K) : Option (Options K) := do
  let items ← r.structure? fieldNames
  return {
    name := ← Record.fieldOr items "name" o.name Record.text?
    adMode := ← Record.fieldOr items "ad_mode" o.adMode (·.choice?.bind AdMode.ofText?)
    numericJacobian := ← Record.fieldOr items "numeric_jacobian" o.numericJacobian Record.bool?
    numericHessian := ← Record.fieldOr items "numeric_hessian" o.numericHessian Record.bool?
    forwardDirections :=
      ← Record.fieldOr items "number_of_fwd_dir" o.forwardDirections Record.count?
    adjointDirections :=
      ← Record.fieldOr items "number_of_adj_dir" o.adjointDirections Record.count?
    maxForward := ← Record.fieldOr items "max_number_of_fwd_dir" o.maxForward Record.count?
    maxAdjoint := ← Record.fieldOr items "max_number_of_adj_dir" o.maxAdjoint Record.count?
    liveVariables := ← Record.fieldOr items "live_variables" o.liveVariables Record.bool?
    sorting := ← Record.fieldOr items "topological_sorting" o.sorting (·.choice?.bind Sorting.ofText?)
    regularityCheck := ← Record.fieldOr items "regularity_check" o.regularityCheck Record.bool?
    compressDirections :=
      ← Record.fieldOr items "compress_directions" o.compressDirections Record.bool?
    hierarchicalSparsity :=
      ← Record.fieldOr items "hierarchical_sparsity" o.hierarchicalSparsity Record.bool?
    allowFree := ← Record.fieldOr items "allow_free" o.allowFree Record.bool?
    adjointPenalty := ← Record.fieldOr items "adjoint_penalty" o.adjointPenalty Record.count?
    step := ← Record.fieldOr items "fd_step" o.step Record.number? }

end Options

end Fluxion
