import Fluxion.Count
import Fluxion.Record
import Fluxion.Tape.Basic

/-!
The stored form of a tape, and the checks that a stored tape has to pass before it may run.
-/
set_option autoImplicit false

namespace Fluxion.Tape

variable {K : Type}

/-- Why a tape cannot be stored, or a record is no tape. -/
inductive StoreFault where
  | freeSymbols
  | malformed
  | columnLengths
  | refersToFree
  | notOrdered
  | noRoom
  deriving DecidableEq, Repr

def StoreFault.text? : StoreFault → Option String
  | .freeSymbols =>
      some "cannot serialize a Tape with free variables; substitute them before sorting"
  | .malformed | .noRoom => none
  | .columnLengths => some "tape columns have different lengths"
  | .refersToFree => some "serialized tape refers to free variables"
  | .notOrdered => some "tape is not a valid topological order"

/-- A tape is stored by columns. Its free symbols have no stored form. -/
def record [Number K] (t : Tape K) : Except StoreFault (Record K) :=
  if !t.free.isEmpty then throw .freeSymbols
  else return .fields [
    ("opcodes", .ofList (fun el => .text el.op.tag) t.elements),
    ("arg_indices", .ofList (fun el => .list [.ofNat el.left, .ofNat el.right]) t.elements),
    ("results", .ofList (fun el => .ofNat el.result) t.elements),
    ("constants", .ofList (fun el => .ofNumber el.value) t.elements),
    ("worksize", .ofNat t.worksize),
    ("input_nnz", .ofList .ofNat t.inputSizes),
    ("output_nnz", .ofList .ofNat t.outputSizes)]

/-- Slots and positions are stored in half a word. -/
def index? : Record K → Option Nat := Record.natural? UInt32.size

def operands? : Record K → Option (Nat × Nat)
  | .list [a,b] => do return (← index? a, ← index? b)
  | _ => none

/-- The columns of a record, each of the right kind. -/
structure Columns (K : Type) where
  ops : Array Op
  operands : Array (Nat × Nat)
  results : Array Nat
  values : Array K
  worksize : Nat
  inputSizes : Array Nat
  outputSizes : Array Nat

def Columns.names : List String :=
  ["opcodes", "arg_indices", "results", "constants", "worksize", "input_nnz", "output_nnz"]

def Columns.ofRecord? [Number K] (r : Record K) : Option (Columns K) := do
  let items ← r.structure? Columns.names
  return {
    ops := ← Record.field? items "opcodes" (Record.listOf? (·.choice?.bind Op.ofTag?))
    operands := ← Record.field? items "arg_indices" (Record.listOf? operands?)
    results := ← Record.field? items "results" (Record.listOf? index?)
    values := ← Record.field? items "constants" (Record.listOf? Record.number?)
    worksize := ← Record.field? items "worksize" Record.count?
    inputSizes := ← Record.field? items "input_nnz" (Record.listOf? Record.count?)
    outputSizes := ← Record.field? items "output_nnz" (Record.listOf? Record.count?) }

def Columns.elements (c : Columns K) : Array (Element K) :=
  ((c.ops.zip c.operands).zip (c.results.zip c.values)).map fun ((op, left, right), result, value) =>
    ⟨op, result, left, right, value⟩

/-- Every load is from an entry of an input. -/
def loadsInRange (t : Tape K) : Bool :=
  t.elements.all fun el => el.op != .input || el.right < t.inputSizes.getD el.left 0

/-- Checking the order takes a mark, one byte, for each slot and for each output entry. -/
def hasRoom (t : Tape K) : Bool :=
  Count.hasRoom t.worksize 1 && t.outputSizes.all (Count.hasRoom · 1)

/-- Reads a stored tape, and refuses one that could read or write astray. -/
def ofRecord [Number K] (r : Record K) : Except StoreFault (Tape K) := do
  let some c := Columns.ofRecord? r | throw .malformed
  let n := c.ops.size
  if c.operands.size ≠ n || c.results.size ≠ n || c.values.size ≠ n then throw .columnLengths
  if c.ops.contains .parameter then throw .refersToFree
  let t : Tape K := ⟨c.elements, c.worksize, c.inputSizes, c.outputSizes, #[]⟩
  if !t.loadsInRange then throw .notOrdered
  if !t.hasRoom then throw .noRoom
  if t.isOrdered then return t else throw .notOrdered

end Fluxion.Tape
