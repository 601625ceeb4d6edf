import Fluxion.Calculus
import Fluxion.Graph
import Fluxion.Named
import Fluxion.Function.Instance

/-!
A workspace: a table of expression nodes and functions by name. Functions derived from one definition in
the same way share a definition for as long as one of them is there.
-/
set_option autoImplicit false

namespace Fluxion

/-- Why a step of a workspace has no answer. -/
inductive Refusal where
  | noFunction (name : String)
  | fault (cause : Fault)
  deriving DecidableEq, Repr

/-- A definition that stands on a callable, and how often the callable was asked for values and for a
Jacobian, in whatever function. -/
structure Caller where
  uid : Nat
  evaluations : Nat
  jacobians : Nat
  deriving DecidableEq, Repr

def Caller.count (j : Journal) (uid : Nat) (c : Caller) : Caller :=
  if c.uid = uid then ⟨uid, c.evaluations + j.evaluations, c.jacobians + j.jacobians⟩ else c

structure Workspace (K : Type) where
  graph : Graph K
  functions : Named (Instance K)
  /-- Derived definitions, by the number of the parent and what it was asked for. -/
  derived : List ((Nat × Request) × Definition K)
  callers : Named Caller
  /-- Warnings that were not read yet. -/
  warnings : Array String

namespace Workspace

variable {K : Type}

def empty : Workspace K := ⟨.empty, .empty, [], .empty, #[]⟩

/-- A step. What it changed before it was refused stays changed. -/
abbrev Step (K : Type) := ExceptT Refusal (StateM (Workspace K))

/-- Takes the warnings that are there. -/
def readWarnings : Step K (Array String) :=
  modifyGet fun w => (w.warnings, {w with warnings := #[]})

def check {α : Type} (r : Except Fault α) : Step K α := ExceptT.mk (pure (r.mapError Refusal.fault))

/-- Works on the table of nodes. -/
def onGraph {α : Type} (act : Graph.Extend K α) : Step K α := ExceptT.mk fun w =>
  let (r, graph) := StateT.run (m := Id) act.run w.graph
  (r.mapError Refusal.fault, {w with graph})

/-- Makes nodes or a definition. -/
def make {α : Type} (act : Make α) : Step K α := onGraph (Graph.fresh act)

def find (name : String) : Step K (Instance K) := do
  match (← get).functions.find? name with
  | some i => return i
  | none => throw (.noFunction name)

/-- Gives an instance a name and answers it. -/
def put (name : String) (i : Instance K) : Step K (Instance K) := do
  modify fun w => {w with functions := w.functions.put name i}
  return i

/-- A definition lives while a function stands on it. -/
def isAlive (w : Workspace K) (d : Definition K) : Bool :=
  w.functions.any fun i => i.definition.lineage.any (·.uid = d.uid)

/-- Takes a function away and tells whether it was there. -/
def drop (name : String) : Step K Bool := do
  let w ← get
  set {w with functions := w.functions.erase name}
  return (w.functions.find? name).isSome

def clone (name new : String) : Step K (Instance K) := do put new (← find name)

/-- Whether two functions share a definition. -/
def same (a b : String) : Step K Bool := do
  let a ← find a
  let b ← find b
  return a.definition.uid = b.definition.uid

/-- Runs an action of a function. -/
def run {α : Type} (name : String) (act : Definition K → Run K α) : Step K α := do
  let i ← find name
  let (r, i, journal) := i.run (act i.definition)
  modify fun w => {w with
    functions := w.functions.put name i
    callers := w.callers.map (.count journal i.definition.root.uid)
    warnings := w.warnings ++ journal.warnings}
  check r

def stats (name : String) : Step K Stats := do return (← find name).frame.stats

def resetStats (name : String) : Step K Stats := do
  let i ← find name
  return (← put name {i with frame := {i.frame with stats := .zero}}).frame.stats

/-- How often the callable under a name was asked. -/
def calls (name : String) : Step K Caller := do
  match (← get).callers.find? name with
  | some c => return c
  | none => throw (.noFunction name)

variable [Number K]

/-- A new function over expressions. -/
def define (name : String) (inputs outputs : Array (Matrix (Expr K))) (o : Options K) :
    Step K (Instance K) := do
  put name (← check (Instance.of? (← make (Definition.ofExpressions inputs outputs o))))

/-- A new function over a callable. -/
def wrap (name : String) (c : Callable K) (o : Options K) : Step K (Instance K) := do
  let d ← make (Definition.ofCallable c o)
  let i ← check (Instance.of? d)
  modify fun w => {w with callers := w.callers.put name ⟨d.uid, 0, 0⟩}
  put name i

/-- The definition of a derived function, if one is alive, else a new one. -/
def derivedDefinition (d : Definition K) (r : Request) : Step K (Definition K) := do
  let w ← get
  let alive := w.derived.filter fun (_, e) => w.isAlive e
  match alive.lookup (d.uid, r) with
  | some e => return e
  | none =>
    let e ← make (d.derive r)
    modify fun w => {w with derived := ((d.uid, r), e) :: alive}
    return e

/-- A new function derived from another one. -/
def derive (name new : String) (r : Request) : Step K (Instance K) := do
  let d := (← find name).definition
  check (d.checkRequest r)
  put new (← check (Instance.of? (← derivedDefinition d r)))

/-- The outputs of a function as expressions at symbolic arguments. -/
def outputsAt (name : String) (args : Array (Matrix (Expr K))) : Step K (Array (Matrix (Expr K))) := do
  make (Symbolic.outputsAt (← find name).definition args)

/-- Appends the entries of matrices to the table of nodes. -/
def append (ms : Array (Matrix (Expr K))) : Step K Unit :=
  onGraph (Graph.append (ms.flatMap (·.values)))

end Workspace

end Fluxion
