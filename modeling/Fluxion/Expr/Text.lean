import Std.Data.HashSet
import Fluxion.Expr.Basic

/-!
The text of an expression, and the number of its distinct nodes where the text would be too long.
-/
set_option autoImplicit false

namespace Fluxion.Expr

variable {K : Type}

/-- The sign that stands between the operands of the four basic operations. -/
def sign? : Op → Option String
  | .add => some "+"
  | .sub => some "-"
  | .mul => some "*"
  | .div => some "/"
  | _ => none

/-- The text in full, with brackets around every operation; constants are written by `number`. -/
def text (number : K → String) : Expr K → String
  | symbol s => s.name
  | const _ v => number v
  | unary _ op a =>
    if op = .neg then "(-" ++ a.text number ++ ")" else op.name ++ "(" ++ a.text number ++ ")"
  | binary _ op a b =>
    match sign? op with
    | some c => "(" ++ a.text number ++ c ++ b.text number ++ ")"
    | none => op.name ++ "(" ++ a.text number ++ "," ++ b.text number ++ ")"

/-- What is left of a stock of nodes after one for each node of the tree; nothing if it runs out. -/
def spend : Expr K → Nat → Option Nat
  | _, 0 => none
  | symbol _, n+1 | const _ _, n+1 => some n
  | unary _ _ a, n+1 => a.spend n
  | binary _ _ a b, n+1 => (a.spend n).bind b.spend

/-- The number of nodes below a list of expressions that are not counted yet. -/
def countNew (todo : List (Expr K)) (seen : Std.HashSet Nat) : Nat :=
  match todo with
  | [] => seen.size
  | e :: rest =>
    if seen.contains e.id then countNew rest seen
    else match e with
      | symbol s => countNew rest (seen.insert s.id)
      | const i _ => countNew rest (seen.insert i)
      | unary i _ a => countNew (a :: rest) (seen.insert i)
      | binary i _ a b => countNew (a :: b :: rest) (seen.insert i)
  termination_by todo.foldr (fun e n => e.size + n) 0
  decreasing_by
    all_goals
      have := size_pos e
      simp only [List.foldr_cons, size] at *
      omega

def distinctNodes (e : Expr K) : Nat := countNew [e] ∅

/-- The text, or the number of distinct nodes where the tree has more than `limit` nodes. -/
def brief (number : K → String) (limit : Nat) (e : Expr K) : String :=
  if (e.spend limit).isSome then e.text number else s!"#{e.distinctNodes}"

end Fluxion.Expr
