import MiniC.Program.Expr

/-!
# Statements

Statement trees. A `switch` lists the labels of its body once the program has
been typed; until then its cases have no labels.
-/

namespace MiniC

/-- A label of a `switch`: the value it is for, or none for `default`. -/
structure CaseLabel where
  value : Option Int64
  label : Nat
deriving DecidableEq

/-- A statement. -/
inductive Stmt where
  | expr (loc : Location) (value : Expr)
  | ret (loc : Location) (value : Option Expr)
  | branch (loc : Location) (test : Expr) (yes : Stmt) (no : Option Stmt)
  | whileLoop (loc : Location) (test : Expr) (body : Stmt)
  | doLoop (loc : Location) (body : Stmt) (test : Expr)
  | forLoop (loc : Location) (init : Option Stmt) (test step : Option Expr) (body : Stmt)
  | switch (loc : Location) (value : Expr) (body : Stmt) (cases : List CaseLabel)
  | case (loc : Location) (value : Int64) (label : Option Nat) (body : Stmt)
  | default (loc : Location) (label : Option Nat) (body : Stmt)
  | exit (loc : Location)
  | next (loc : Location)
  | block (loc : Location) (stmts : List Stmt)
  | null (loc : Location)

namespace Stmt

def loc : Stmt → Location
  | expr loc _ | ret loc _ | branch loc .. | whileLoop loc .. | doLoop loc .. | forLoop loc ..
  | switch loc .. | case loc .. | default loc .. | exit loc | next loc | block loc _
  | null loc => loc

end Stmt

end MiniC
