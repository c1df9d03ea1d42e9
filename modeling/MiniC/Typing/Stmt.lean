import MiniC.Typing.Expr

/-!
# Types in statements

Typing a statement gives its expressions their types, numbers the case labels
of a function, lists in every `switch` the labels of its body, and checks that
`break`, `continue` and labels stand where they may.
-/

namespace MiniC.Typing

/-- Whether a statement is in a loop, and whether it is in something that can be
broken out of. -/
structure Inside where
  loop : Bool := false
  breakable : Bool := false

/-- The next case label, and the labels of the innermost `switch` so far if
there is one. -/
structure Labels where
  next : Nat := 0
  cases : Option (List CaseLabel) := none

/-- A step of the walk over statements. -/
abbrev Walk := StateT Labels Result

def number (label : Option Nat) : Walk Nat :=
  modifyGet fun labels =>
    match label with
    | some label => (label, { labels with next := max labels.next (label + 1) })
    | none => (labels.next, { labels with next := labels.next + 1 })

/-- Adds a label to the innermost `switch`, where its value has to be new. -/
def register (loc : Location) (case : CaseLabel) : Walk Unit := do
  match (← get).cases with
  | none => throw ⟨.strayCase, loc⟩
  | some cases =>
    if cases.any (·.value == case.value) then
      match case.value with
      | some value => throw ⟨.duplicateCase value, loc⟩
      | none => throw ⟨.duplicateDefault, loc⟩
    else modify fun labels => { labels with cases := some (cases ++ [case]) }

/-- Runs a step in a `switch` of its own and answers with its labels as well. -/
def inSwitch {α : Type} (step : Walk α) : Walk (α × List CaseLabel) := do
  let outer := (← get).cases
  modify fun labels => { labels with cases := some [] }
  let a ← step
  let cases := (← get).cases.getD []
  modify fun labels => { labels with cases := outer }
  return (a, cases)

def condition (Γ : Context) (e : Expr) : Result Expr := do
  let e ← expr Γ e
  operand e
  return e

def returned (Γ : Context) (e : Expr) : Result Expr := do
  let e ← expr Γ e
  if e.ty.isVoid then fail .voidValue e.loc
  else if e.ty.isStruct then fail .structByValue e.loc
  else return e

def optional (type : Expr → Result Expr) : Option Expr → Result (Option Expr)
  | none => .ok none
  | some e => do return some (← type e)

mutual
/-- Gives the expressions of a statement their types, and its labels numbers. -/
def stmt (Γ : Context) (inside : Inside) : Stmt → Walk Stmt
  | .expr loc e => do return .expr loc (← expr Γ e)
  | .ret loc value => do return .ret loc (← optional (returned Γ) value)
  | .branch loc test yes no => do
    let test ← condition Γ test
    let yes ← stmt Γ inside yes
    let no ← optionalStmt Γ inside no
    return .branch loc test yes no
  | .whileLoop loc test body => do
    let test ← condition Γ test
    let body ← stmt Γ ⟨true, true⟩ body
    return .whileLoop loc test body
  | .doLoop loc body test => do
    let test ← condition Γ test
    let body ← stmt Γ ⟨true, true⟩ body
    return .doLoop loc body test
  | .forLoop loc init test step body => do
    let init ← optionalStmt Γ inside init
    let test ← optional (condition Γ) test
    let step ← optional (expr Γ) step
    let body ← stmt Γ ⟨true, true⟩ body
    return .forLoop loc init test step body
  | .switch loc value body _ => do
    let value ← condition Γ value
    let (body, cases) ← inSwitch (stmt Γ { inside with breakable := true } body)
    return .switch loc value body cases
  | .case loc value label body => do
    let label ← number label
    register loc ⟨some value, label⟩
    let body ← stmt Γ inside body
    return .case loc value (some label) body
  | .default loc label body => do
    let label ← number label
    register loc ⟨none, label⟩
    let body ← stmt Γ inside body
    return .default loc (some label) body
  | .exit loc => if inside.breakable then return .exit loc else throw ⟨.strayBreak, loc⟩
  | .next loc => if inside.loop then return .next loc else throw ⟨.strayContinue, loc⟩
  | .block loc body => do return .block loc (← stmts Γ inside body)
  | .null loc => return .null loc
def optionalStmt (Γ : Context) (inside : Inside) : Option Stmt → Walk (Option Stmt)
  | none => return none
  | some s => do return some (← stmt Γ inside s)
def stmts (Γ : Context) (inside : Inside) : List Stmt → Walk (List Stmt)
  | [] => return []
  | s :: rest => do
    let s ← stmt Γ inside s
    let rest ← stmts Γ inside rest
    return s :: rest
end

end MiniC.Typing
