import MiniC.Grammar.Initializer

/-!
# Statements and local declarations

A local declaration leaves no statement of its own: an initializer becomes a
statement that assigns, at the place of the variable's name, and a declaration
without one leaves nothing.

The rules take the rule for a nested statement as a parameter. `statement`
supplies it, for statements nested less than a given number deep.
-/

namespace MiniC.Grammar

open Parse

variable (below : Below)

def typedefPart (base : CType) (_ : Unit) : Parse (Round Unit Unit) := do
  let (name, ty) ← declarator below base
  modify fun s => { s with scope := s.scope.addTypedef name.value ty }
  if ← eat .comma then return .more ()
  else
    expect .semicolon
    return .done ()

def typedefNames (base : CType) : Parse Unit := do
  if ← eat .semicolon then return () else loop below (typedefPart below base) ()

/-- One local variable and the statement that initializes it, if there is one. -/
def localVariable (base : CType) : Parse (Option Stmt) := do
  let (name, ty) ← declarator below base
  let init ← initializer? below ty
  let σ := (← get).structs
  let ty ← Parse.ofExcept (Init.inferLength σ ty init)
  unless σ.isComplete ty do fail (.incomplete name.value ty) name.loc
  let index ← modifyGet (·.declareLocal name ty)
  match init with
  | none => return none
  | some init =>
    let chain ← Parse.ofExcept (init.toExpr? σ (.var ⟨.void, name.loc⟩ index) ty)
    return chain.map (.expr name.loc)

/-- One more variable of a declaration, after the statements for the ones before. -/
def variablePart (base : CType) (stmts : List Stmt) : Parse (Round (List Stmt) (List Stmt)) := do
  let stmts := stmts ++ (← localVariable below base).toList
  if ← eat .comma then return .more stmts
  else
    expect .semicolon
    return .done stmts

/-- A local declaration, with the statements that initialize its variables. -/
def declaration : Parse (List Stmt) := do
  let start ← here
  let spec ← declSpec below
  if spec.isTypedef then
    typedefNames below spec.ty
    return []
  else if spec.isStatic ∨ spec.isExtern then
    fail (.unsupported "storage class on a local variable") start
  else if ← eat .semicolon then return []
  else loop below (variablePart below spec.ty) []

def parenthesized : Parse Expr := do
  expect .openParen
  let e ← expr below
  expect .closeParen
  return e

def exprBefore? (mark : Punct) : Parse (Option Expr) := do
  if ← isAt mark then return none else return some (← expr below)

variable (nested : Parse Stmt)

/-- One more declaration or statement of a block, or the closing brace. -/
def blockPart (stmts : List Stmt) : Parse (Round (List Stmt) (List Stmt)) := do
  if ← eat .closeCurly then return .done stmts
  else if (← get).startsType 0 then return .more (stmts ++ (← declaration below))
  else return .more (stmts ++ [← nested])

def blockRest (start : Location) : Parse Stmt := do
  let stmts ← loop below (blockPart below nested) []
  return .block (← spanFrom start) stmts

def compound : Parse Stmt := do
  expect .openCurly
  let start := (← get).last
  inBlock (blockRest below nested start)

def forInit : Parse (Option Stmt) := do
  let start ← here
  if (← get).startsType 0 then return some (.block start (← declaration below))
  else if ← eat .semicolon then return none
  else
    let e ← expr below
    expect .semicolon
    return some (.expr start e)

def forRest (start : Location) : Parse Stmt := do
  let init ← forInit below
  let test ← exprBefore? below .semicolon
  expect .semicolon
  let step ← exprBefore? below .closeParen
  expect .closeParen
  let body ← nested
  return .forLoop (← spanFrom start) init test step body

/-- A `for` loop. What its first part declares is visible in the loop alone. -/
def forStatement : Parse Stmt := do
  let start ← here
  advance
  expect .openParen
  inBlock (forRest below nested start)

/-- What follows the keyword of a statement other than `for`; nothing, if the
keyword starts no statement. The answer still needs its place. -/
def keywordStatement? : Keyword → Option (Parse (Location → Stmt))
  | .returnWord => some do
    if ← eat .semicolon then return (.ret · none)
    else
      let e ← expr below
      expect .semicolon
      return (.ret · (some e))
  | .ifWord => some do
    let test ← parenthesized below
    let yes ← nested
    if ← eatKind (.keyword .elseWord) then
      let no ← nested
      return (.branch · test yes (some no))
    else return (.branch · test yes none)
  | .whileWord => some do
    let test ← parenthesized below
    let body ← nested
    return (.whileLoop · test body)
  | .doWord => some do
    let body ← nested
    expectKeyword .whileWord
    let test ← parenthesized below
    expect .semicolon
    return (.doLoop · body test)
  | .switch => some do
    let value ← parenthesized below
    let body ← nested
    return (.switch · value body [])
  | .case => some do
    let e ← conditional below
    let value ← Parse.ofExcept (Constant.eval e)
    expect .colon
    let body ← nested
    return (.case · value none body)
  | .default => some do
    expect .colon
    let body ← nested
    return (.default · none body)
  | .breakWord => some do
    expect .semicolon
    return .exit
  | .continueWord => some do
    expect .semicolon
    return .next
  | _ => none

def plainStatement : Parse (Location → Stmt) := do
  if ← eat .semicolon then return .null
  else
    let e ← expr below
    expect .semicolon
    return (.expr · e)

def statementOver : Parse Stmt := do
  let start ← here
  match ← peek? with
  | some (.punct .openCurly) => compound below nested
  | some (.keyword .forWord) => forStatement below nested
  | some (.keyword word) =>
    match keywordStatement? below nested word with
    | some rest =>
      advance
      let node ← rest
      return node (← spanFrom start)
    | none =>
      let node ← plainStatement below
      return node (← spanFrom start)
  | _ =>
    let node ← plainStatement below
    return node (← spanFrom start)

def statement : Nat → Parse Stmt
  | 0 => stop below.stuck
  | depth + 1 => fun s => statementOver below (statement depth) s

end MiniC.Grammar
