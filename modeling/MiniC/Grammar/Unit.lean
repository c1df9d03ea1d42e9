import MiniC.Grammar.Statement

/-!
# Programs

The declarations of a program, one after the other, and `parse`, which reads a
whole token list.

The bounds of the grammar all come from the number of tokens: a phrase nested
in another follows a token of it, and every round of a loop takes one.
-/

namespace MiniC

namespace Grammar

open Parse

variable (below : Below)

/-- One more parameter, which a prototype may leave without a name, or the dots
that allow more arguments. -/
def parameterPart (params : List Nat) : Parse (Round (List Nat) (List Nat × Bool)) := do
  if ← eat .ellipsis then
    expect .closeParen
    return .done (params, true)
  else
    let spec ← declSpec below
    let ty ← pointers below spec.ty
    let name := (← identifier?).getD ⟨"", ← here⟩
    let ty ← typeSuffix below ty
    let params := params ++ [← modifyGet (·.declareLocal name ty.decay)]
    if ← eat .comma then return .more params
    else
      expect .closeParen
      return .done (params, false)

/-- The parameters of a function after its opening parenthesis, and whether more
arguments may follow. -/
def parameters : Parse (List Nat × Bool) := do
  if (← peek?) == some (.keyword .void) && (← get).peekAt? 1 == some (.punct .closeParen) then
    advance
    advance
    return ([], false)
  else if ← eat .closeParen then return ([], false)
  else loop below (parameterPart below) []

/-- The body of a function, or nothing for a prototype. A function has one body
at most. -/
def functionBody (name : Located String) : Parse (Option Stmt) := do
  if ← eat .semicolon then return none
  else if (← get).functions.any (fun other => other.name == name.value && other.body.isSome) then
    fail (.functionRedefinition name.value) name.loc
  else return some (← compound below (statement below (below.limit + 1)))

/-- The parameters and the body of a function, which is added to the program. -/
def functionRest (spec : DeclSpec) (ret : CType) (name : Located String) : Parse Unit := do
  expect .openParen
  let (params, isVariadic) ← parameters below
  let body ← functionBody below name
  modify fun s => { s with
    locals := []
    functions := s.functions ++ [{
      name := name.value
      ret, params, body, isVariadic
      locals := s.locals
      isStatic := spec.isStatic
      loc := name.loc }] }

def function (spec : DeclSpec) (ret : CType) (name : Located String) : Parse Unit := do
  modify fun s => { s with locals := [] }
  inBlock (functionRest below spec ret name)

def globalVariable (spec : DeclSpec) (name : Located String) (ty : CType) : Parse Unit := do
  let init ← initializer? below ty
  let s ← get
  let ty ← Parse.ofExcept (Init.inferLength s.structs ty init)
  unless spec.isExtern || s.structs.isComplete ty do fail (.incomplete name.value ty) name.loc
  let image ← match init with
    | some init => do pure (some (← Parse.ofExcept (init.image ⟨s.structs, s.globals⟩ ty)))
    | none => pure none
  let global : Global := {
    name := name.value
    ty
    init := image
    isExtern := spec.isExtern
    isStatic := spec.isStatic
    loc := name.loc }
  match (← get).defineGlobal global with
  | some s => set s
  | none => fail (.redefinition name.value) name.loc

/-- One global variable, after its name and its stars, and those of the next one,
if there is one. -/
def globalPart (spec : DeclSpec) (start : Located String × CType) :
    Parse (Round (Located String × CType) Unit) := do
  let ty ← typeSuffix below start.2
  globalVariable below spec start.1 ty
  if ← eat .comma then
    let ty ← pointers below spec.ty
    return .more (← identifier, ty)
  else
    expect .semicolon
    return .done ()

/-- The global variables of a declaration, after the name and the stars of the
first one. -/
def globalVariables (spec : DeclSpec) (name : Located String) (ty : CType) : Parse Unit :=
  loop below (globalPart below spec) (name, ty)

/-- One declaration of a program: types alone, a typedef, a function, or global
variables. -/
def topLevel : Parse Unit := do
  let spec ← declSpec below
  if spec.isTypedef then typedefNames below spec.ty
  else if ← eat .semicolon then return ()
  else
    let ty ← pointers below spec.ty
    let name ← identifier
    if ← isAt .openParen then function below spec ty name
    else globalVariables below spec name ty

def topLevelPart (_ : Unit) : Parse (Round Unit Unit) := do
  if (← peek?).isNone then return .done ()
  else
    topLevel below
    return .more ()

def topLevels : Parse Unit := loop below (topLevelPart below) ()

end Grammar

namespace Program

/-- Reads the tokens of a source as a program, with the given rules for nested
phrases. -/
def parseWith (below : Below) (source : Source) (tokens : List Lexed) :
    Except (Located SyntaxError) Program :=
  let start := Location.atStart source
  match Grammar.topLevels below { tokens, last := start } with
  | .ok _ s => .ok {
      functions := s.functions
      globals := s.globals
      strings := s.strings
      structs := s.structs
      loc := start }
  | .error error _ => .error error

def parse (source : Source) (tokens : List Lexed) : Except (Located SyntaxError) Program :=
  parseWith (.upTo tokens.length) source tokens

end Program

end MiniC
