import MiniC.Files
import MiniC.Token.Lexer

/-!
# Macros

A macro stands for a list of tokens, with or without parameters. An environment
is a list of definitions, the newest first, so that a definition hides the ones
before it; the parameters of a macro are bound by putting their arguments in
front of the environment the macro is used in.
-/

namespace MiniC

/-- The meaning of a macro name. -/
inductive Macro where
  | object (body : List Lexed)
  | function (params : List String) (body : List Lexed)

/-- Why directives and macros of a token list cannot be carried out. -/
inductive MacroError where
  | lexical (error : LexicalError)
  | unreadable (path : String) (error : FileError)
  | expectedName
  | badParameterList
  | expectedPath
  | unknownDirective (name : String)
  | missingEndif
  | strayEndif
  | argumentCount (name : String) (expected found : Nat)
  | unterminatedCall (name : String)
  | nestingLimit (name : String)

namespace MacroError

def message : MacroError → String
  | lexical error => error.message
  | unreadable path error => s!"Failed to read include file `{path}`: {error.message}"
  | expectedName => "Expected a macro name"
  | badParameterList => "Expected a parameter name or `)` in macro parameter list"
  | expectedPath => "Expected \"file\" or <file> after #include"
  | unknownDirective name => s!"Unknown preprocessor directive `{name}`"
  | missingEndif => "Unterminated conditional, missing #endif"
  | strayEndif => "#endif without #ifdef or #ifndef"
  | argumentCount name expected found =>
    s!"Macro `{name}` expects {expected} arguments, {found} were given"
  | unterminatedCall name => s!"Unterminated argument list for macro `{name}`"
  | nestingLimit name =>
    s!"Expansion of `{name}` exceeds the nesting limit, the macro or include is probably recursive"

end MacroError

namespace Macro

/-- Definitions, the newest first. -/
abbrev Env := List (String × Macro)

namespace Env

def lookup? (env : Env) (name : String) : Option Macro :=
  (env.find? (·.1 == name)).map (·.2)

def define (env : Env) (name : String) (definition : Macro) : Env :=
  (name, definition) :: env

def undefine (env : Env) (name : String) : Env :=
  env.filter (·.1 != name)

/-- Binds parameters to arguments; of two parameters of one name the later one
counts. -/
def bind (env : Env) (params : List String) (args : List (List Lexed)) : Env :=
  (params.zip args).foldl (fun env (param, arg) => env.define param (.object arg)) env

def use? (env : Env) (token : Token) : Option (String × Macro) := do
  let name ← token.name?
  let definition ← env.lookup? name
  return (name, definition)

end Env

end Macro

end MiniC
