import MiniC.Macro.Expansion

/-!
# Directives

A `#` at the beginning of a line makes the rest of the line a directive. The
directives define and undefine macros, include files, and leave out parts of
the input; a part that is left out ends at the first `#endif`, whatever stands
in it.

`preprocess` carries out the directives of a token list and expands its macros.
It ends for the reason expansion does: an included file is looked at with fewer
nesting levels, and everything else takes input away.
-/

namespace MiniC.Macro

/-- The include directory and the files that can be read. -/
structure Includes where
  dir : String
  files : Files

/-- The macros defined so far, and the open conditionals whose condition held,
the innermost first. -/
structure State where
  env : Env := []
  conditionals : List Location := []

def takeLine (input : List Lexed) : List Lexed := input.takeWhile (!·.value.bol)

def dropLine (input : List Lexed) : List Lexed := input.dropWhile (!·.value.bol)

theorem dropLine_length_le (input : List Lexed) : (dropLine input).length ≤ input.length :=
  (List.dropWhile_sublist _).length_le

def isDirective (token : Token) : Bool := token.isPunct .hash && token.bol

def startsEndif : List Lexed → Bool
  | next :: _ => !next.value.bol && next.value.name? == some "endif"
  | [] => false

def skipConditional : List Lexed → Option (List Lexed)
  | [] => none
  | token :: rest =>
    if isDirective token.value && startsEndif rest then some (dropLine rest)
    else skipConditional rest

theorem skipConditional_length_le {input after : List Lexed}
    (h : skipConditional input = some after) : after.length ≤ input.length := by
  fun_induction skipConditional input with
  | case1 => cases h
  | case2 token rest _ =>
    cases h
    exact Nat.le_succ_of_le (dropLine_length_le rest)
  | case3 token rest _ ih => exact Nat.le_succ_of_le (ih h)

def macroName (hash : Location) : List Lexed → Except (Located MacroError) String
  | [] => .error ⟨.expectedName, hash⟩
  | token :: _ =>
    match token.value.name? with
    | some name => .ok name
    | none => .error ⟨.expectedName, token.loc⟩

/-- Parameter names up to the closing parenthesis, and the body after it. -/
def parameters (hash : Location) :
    List Lexed → Except (Located MacroError) (List String × List Lexed)
  | [] => .error ⟨.badParameterList, hash⟩
  | param :: rest =>
    match param.value.name?, rest with
    | none, _ => .error ⟨.badParameterList, param.loc⟩
    | some _, [] => .error ⟨.badParameterList, hash⟩
    | some name, mark :: rest =>
      if mark.value.isPunct .comma then do
        let (names, body) ← parameters hash rest
        return (name :: names, body)
      else if mark.value.isPunct .closeParen then .ok ([name], rest)
      else .error ⟨.badParameterList, mark.loc⟩

/-- The macro that the operands of a definition after its name describe. A
parenthesis right after the name opens a parameter list. -/
def definition (hash : Location) : List Lexed → Except (Located MacroError) Macro
  | [] => .ok (.object [])
  | first :: rest =>
    if first.value.isPunct .openParen then
      match rest with
      | next :: body =>
        if next.value.isPunct .closeParen then .ok (.function [] body)
        else do
          let (params, body) ← parameters hash (next :: body)
          return .function params body
      | [] => .error ⟨.badParameterList, hash⟩
    else .ok (.object (first :: rest))

def anglePath : List Lexed → Option String
  | [] => none
  | token :: rest =>
    if token.value.isPunct .gt then some ""
    else do
      let path ← anglePath rest
      return token.value.kind.spelling ++ path

def includePath (hash : Location) : List Lexed → Except (Located MacroError) String
  | [] => .error ⟨.expectedPath, hash⟩
  | first :: rest =>
    match first.value.kind with
    | .str path => .ok path
    | .punct .lt =>
      match anglePath rest with
      | some path => .ok path
      | none => .error ⟨.expectedPath, hash⟩
    | _ => .error ⟨.expectedPath, hash⟩

def load (includes : Includes) (hash : Location) (path : String) :
    Except (Located MacroError) (List Lexed) :=
  let path := joinPath includes.dir path
  match includes.files path with
  | .error error => .error ⟨.unreadable path error, hash⟩
  | .ok text => (Lexer.tokenize ⟨path, text⟩).mapError (·.map .lexical)

/-- What a directive asks for, with the input after it. -/
inductive Effect (rest : List Lexed) where
  | update (state : State) (after : List Lexed) (le : after.length ≤ rest.length)
  | insert (path : String) (after : List Lexed) (le : after.length ≤ rest.length)

def directiveName (token : Lexed) : Except (Located MacroError) String :=
  match token.value.kind with
  | .id name => .ok name
  | .keyword word => .ok word.spelling
  | kind => .error ⟨.unknownDirective kind.spelling, token.loc⟩

/-- Reads the directive of the `#` at `hash`, before the input `rest`. -/
def directive (state : State) (hash : Location) (rest : List Lexed) :
    Except (Located MacroError) (Effect rest) :=
  let after := dropLine rest
  let le := dropLine_length_le rest
  match takeLine rest with
  | [] => .ok (.update state after le)
  | word :: line => do
    let name ← directiveName word
    match name with
    | "define" =>
      let defined ← macroName hash line
      let body ← definition hash (line.drop 1)
      return .update { state with env := state.env.define defined body } after le
    | "undef" =>
      let defined ← macroName hash line
      return .update { state with env := state.env.undefine defined } after le
    | "include" =>
      let path ← includePath hash line
      return .insert path after le
    | "ifdef" | "ifndef" =>
      let known := (state.env.lookup? (← macroName hash line)).isSome
      if known == (name == "ifdef") then
        return .update { state with conditionals := hash :: state.conditionals } after le
      else
        match skipped : skipConditional after with
        | some left =>
          return .update state left (Nat.le_trans (skipConditional_length_le skipped) le)
        | none => throw ⟨.missingEndif, hash⟩
    | "endif" =>
      match state.conditionals with
      | _ :: outer => return .update { state with conditionals := outer } after le
      | [] => throw ⟨.strayEndif, hash⟩
    | _ => throw ⟨.unknownDirective name, word.loc⟩

/-- Carries out directives and expands macros at the front of `input`, with
`levels` levels left, until at most `floor` tokens of it remain. -/
def run (includes : Includes) (levels : Nat) (state : State) (floor : Nat)
    (input : List Lexed) :
    Except (Located MacroError)
      (List Lexed × State × { rest : List Lexed // rest.length ≤ floor }) :=
  match input with
  | [] => .ok ([], state, ⟨[], Nat.zero_le _⟩)
  | token :: rest =>
    if h : (token :: rest).length ≤ floor then .ok ([], state, ⟨token :: rest, h⟩)
    else if isDirective token.value then
      match directive state token.loc rest with
      | .error error => .error error
      | .ok (.update state after _) => run includes levels state floor after
      | .ok (.insert path after _) =>
        match levels with
        | 0 => .error ⟨.nestingLimit path, token.loc⟩
        | levels + 1 => do
          let tokens ← load includes token.loc path
          let (front, state, ⟨next, _⟩) ←
            run includes levels state after.length (tokens ++ after)
          let (output, state, left) ← run includes (levels + 1) state floor next
          return (front ++ output, state, left)
    else
      match expandUse levels state.env token rest with
      | .error error => .error error
      | .ok none => do
        let (output, state, left) ← run includes levels state floor rest
        return (token :: output, state, left)
      | .ok (some ⟨tokens, after, _, deeper, _⟩) => do
        let (front, state, ⟨next, _⟩) ←
          run includes deeper state after.length (tokens ++ after)
        let (output, state, left) ← run includes levels state floor next
        return (front ++ output, state, left)
termination_by (levels, input.length)

/-- The tokens of an input with its directives carried out and its macros
expanded. -/
def preprocess (includes : Includes) (tokens : List Lexed) :
    Except (Located MacroError) (List Lexed) := do
  let (output, state, _) ← run includes maxDepth {} 0 tokens
  match state.conditionals with
  | [] => return output
  | loc :: _ => throw ⟨.missingEndif, loc⟩

end MiniC.Macro
