import MiniC.Grammar.State

/-!
# Parsing actions

Parsing steps on a state. A step that fails keeps the state it failed in.

The loops of the grammar are written with `iterate`, which is given a bound on
the number of rounds and an error for the case that it is used up. Every round of
every loop takes a token, so a bound above the number of tokens is never used up.
-/

namespace MiniC

/-- A parsing step. -/
abbrev Parse := EStateM (Located SyntaxError) ParseState

/-- How a round of a loop ends. -/
inductive Round (α β : Type) where
  | more (next : α)
  | done (result : β)

namespace Parse

variable {α β : Type}

def fail (error : SyntaxError) (loc : Location) : Parse α := throw ⟨error, loc⟩

def stop (error : SyntaxError) : Parse α := do fail error (← get).last

def endOfInput : Parse α := stop .endOfInput

def ofExcept : Except (Located SyntaxError) α → Parse α
  | .ok a => pure a
  | .error error => throw error

def peek? : Parse (Option TokenKind) := return (← get).peekAt? 0

def isAt (mark : Punct) : Parse Bool := return (← peek?) == some (.punct mark)

def advance : Parse Unit :=
  modify fun s =>
    match s.tokens with
    | token :: rest => { s with tokens := rest, last := token.loc }
    | [] => s

def eatKind (kind : TokenKind) : Parse Bool := do
  if (← peek?) == some kind then
    advance
    return true
  else return false

def eat (mark : Punct) : Parse Bool := eatKind (.punct mark)

def unexpected (expected : String) : Parse α := do
  match (← get).tokens with
  | token :: _ => fail (.unexpected expected token.value.kind) token.loc
  | [] => endOfInput

def expect (mark : Punct) : Parse Unit := do
  unless ← eat mark do unexpected s!"`{mark.spelling}`"

def expectKeyword (word : Keyword) : Parse Unit := do
  unless ← eatKind (.keyword word) do unexpected s!"`{word.spelling}`"

def next : Parse Lexed := do
  match (← get).tokens with
  | token :: _ =>
    advance
    return token
  | [] => endOfInput

def identifier : Parse (Located String) := do
  let token ← next
  match token.value.kind with
  | .id name => return ⟨name, token.loc⟩
  | found => fail (.expectedId found) token.loc

def identifier? : Parse (Option (Located String)) := do
  match ← peek? with
  | some (.id _) => return some (← identifier)
  | _ => return none

def here : Parse Location := return (← get).here

def spanFrom (start : Location) : Parse Location := return start.span (← get).last

/-- Runs a step in a block of its own, which is left however the step ends. -/
def inBlock (step : Parse α) : Parse α := fun s =>
  match step { s with scope := s.scope.enter } with
  | .ok a s => .ok a { s with scope := s.scope.leave }
  | .error error s => .error error { s with scope := s.scope.leave }

def iterate (stuck : SyntaxError) (rounds : Nat) (step : α → Parse (Round α β)) (a : α) :
    Parse β :=
  match rounds with
  | 0 => stop stuck
  | rounds + 1 => do
    match ← step a with
    | .more a => iterate stuck rounds step a
    | .done b => return b

end Parse

end MiniC
