import MiniC.Macro

/-!
# Macro expansion

A macro name is replaced by its body, which is looked at again, one nesting
level deeper; the tokens of a body may take their arguments from the input that
follows the use. A macro with parameters first expands its body with the
parameters bound, apart from the input, and the result is looked at again.

`drain` looks at the front of an input until no more than `floor` tokens are
left of it: the tokens above the floor are the ones of the current level. It
ends because a use goes on with fewer levels and every other step with less
input.
-/

namespace MiniC.Macro

def maxDepth : Nat := 256

/-- Puts a token at the front of the first of several arguments. -/
def consFirst (token : Lexed) : List (List Lexed) → List (List Lexed)
  | [] => [[token]]
  | arg :: args => (token :: arg) :: args

/-- The arguments of a call after its opening parenthesis, and the input after
its closing one. Commas inside `nesting` more parentheses do not separate. -/
def splitArgs : Nat → List Lexed → Option (List (List Lexed) × List Lexed)
  | _, [] => none
  | nesting, token :: rest =>
    if nesting = 0 ∧ token.value.isPunct .closeParen then some ([[]], rest)
    else if nesting = 0 ∧ token.value.isPunct .comma then do
      let (args, after) ← splitArgs 0 rest
      return ([] :: args, after)
    else
      let deeper :=
        if token.value.isPunct .openParen then nesting + 1
        else if token.value.isPunct .closeParen then nesting - 1
        else nesting
      do
        let (args, after) ← splitArgs deeper rest
        return (consFirst token args, after)

theorem splitArgs_length_le {nesting : Nat} {input after : List Lexed}
    {args : List (List Lexed)} (h : splitArgs nesting input = some (args, after)) :
    after.length ≤ input.length := by
  fun_induction splitArgs nesting input generalizing args after with
  | case1 => cases h
  | case2 => cases h; simp
  | case3 | case4 =>
    rename_i ih
    simp only [bind, Option.bind, pure] at h
    split at h
    · cases h
    · next heq =>
      cases h
      have := ih heq
      simp only [List.length_cons]
      omega

/-- What a use of a macro stands for: a body to be looked at again, or one that
is first expanded in an environment of its own. -/
inductive Invocation where
  | plain (body : List Lexed)
  | bound (env : Env) (body : List Lexed)

/-- The invocation a use of a macro makes, and the input after it. A macro with
parameters that is not followed by a parenthesis is no use. -/
def invoke (env : Env) (name : String) (definition : Macro) (loc : Location)
    (rest : List Lexed) :
    Except (Located MacroError)
      (Option (Invocation × { after : List Lexed // after.length ≤ rest.length })) :=
  match definition with
  | .object body => .ok (some (.plain body, ⟨rest, Nat.le_refl _⟩))
  | .function params body =>
    match rest with
    | [] => .ok none
    | next :: inner =>
      if next.value.isPunct .openParen then
        match split : splitArgs 0 inner with
        | none => .error ⟨.unterminatedCall name, loc⟩
        | some (args, after) =>
          let args := if params.isEmpty ∧ args matches [[]] then [] else args
          if args.length = params.length then
            .ok (some (.bound (env.bind params args) body,
              ⟨after, Nat.le_succ_of_le (splitArgs_length_le split)⟩))
          else .error ⟨.argumentCount name params.length args.length, loc⟩
      else .ok none

/-- Expands the front of `input`, with `levels` levels left, until at most
`floor` tokens of it remain. -/
def drain (levels : Nat) (env : Env) (floor : Nat) (input : List Lexed) :
    Except (Located MacroError) (List Lexed × { rest : List Lexed // rest.length ≤ floor }) :=
  match input with
  | [] => .ok ([], ⟨[], Nat.zero_le _⟩)
  | token :: rest =>
    if h : (token :: rest).length ≤ floor then .ok ([], ⟨token :: rest, h⟩)
    else match env.use? token.value with
      | none => do
        let (output, left) ← drain levels env floor rest
        return (token :: output, left)
      | some (name, definition) =>
        match levels with
        | 0 => .error ⟨.nestingLimit name, token.loc⟩
        | levels + 1 =>
          match invoke env name definition token.loc rest with
          | .error error => .error error
          | .ok none => do
            let (output, left) ← drain (levels + 1) env floor rest
            return (token :: output, left)
          | .ok (some (invocation, ⟨after, _⟩)) => do
            let body ← match invocation with
              | .plain body => pure body
              | .bound params body => (·.1) <$> drain levels params 0 body
            let (front, ⟨next, _⟩) ← drain levels env after.length (body ++ after)
            let (output, left) ← drain (levels + 1) env floor next
            return (front ++ output, left)
termination_by (levels, input.length)

def expandAll (levels : Nat) (env : Env) (tokens : List Lexed) :
    Except (Located MacroError) (List Lexed) :=
  (·.1) <$> drain levels env 0 tokens

/-- The tokens an invocation stands for, with `levels` levels left for them. -/
def Invocation.tokens (levels : Nat) : Invocation → Except (Located MacroError) (List Lexed)
  | .plain body => .ok body
  | .bound env body => expandAll levels env body

/-- What the use of a macro was replaced by: the tokens to be looked at again,
the input after the use, and the levels left for looking. -/
structure Expansion (levels : Nat) (rest : List Lexed) where
  tokens : List Lexed
  after : List Lexed
  le : after.length ≤ rest.length
  deeper : Nat
  lt : deeper < levels

/-- The expansion of the use of a macro at `token`; nothing, if the token stands
for itself. -/
def expandUse (levels : Nat) (env : Env) (token : Lexed) (rest : List Lexed) :
    Except (Located MacroError) (Option (Expansion levels rest)) :=
  match env.use? token.value with
  | none => .ok none
  | some (name, definition) =>
    match levels with
    | 0 => .error ⟨.nestingLimit name, token.loc⟩
    | deeper + 1 => do
      match ← invoke env name definition token.loc rest with
      | none => return none
      | some (invocation, ⟨after, le⟩) =>
        let tokens ← invocation.tokens deeper
        return some ⟨tokens, after, le, deeper, Nat.lt_succ_self _⟩

end MiniC.Macro
