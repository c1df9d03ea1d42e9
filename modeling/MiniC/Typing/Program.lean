import MiniC.Typing.Frame
import MiniC.Typing.Stmt

/-!
# Types of programs

Functions are typed in order. A function is known from its own body on, and a
later declaration of the same name replaces what is known of it.
-/

namespace MiniC

namespace Typing

def signature (f : Function) : Signature := ⟨f.ret, f.params.length, f.isVariadic⟩

def passesStruct (f : Function) : Bool :=
  f.ret.isStruct || f.params.any fun param => (f.locals[param]?).any (·.ty.isStruct)

def function (Γ : Context) (f : Function) : Result Function := do
  if f.params.length > maxArguments then fail (.tooManyParameters f.params.length) f.loc
  else if passesStruct f then fail .structByValue f.loc
  else
    match Frame.layout Γ.structs f with
    | none => fail (.frameTooLarge f.name) f.loc
    | some f =>
      match f.body with
      | none => return f
      | some body =>
        let (body, _) ← stmt { Γ with locals := f.locals } {} body {}
        return { f with body := some body }

/-- Functions in order, each known to itself and to those after it. -/
def functions (Γ : Context) : List Function → Result (List Function)
  | [] => .ok []
  | f :: rest => do
    let Γ := { Γ with functions := (f.name, signature f) :: Γ.functions }
    let f ← function Γ f
    let rest ← functions Γ rest
    return f :: rest

def program (implicitDecls : Bool) (p : Program) : Result Program := do
  let Γ : Context := {
    structs := p.structs
    functions := []
    globals := p.globals
    strings := p.strings
    locals := []
    implicitDecls }
  return { p with functions := ← functions Γ p.functions }

end Typing

end MiniC
