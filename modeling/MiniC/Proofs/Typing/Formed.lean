import MiniC.Typing.Program
import MiniC.Proofs.Semantics.Tree

/-!
# Well-formed trees

What typing relies on in a parsed tree: locals exist, and no case label has a number yet.
What later stages rely on in a typed tree: locals exist, calls pass at most six values,
no postfix update is left, `break` and `continue` stand where they lead somewhere, every
case label has a number, and a `switch` lists exactly the labels of its body.
-/

namespace MiniC

open List

open Typing (Inside)

namespace Expr

mutual
def Scoped (locals : Nat) : Expr → Prop
  | .num .. | .str .. | .global .. => True
  | .var _ index => index < locals
  | .binary _ _ _ lhs rhs | .assign _ lhs rhs | .comma _ lhs rhs =>
    lhs.Scoped locals ∧ rhs.Scoped locals
  | .cond _ test yes no => test.Scoped locals ∧ yes.Scoped locals ∧ no.Scoped locals
  | .unary _ _ e | .addr _ e | .deref _ e | .member _ e _ _ | .cast _ _ e | .sizeof _ e
  | .update _ _ e => e.Scoped locals
  | .call _ _ args => AllScoped locals args
def AllScoped (locals : Nat) : List Expr → Prop
  | [] => True
  | e :: rest => e.Scoped locals ∧ AllScoped locals rest
end

def OptionalScoped (locals : Nat) : Option Expr → Prop
  | none => True
  | some e => e.Scoped locals

mutual
def Formed (locals : Nat) : Expr → Prop
  | .num .. | .str .. | .global .. | .sizeof .. => True
  | .var _ index => index < locals
  | .binary _ _ _ lhs rhs | .assign _ lhs rhs | .comma _ lhs rhs =>
    lhs.Formed locals ∧ rhs.Formed locals
  | .cond _ test yes no => test.Formed locals ∧ yes.Formed locals ∧ no.Formed locals
  | .unary _ _ e | .addr _ e | .deref _ e | .member _ e _ _ | .cast _ _ e => e.Formed locals
  | .call _ _ args => args.length ≤ maxArguments ∧ AllFormed locals args
  | .update .. => False
def AllFormed (locals : Nat) : List Expr → Prop
  | [] => True
  | e :: rest => e.Formed locals ∧ AllFormed locals rest
end

def OptionalFormed (locals : Nat) : Option Expr → Prop
  | none => True
  | some e => e.Formed locals

end Expr

namespace Stmt

mutual
def Scoped (locals : Nat) : Stmt → Prop
  | .expr _ e => e.Scoped locals
  | .ret _ e => Expr.OptionalScoped locals e
  | .branch _ test yes no =>
    test.Scoped locals ∧ yes.Scoped locals ∧ OptionalScoped locals no
  | .whileLoop _ test body | .doLoop _ body test => test.Scoped locals ∧ body.Scoped locals
  | .forLoop _ init test step body =>
    OptionalScoped locals init ∧ Expr.OptionalScoped locals test ∧
      Expr.OptionalScoped locals step ∧ body.Scoped locals
  | .switch _ e body _ => e.Scoped locals ∧ body.Scoped locals
  | .case _ _ label body | .default _ label body => label = none ∧ body.Scoped locals
  | .exit _ | .next _ | .null _ => True
  | .block _ body => AllScoped locals body
def OptionalScoped (locals : Nat) : Option Stmt → Prop
  | none => True
  | some s => s.Scoped locals
def AllScoped (locals : Nat) : List Stmt → Prop
  | [] => True
  | s :: rest => s.Scoped locals ∧ AllScoped locals rest
end

mutual
def numbers : Stmt → List Nat
  | .branch _ _ yes no => yes.numbers ++ optionalNumbers no
  | .whileLoop _ _ body | .doLoop _ body _ | .switch _ _ body _ => body.numbers
  | .forLoop _ init _ _ body => optionalNumbers init ++ body.numbers
  | .case _ _ label body | .default _ label body => label.toList ++ body.numbers
  | .block _ body => allNumbers body
  | .expr .. | .ret .. | .exit _ | .next _ | .null _ => []
def optionalNumbers : Option Stmt → List Nat
  | none => []
  | some s => s.numbers
def allNumbers : List Stmt → List Nat
  | [] => []
  | s :: rest => s.numbers ++ allNumbers rest
end

mutual
def Formed (locals : Nat) (inside : Inside) : Stmt → Prop
  | .expr _ e => e.Formed locals
  | .ret _ e => Expr.OptionalFormed locals e
  | .branch _ test yes no =>
    test.Formed locals ∧ yes.Formed locals inside ∧ OptionalFormed locals inside no
  | .whileLoop _ test body | .doLoop _ body test =>
    test.Formed locals ∧ body.Formed locals ⟨true, true⟩
  | .forLoop _ init test step body =>
    OptionalFormed locals inside init ∧ Expr.OptionalFormed locals test ∧
      Expr.OptionalFormed locals step ∧ body.Formed locals ⟨true, true⟩
  | .switch _ e body cases =>
    e.Formed locals ∧ body.Formed locals { inside with breakable := true } ∧
      cases = body.labels ∧ (cases.map (·.value)).Nodup
  | .case _ _ label body | .default _ label body => label.isSome ∧ body.Formed locals inside
  | .exit _ => inside.breakable
  | .next _ => inside.loop
  | .block _ body => AllFormed locals inside body
  | .null _ => True
def OptionalFormed (locals : Nat) (inside : Inside) : Option Stmt → Prop
  | none => True
  | some s => s.Formed locals inside
def AllFormed (locals : Nat) (inside : Inside) : List Stmt → Prop
  | [] => True
  | s :: rest => s.Formed locals inside ∧ AllFormed locals inside rest
end

mutual
theorem labels_sublist : (s : Stmt) → (s.labels.map (·.label)).Sublist s.numbers
  | .branch _ _ yes no => by
    rw [labels, numbers, map_append]
    exact (labels_sublist yes).append (optionalLabels_sublist no)
  | .whileLoop _ _ body => labels_sublist body
  | .doLoop _ body _ => labels_sublist body
  | .forLoop _ init _ _ body => by
    rw [labels, numbers, map_append]
    exact (optionalLabels_sublist init).append (labels_sublist body)
  | .case _ value label body | .default _ label body => by
    rw [labels, numbers, map_append]
    refine List.Sublist.append ?_ (labels_sublist body)
    cases label <;> exact List.Sublist.refl _
  | .block _ body => allLabels_sublist body
  | .expr .. | .ret .. | .switch .. | .exit _ | .next _ | .null _ => nil_sublist _
theorem optionalLabels_sublist : (s : Option Stmt) →
    ((optionalLabels s).map (·.label)).Sublist (optionalNumbers s)
  | none => nil_sublist _
  | some s => labels_sublist s
theorem allLabels_sublist : (body : List Stmt) →
    ((allLabels body).map (·.label)).Sublist (allNumbers body)
  | [] => nil_sublist _
  | s :: rest => by
    rw [allLabels, allNumbers, map_append]
    exact (labels_sublist s).append (allLabels_sublist rest)
end

end Stmt

/-- A parsed function: its parameters are locals, and its body is over its locals. -/
structure Function.Scoped (f : Function) : Prop where
  params : ∀ p ∈ f.params, p < f.locals.length
  body : Stmt.OptionalScoped f.locals.length f.body

/-- A function as it can be lowered: its body is over its locals, and has case labels with
different numbers, each in a `switch`. -/
structure Function.Formed (f : Function) (code : Stmt) : Prop where
  count : f.params.length ≤ maxArguments
  params : ∀ p ∈ f.params, p < f.locals.length
  formed : code.Formed f.locals.length {}
  numbers : code.numbers.Nodup
  labels : code.labels = []

end MiniC
