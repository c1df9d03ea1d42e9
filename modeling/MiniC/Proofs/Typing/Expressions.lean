import MiniC.Proofs.Grammar.Raw
import MiniC.Proofs.Typing.Idempotent

/-!
# The expressions of a typed program

Typing goes through the expressions of a body one by one: every expression of a typed body is one of
the parsed body with its types, in the same place.
-/

namespace MiniC

open List

namespace Stmt

variable {n : Nat}

theorem formed_toList {e : Option Expr} (h : Expr.OptionalFormed n e) :
    ∀ x ∈ e.toList, x.Formed n := by
  cases e with
  | none => exact forall_mem_nil _
  | some e => exact forall_mem_singleton.mpr h

mutual
theorem formed_exprs : (s : Stmt) → ∀ {inside : Typing.Inside}, s.Formed n inside →
    ∀ e ∈ s.exprs, e.Formed n
  | .expr _ _, _, h => forall_mem_singleton.mpr h
  | .ret _ _, _, h => formed_toList h
  | .branch _ _ yes no, _, ⟨first, second, third⟩ => forall_mem_cons.mpr
    ⟨first, forall_mem_append.mpr ⟨formed_exprs yes second, formed_optionalExprs no third⟩⟩
  | .whileLoop _ _ body, _, ⟨first, second⟩ | .switch _ _ body _, _, ⟨first, second, _⟩ =>
    forall_mem_cons.mpr ⟨first, formed_exprs body second⟩
  | .doLoop _ body _, _, ⟨first, second⟩ =>
    forall_mem_append.mpr ⟨formed_exprs body second, forall_mem_singleton.mpr first⟩
  | .forLoop _ init _ _ body, _, ⟨first, second, third, fourth⟩ =>
    forall_mem_append.mpr ⟨forall_mem_append.mpr ⟨forall_mem_append.mpr
      ⟨formed_optionalExprs init first, formed_toList second⟩, formed_toList third⟩,
      formed_exprs body fourth⟩
  | .case _ _ _ body, _, h | .default _ _ body, _, h => formed_exprs body h.2
  | .exit _, _, _ | .next _, _, _ | .null _, _, _ => forall_mem_nil _
  | .block _ body, _, h => formed_allExprs body h
theorem formed_optionalExprs : (s : Option Stmt) → ∀ {inside : Typing.Inside},
    OptionalFormed n inside s → ∀ e ∈ optionalExprs s, e.Formed n
  | none, _, _ => forall_mem_nil _
  | some s, _, h => formed_exprs s h
theorem formed_allExprs : (body : List Stmt) → ∀ {inside : Typing.Inside},
    AllFormed n inside body → ∀ e ∈ allExprs body, e.Formed n
  | [], _, _ => forall_mem_nil _
  | s :: rest, _, ⟨first, others⟩ =>
    forall_mem_append.mpr ⟨formed_exprs s first, formed_allExprs rest others⟩
end

end Stmt

namespace Typing

variable {Γ : Context} {e e' : Expr}

/-- Expressions and what typing makes of them, in order. -/
abbrev AllTyped (Γ : Context) : List Expr → List Expr → Prop :=
  List.Forall₂ fun e e' => expr Γ e = .ok e'

theorem expr_of_condition (h : condition Γ e = .ok e') : expr Γ e = .ok e' := by
  simp only [condition, bind_eq_ok, pure_eq_ok] at h
  obtain ⟨_, typed, -, -, rfl⟩ := h
  exact typed

theorem expr_of_returned (h : returned Γ e = .ok e') : expr Γ e = .ok e' := by
  simp only [returned, bind_eq_ok] at h
  obtain ⟨_, typed, h⟩ := h
  split at h
  · cases h
  · split at h
    · cases h
    · cases h
      exact typed

theorem optional_typed {type : Expr → Result Expr}
    (types : ∀ e e' : Expr, type e = .ok e' → expr Γ e = .ok e') {e e' : Option Expr}
    (h : optional type e = .ok e') : AllTyped Γ e.toList e'.toList := by
  cases e with
  | none =>
    cases h
    exact .nil
  | some e =>
    simp only [optional, bind_eq_ok, pure_eq_ok] at h
    obtain ⟨_, typed, rfl⟩ := h
    exact .cons (types _ _ typed) .nil

mutual
theorem Walks.typed {inside : Inside} {s s' : Stmt} {l l' : Labels} : Walks Γ inside s l s' l' →
    AllTyped Γ s.exprs s'.exprs
  | .expr typed => .cons typed .nil
  | .ret typed => optional_typed (fun _ _ => expr_of_returned) typed
  | .branch test yes no => .cons (expr_of_condition test) (rel_append yes.typed no.typed)
  | .whileLoop test body | .switch test body => .cons (expr_of_condition test) body.typed
  | .doLoop test body => rel_append body.typed (.cons (expr_of_condition test) .nil)
  | .forLoop init test step body =>
    rel_append (rel_append (rel_append init.typed
      (optional_typed (fun _ _ => expr_of_condition) test)) (optional_typed (fun _ _ => id) step))
      body.typed
  | .case _ _ body | .default _ _ body => (body.typed :)
  | .exit _ | .next _ | .null => .nil
  | .block body => body.typed
theorem WalksOptional.typed {inside : Inside} {s s' : Option Stmt} {l l' : Labels} :
    WalksOptional Γ inside s l s' l' → AllTyped Γ (Stmt.optionalExprs s) (Stmt.optionalExprs s')
  | .none => .nil
  | .some body => body.typed
theorem WalksAll.typed {inside : Inside} {ss ss' : List Stmt} {l l' : Labels} :
    WalksAll Γ inside ss l ss' l' → AllTyped Γ (Stmt.allExprs ss) (Stmt.allExprs ss')
  | .nil => .nil
  | .cons first rest => rel_append first.typed rest.typed
end

/-- What typing makes of a function of a program, in a context. -/
structure Typed (p : Program) (f f' : Function) (Γ : Context) : Prop where
  structs : Γ.structs = p.structs
  globals : Γ.globals = p.globals
  strings : Γ.strings = p.strings
  locals : Γ.locals = f'.locals
  params : f'.params = f.params
  /-- It takes no struct. -/
  plain : ¬ passesStruct f
  placed : ∃ last, Frame.place p.structs 0 f.locals = some (f'.locals, last) ∧
    f'.stackSize = alignTo last 16
  body : ∀ code', f'.body = some code' → ∃ code, f.body = some code ∧
    AllTyped Γ code.exprs code'.exprs

theorem function_typed {p : Program} {f f' : Function} (h : function Γ f = .ok f')
    (structs : Γ.structs = p.structs) (globals : Γ.globals = p.globals)
    (strings : Γ.strings = p.strings) : ∃ Γ', Typed p f f' Γ' := by
  obtain ⟨locals, last, body, few, plain, placed, walked, rfl⟩ := function_eq_ok.mp h
  refine ⟨{ Γ with locals }, structs, globals, strings, rfl, rfl, plain,
    ⟨last, structs ▸ placed, rfl⟩, ?_⟩
  rintro code' ⟨⟩
  generalize f.body = parsed at walked
  obtain ⟨l, walks⟩ := walked
  exact ⟨_, rfl, walks.typed⟩

theorem program_typed {implicitDecls : Bool} {p q : Program} (h : program implicitDecls p = .ok q) :
    q.structs = p.structs ∧ q.globals = p.globals ∧
      List.Forall₂ (fun f f' => ∃ Γ, Typed p f f' Γ) p.functions q.functions := by
  obtain ⟨same, functions⟩ := program_eq h
  refine ⟨by rw [same], by rw [same], functions.imp ?_⟩
  rintro f f' ⟨known, typed⟩
  exact function_typed typed rfl rfl rfl

end Typing

end MiniC
