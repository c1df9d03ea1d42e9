import MiniC.Proofs.Stack.Labels

/-!
# Notes on code for the machine stack

Emission once more, with notes on the lines: where the code of an expression starts and ends and
how many values emission counts there, where a statement starts and ends, where `break` and
`continue` lead, and which line calls a function with which arguments. Without its notes this is
the code that is emitted (`stmt_code`).
-/

namespace MiniC.Emit.Stack

open Asm List

/-- What stands at a line. An expression has a number of values on the stack below its own. -/
inductive Note where
  | starts (depth : Nat) (e : Expr)
  | ends (depth : Nat) (e : Expr)
  | argument (depth : Nat) (e : Expr)
  | calls (depth : Nat) (args : List Expr)
  | boundary
  | target (spot : Spot)

/-- Moves the stack pointer so that the stack is aligned when `depth` values and two more have
been pushed. -/
def adjust (op : AluOp) (depth : Nat) : Code :=
  let pad := Int64.ofNat (8 * padding (depth + 2))
  if pad > 0 then [.code (.alu op .qword .rsp (.imm pad))] else []

def passing (count depth : Nat) : Code :=
  ((Reg.arguments.take count).reverse.map fun reg => .code (.pop reg)) ++
    [.code (.push .r10), .code (.push .r11)] ++ adjust .sub depth ++
    [.code (.mov .dword .rax (.imm 0))]

def resuming (depth : Nat) (ty : CType) : Code :=
  adjust .add depth ++ [.code (.pop .r11), .code (.pop .r10)] ++ extend (.ofType ty)

theorem call_eq (name : String) (count depth : Nat) (ty : CType) : call name count depth ty =
    passing count depth ++ [.code (.call name count)] ++ resuming depth ty := by
  simp [call, passing, resuming, adjust]

/-- Code with notes, each on the line that it stands before. -/
structure Noted where
  code : Code
  notes : List (Nat × Note)

namespace Noted

def lines (code : Code) : Noted := ⟨code, []⟩

def note (n : Note) : Noted := ⟨[], [(0, n)]⟩

def notesFrom (k : Nat) (a : Noted) : List (Nat × Note) := a.notes.map fun (j, n) => (k + j, n)

instance : Append Noted := ⟨fun a b => ⟨a.code ++ b.code, a.notes ++ b.notesFrom a.code.length⟩⟩

@[simp] theorem code_append (a b : Noted) : (a ++ b).code = a.code ++ b.code := rfl
@[simp] theorem code_lines (code : Code) : (lines code).code = code := rfl
@[simp] theorem code_note (n : Note) : (note n).code = [] := rfl

def between (first last : Note) (emit : Labelled Noted) : Labelled Noted := do
  return note first ++ (← emit) ++ note last

def around (depth : Nat) (e : Expr) : Labelled Noted → Labelled Noted :=
  between (.starts depth e) (.ends depth e)

def bounded : Labelled Noted → Labelled Noted := between .boundary .boundary

def pushed (depth : Nat) (arg : Expr) : Noted :=
  ⟨[.code (.push .rax)], [(0, .argument depth arg)]⟩

def called (name : String) (args : List Expr) (depth : Nat) (ty : CType) : Noted :=
  lines (passing args.length depth) ++
    ⟨[.code (.call name args.length)], [(0, .calls depth args)]⟩ ++ lines (resuming depth ty)

def landing (ctx : Context) (spot : Spot) : Noted := ⟨[ctx.mark spot], [(0, .target spot)]⟩

/-! ## Expressions -/

mutual
def expr (ctx : Context) (depth : Nat) (want : Want) : Expr → Labelled Noted
  | e@(.num _ value) => around depth e (return lines [constant value])
  | e@(.str note index) => around depth e
    (return lines (.code (.lea .rax (.symbol (stringLabel index))) :: access want note.ty))
  | e@(.var note index) => around depth e do
    let v ← liftM ctx.function.locals[index]?
    return lines (.code (.lea .rax (.frame v.offset)) :: access want note.ty)
  | e@(.global note name) => around depth e
    (return lines (.code (.lea .rax (.symbol name)) :: access want note.ty))
  | e@(.deref note pointer) => around depth e do
    let pointer ← expr ctx depth .value pointer
    return pointer ++ lines (access want note.ty)
  | e@(.member note base _ offset) => around depth e do
    let base ← expr ctx depth .address base
    let move : Code :=
      if offset > 0 then [.code (.alu .add .qword .rax (.imm (.ofNat offset.toNat)))] else []
    return base ++ lines (move ++ access want note.ty)
  | e@(.binary note op _ lhs rhs) => around depth e <|
    if op = .logAnd ∨ op = .logOr then do
      let id ← fresh
      let lhs ← expr ctx depth .value lhs
      let rhs ← expr ctx depth .value rhs
      let (cond, skipped, full) : Cond × Int64 × Int64 :=
        if op = .logAnd then (.eq, 0, 1) else (.ne, 1, 0)
      let leave : Code := [test, ctx.jumpIf cond (.short id)]
      return lhs ++ lines leave ++ rhs ++ lines (leave ++
        [constant full, ctx.jump (.done id), ctx.mark (.short id), constant skipped,
          ctx.mark (.done id)])
    else do
      let lhs ← expr ctx depth .value lhs
      let rhs ← expr ctx (depth + 1) .value rhs
      let combine ← liftM (binary op (.ofBinary op note.ty))
      return lhs ++ lines [.code (.push .rax)] ++ rhs ++
        lines ([.code (.mov .qword .rdi (.reg .rax)), .code (.pop .rax)] ++ combine)
  | e@(.assign _ lhs rhs) => around depth e do
    let target ← expr ctx depth .address lhs
    let value ← expr ctx (depth + 1) .value rhs
    let width := Width.ofType lhs.ty
    return target ++ lines [.code (.push .rax)] ++ value ++
      lines ([.code (.pop .rdi), .code (.store width (.reg .rdi) .rax)] ++ extend width)
  | e@(.comma _ lhs rhs) => around depth e do
    let lhs ← expr ctx depth .value lhs
    let rhs ← expr ctx depth want rhs
    return lhs ++ rhs
  | e@(.cond _ question yes no) => around depth e do
    let id ← fresh
    let cond ← expr ctx depth .value question
    let yes ← expr ctx depth .value yes
    let no ← expr ctx depth .value no
    return cond ++ lines [test, ctx.jumpIf .eq (.otherwise id)] ++ yes ++
      lines [ctx.jump (.done id), ctx.mark (.otherwise id)] ++ no ++ lines [ctx.mark (.done id)]
  | e@(.unary note op operand) => around depth e do
    let operand ← expr ctx depth .value operand
    return operand ++ lines (unary op (.arithmetic note.ty))
  | e@(.addr _ operand) => around depth e (expr ctx depth .address operand)
  | e@(.call note callee args) => around depth e do
    let pushed ← arguments ctx depth args
    return pushed ++ called callee args depth note.ty
  | e@(.cast _ target operand) => around depth e do
    let operand ← expr ctx depth .value operand
    return operand ++ lines (extend (.ofType target))
  | e@(.sizeof _ operand) => around depth e
    (return lines [constant (.ofNat (ctx.structs.size operand.ty).toNat)])
  | .update .. => failure
def arguments (ctx : Context) (depth : Nat) : List Expr → Labelled Noted
  | [] => return lines []
  | arg :: args => do
    let value ← expr ctx depth .value arg
    let args ← arguments ctx (depth + 1) args
    return value ++ pushed depth arg ++ args
end

/-! ## Statements -/

def value (ctx : Context) (e : Expr) : Labelled Noted := expr ctx 0 .value e

def condition (ctx : Context) (e : Expr) (spot : Spot) : Labelled Noted := do
  return (← value ctx e) ++ lines [test, ctx.jumpIf .eq spot]

def optional (emit : Expr → Labelled Noted) : Option Expr → Labelled Noted
  | none => return lines []
  | some e => emit e

mutual
def stmt (ctx : Context) (targets : Targets) : Stmt → Labelled Noted
  | .expr _ e => bounded (value ctx e)
  | .ret _ e => bounded do return (← optional (value ctx) e) ++ lines [ctx.jump .ret]
  | .branch _ cond yes no => bounded do
    let id ← fresh
    let cond ← condition ctx cond (.otherwise id)
    let yes ← stmt ctx targets yes
    let no ← optionalStmt ctx targets no
    return cond ++ yes ++ lines [ctx.jump (.done id), ctx.mark (.otherwise id)] ++ no ++
      lines [ctx.mark (.done id)]
  | .whileLoop _ cond body => bounded do
    let id ← fresh
    let cond ← condition ctx cond (.done id)
    let body ← stmt ctx ⟨some (.done id), some (.start id)⟩ body
    return landing ctx (.start id) ++ cond ++ body ++ lines [ctx.jump (.start id)] ++
      landing ctx (.done id)
  | .doLoop _ body cond => bounded do
    let id ← fresh
    let body ← stmt ctx ⟨some (.done id), some (.again id)⟩ body
    let cond ← value ctx cond
    return lines [ctx.mark (.start id)] ++ body ++ landing ctx (.again id) ++ cond ++
      lines [test, ctx.jumpIf .ne (.start id)] ++ landing ctx (.done id)
  | .forLoop _ init cond step body => bounded do
    let id ← fresh
    let init ← optionalStmt ctx targets init
    let cond ← optional (condition ctx · (.done id)) cond
    let body ← stmt ctx ⟨some (.done id), some (.again id)⟩ body
    let step ← optional (value ctx) step
    return init ++ lines [ctx.mark (.start id)] ++ cond ++ body ++ landing ctx (.again id) ++
      step ++ lines [ctx.jump (.start id)] ++ landing ctx (.done id)
  | .switch _ e body cases => bounded do
    let id ← fresh
    let e ← value ctx e
    let body ← stmt ctx { targets with exit := some (.done id) } body
    return e ++ lines (dispatch ctx cases ++ [ctx.jump (fallback (.done id) cases)]) ++ body ++
      landing ctx (.done id)
  | .case _ _ label body | .default _ label body => bounded do
    let body ← stmt ctx targets body
    return lines (label.map fun label => ctx.mark (.case label)).toList ++ body
  | .exit _ => bounded (return lines (leaveTo ctx targets.exit))
  | .next _ => bounded (return lines (leaveTo ctx targets.next))
  | .block _ body => bounded (stmts ctx targets body)
  | .null _ => bounded (return lines [])
def optionalStmt (ctx : Context) (targets : Targets) : Option Stmt → Labelled Noted
  | none => return lines []
  | some s => stmt ctx targets s
def stmts (ctx : Context) (targets : Targets) : List Stmt → Labelled Noted
  | [] => return lines []
  | s :: rest => do
    let s ← stmt ctx targets s
    let rest ← stmts ctx targets rest
    return s ++ rest
end

/-! ## The code itself -/

theorem between_code (first last : Note) (emit : Labelled Noted) :
    (·.code) <$> between first last emit = (·.code) <$> emit := by
  simp only [between, map_bind, map_pure, code_append, code_note, nil_append, append_nil]
  exact bind_pure_comp _ _

mutual
/-- Without its notes the code of an expression is what is emitted. -/
theorem expr_code (ctx : Context) : (e : Expr) → (depth : Nat) → (want : Want) →
    (·.code) <$> expr ctx depth want e = Stack.expr ctx depth want e
  | .num .., _, _ | .str .., _, _ | .global .., _, _ | .sizeof .., _, _ => by
    rw [expr, around, between_code, Stack.expr, map_pure]
    rfl
  | .var .., _, _ => by
    rw [expr, around, between_code, Stack.expr, map_bind]
    rfl
  | .deref _ pointer, _, _ => by
    simp only [expr, around, between_code, Stack.expr, ← expr_code ctx pointer, map_bind, map_pure,
      bind_map_left, code_append, code_lines]
  | .member _ base _ _, _, _ => by
    simp only [expr, around, between_code, Stack.expr, ← expr_code ctx base, map_bind, map_pure,
      bind_map_left, code_append, code_lines, append_assoc]
  | .binary _ op _ lhs rhs, depth, _ => by
    simp only [expr, around, between_code, Stack.expr, ← expr_code ctx lhs, ← expr_code ctx rhs]
    split <;> simp only [map_bind, map_pure, bind_map_left, code_append, code_lines, append_assoc]
  | .assign _ lhs rhs, _, _ => by
    simp only [expr, around, between_code, Stack.expr, ← expr_code ctx lhs, ← expr_code ctx rhs,
      map_bind, map_pure, bind_map_left, code_append, code_lines, append_assoc]
  | .comma _ lhs rhs, _, _ => by
    simp only [expr, around, between_code, Stack.expr, ← expr_code ctx lhs, ← expr_code ctx rhs,
      map_bind, map_pure, bind_map_left, code_append]
  | .cond _ question yes no, _, _ => by
    simp only [expr, around, between_code, Stack.expr, ← expr_code ctx question,
      ← expr_code ctx yes, ← expr_code ctx no, map_bind, map_pure, bind_map_left, code_append,
      code_lines]
  | .unary _ _ operand, _, _ | .cast _ _ operand, _, _ => by
    simp only [expr, around, between_code, Stack.expr, ← expr_code ctx operand, map_bind, map_pure,
      bind_map_left, code_append, code_lines]
  | .addr _ operand, depth, _ => by
    rw [expr, around, between_code, Stack.expr, expr_code ctx operand]
  | .call _ _ args, _, _ => by
    simp only [expr, around, between_code, Stack.expr, ← arguments_code ctx args, map_bind, map_pure,
      bind_map_left, code_append, called, code_lines, call_eq]
  | .update .., _, _ => rfl
theorem arguments_code (ctx : Context) : (args : List Expr) → (depth : Nat) →
    (·.code) <$> arguments ctx depth args = Stack.arguments ctx depth args
  | [], _ => by
    rw [arguments, Stack.arguments, map_pure]
    rfl
  | arg :: args, _ => by
    simp only [arguments, Stack.arguments, ← expr_code ctx arg, ← arguments_code ctx args, map_bind,
      map_pure, bind_map_left, code_append, pushed]
end

theorem value_code (ctx : Context) (e : Expr) : (·.code) <$> value ctx e = Stack.value ctx e :=
  expr_code ctx e 0 .value

theorem condition_code (ctx : Context) (e : Expr) (spot : Spot) :
    (·.code) <$> condition ctx e spot = Stack.condition ctx e spot := by
  simp only [condition, Stack.condition, ← value_code, map_bind, map_pure, bind_map_left,
    code_append, code_lines]

theorem optional_code {emit : Expr → Labelled Noted} {emit' : Expr → Labelled Code}
    (same : ∀ e, (·.code) <$> emit e = emit' e) (e : Option Expr) :
    (·.code) <$> optional emit e = Stack.optional emit' e := by
  cases e with
  | none =>
    rw [optional, Stack.optional, map_pure]
    rfl
  | some e => exact same e

mutual
theorem stmt_code (ctx : Context) : (s : Stmt) → (targets : Targets) →
    (·.code) <$> stmt ctx targets s = Stack.stmt ctx targets s
  | .expr _ e, _ => by rw [stmt, bounded, between_code, Stack.stmt, value_code]
  | .ret _ e, _ => by
    have optional := optional_code (value_code ctx) e
    simp only [stmt, bounded, between_code, Stack.stmt, ← optional, map_bind, map_pure,
      bind_map_left, code_append, code_lines]
  | .branch _ cond yes no, _ => by
    simp only [stmt, bounded, between_code, Stack.stmt, ← condition_code, ← stmt_code ctx yes,
      ← optionalStmt_code ctx no, map_bind, map_pure, bind_map_left, code_append, code_lines]
  | .whileLoop _ cond body, _ => by
    simp only [stmt, bounded, between_code, Stack.stmt, ← condition_code, ← stmt_code ctx body,
      map_bind, map_pure, bind_map_left, code_append, code_lines, landing, append_assoc,
      cons_append, nil_append]
  | .doLoop _ body cond, _ => by
    simp only [stmt, bounded, between_code, Stack.stmt, ← value_code, ← stmt_code ctx body,
      map_bind, map_pure, bind_map_left, code_append, code_lines, landing, append_assoc,
      cons_append, nil_append]
  | .forLoop _ init cond step body, _ => by
    have step := optional_code (value_code ctx) step
    have cond := fun id => optional_code (condition_code ctx · (.done id)) cond
    simp only [stmt, bounded, between_code, Stack.stmt, ← optionalStmt_code ctx init, ← step, ← cond,
      ← stmt_code ctx body, map_bind, map_pure, bind_map_left, code_append, code_lines, landing,
      append_assoc, cons_append, nil_append]
  | .switch _ e body cases, _ => by
    simp only [stmt, bounded, between_code, Stack.stmt, ← value_code, ← stmt_code ctx body,
      map_bind, map_pure, bind_map_left, code_append, code_lines, landing, append_assoc]
  | .case _ _ _ body, _ | .default _ _ body, _ => by
    simp only [stmt, bounded, between_code, Stack.stmt, ← stmt_code ctx body, map_bind, map_pure,
      bind_map_left, code_append, code_lines]
  | .exit _, _ | .next _, _ | .null _, _ => by
    rw [stmt, bounded, between_code, Stack.stmt, map_pure]
    rfl
  | .block _ body, _ => by rw [stmt, bounded, between_code, Stack.stmt, stmts_code ctx body]
theorem optionalStmt_code (ctx : Context) : (s : Option Stmt) → (targets : Targets) →
    (·.code) <$> optionalStmt ctx targets s = Stack.optionalStmt ctx targets s
  | none, _ => by
    rw [optionalStmt, Stack.optionalStmt, map_pure]
    rfl
  | some s, _ => by rw [optionalStmt, Stack.optionalStmt, stmt_code ctx s]
theorem stmts_code (ctx : Context) : (body : List Stmt) → (targets : Targets) →
    (·.code) <$> stmts ctx targets body = Stack.stmts ctx targets body
  | [], _ => by
    rw [stmts, Stack.stmts, map_pure]
    rfl
  | s :: rest, _ => by
    simp only [stmts, Stack.stmts, ← stmt_code ctx s, ← stmts_code ctx rest, map_bind, map_pure,
      bind_map_left, code_append]
end

theorem exists_of_stmt {ctx : Context} {targets : Targets} {s : Stmt} {i j : Nat} {code : Code}
    (made : Stack.stmt ctx targets s i = some (code, j)) :
    ∃ a, stmt ctx targets s i = some (a, j) ∧ a.code = code := by
  rw [← stmt_code] at made
  change (stmt ctx targets s i).bind _ = _ at made
  obtain ⟨⟨a, _⟩, noted, same⟩ := Option.bind_eq_some_iff.mp made
  cases same
  exact ⟨a, noted, rfl⟩

end Noted

end MiniC.Emit.Stack
