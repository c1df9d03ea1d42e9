import MiniC.Emit.Data

/-!
# Code on the machine stack

Code for a typed tree in which every expression leaves its value in `rax`, and
operands that wait for others are pushed. `depth` is the number of values that
have been pushed above the frame; it tells how to align the stack before a call.

Emission numbers the labels of a function, and there is none for a tree that
typing does not produce.
-/

namespace MiniC.Emit.Stack

open Asm

/-- Lines of code. -/
abbrev Code := List Line

/-- A step of emission; the state is the next number for labels. -/
abbrev Labelled := StateT Nat Option

/-- The function that is being emitted, and the structs of its program. -/
structure Context where
  structs : Structs
  function : Function

namespace Context

def label (ctx : Context) (spot : Spot) : Label := .inner ctx.function.name spot

def mark (ctx : Context) (spot : Spot) : Line := .label (ctx.label spot)

def jump (ctx : Context) (spot : Spot) : Line := .code (.jmp (ctx.label spot))

def jumpIf (ctx : Context) (cond : Cond) (spot : Spot) : Line :=
  .code (.jcc cond (ctx.label spot))

end Context

def fresh : Labelled Nat := modifyGet fun id => (id, id + 1)

/-! ## Short sequences -/

def constant (value : Int64) : Line := .code (.mov .qword .rax (.imm value))

def test : Line := .code (.cmp .qword .rax (.imm 0))

def extend (width : Width) : Code :=
  match width with
  | .qword => []
  | width => [.code (.extend width .rax .rax)]

/-- Turns an address in `rax` into what is wanted. Arrays and structs are handled
by their address. -/
def access (want : Want) (ty : CType) : Code :=
  match want with
  | .address => []
  | .value => if ty.isAggregate then [] else [.code (.load (.ofType ty) .rax (.reg .rax))]

def boolean (cond : Cond) : Code := [.code (.set cond .rax), .code (.zeroExtend .rax .rax)]

def alu (op : AluOp) (width : Width) : Code :=
  .code (.alu op width .rax (.reg .rdi)) :: extend width

def shift (op : ShiftOp) (width : Width) : Code :=
  [.code (.mov .qword .rcx (.reg .rdi)), .code (.shift op width .rax)] ++ extend width

def compare (cond : Cond) (width : Width) : Code :=
  .code (.cmp width .rax (.reg .rdi)) :: boolean cond

/-- Divides `rax` by `rdi`; the quotient is in `rax` and the remainder in `rdx`. -/
def divide (width : Width) : Code := [.code (.widen width), .code (.idiv width .rdi)]

/-- A binary operation on `rax` and `rdi`. The two that may skip their second
operand are not of this kind. -/
def binary (op : BinOp) (width : Width) : Option Code :=
  match op with
  | .add => some (alu .add width)
  | .sub => some (alu .sub width)
  | .mul => some (alu .mul width)
  | .bitAnd => some (alu .and width)
  | .bitOr => some (alu .or width)
  | .bitXor => some (alu .xor width)
  | .div => some (divide width ++ extend width)
  | .mod => some (divide width ++ .code (.mov .qword .rax (.reg .rdx)) :: extend width)
  | .shl => some (shift .left width)
  | .shr => some (shift .right width)
  | .eq => some (compare .eq width)
  | .ne => some (compare .ne width)
  | .lt => some (compare .lt width)
  | .le => some (compare .le width)
  | .logAnd | .logOr => none

def unary (op : UnOp) (width : Width) : Code :=
  match op with
  | .neg => .code (.neg width .rax) :: extend width
  | .bitNot => .code (.not width .rax) :: extend width
  | .not => test :: boolean .eq

/-- Calls a function whose arguments are the last `count` values pushed, with
`depth` values below them. -/
def call (name : String) (count depth : Nat) (ty : CType) : Code :=
  let pops := (Reg.arguments.take count).reverse.map fun reg => Line.code (.pop reg)
  let pad := Int64.ofNat (8 * padding (depth + 2))
  let adjust (op : AluOp) : Code :=
    if pad > 0 then [.code (.alu op .qword .rsp (.imm pad))] else []
  pops ++ [.code (.push .r10), .code (.push .r11)] ++ adjust .sub ++
    [.code (.mov .dword .rax (.imm 0)), .code (.call name count)] ++ adjust .add ++
    [.code (.pop .r11), .code (.pop .r10)] ++ extend (.ofType ty)

/-! ## Expressions -/

mutual
/-- The code of an expression: what is wanted of it is in `rax` at the end. -/
def expr (ctx : Context) (depth : Nat) (want : Want) : Expr → Labelled Code
  | .num _ value => return [constant value]
  | .str note index =>
    return .code (.lea .rax (.symbol (stringLabel index))) :: access want note.ty
  | .var note index => do
    let v ← liftM ctx.function.locals[index]?
    return .code (.lea .rax (.frame v.offset)) :: access want note.ty
  | .global note name => return .code (.lea .rax (.symbol name)) :: access want note.ty
  | .deref note pointer => do
    let pointer ← expr ctx depth .value pointer
    return pointer ++ access want note.ty
  | .member note base _ offset => do
    let base ← expr ctx depth .address base
    let move : Code :=
      if offset > 0 then [.code (.alu .add .qword .rax (.imm (.ofNat offset.toNat)))] else []
    return base ++ move ++ access want note.ty
  | .binary note op _ lhs rhs =>
    if op = .logAnd ∨ op = .logOr then do
      let id ← fresh
      let lhs ← expr ctx depth .value lhs
      let rhs ← expr ctx depth .value rhs
      let (cond, skipped, full) : Cond × Int64 × Int64 :=
        if op = .logAnd then (.eq, 0, 1) else (.ne, 1, 0)
      let leave : Code := [test, ctx.jumpIf cond (.short id)]
      return lhs ++ leave ++ rhs ++ leave ++
        [constant full, ctx.jump (.done id), ctx.mark (.short id), constant skipped,
          ctx.mark (.done id)]
    else do
      let lhs ← expr ctx depth .value lhs
      let rhs ← expr ctx (depth + 1) .value rhs
      let combine ← liftM (binary op (.ofBinary op note.ty))
      return lhs ++ [.code (.push .rax)] ++ rhs ++
        [.code (.mov .qword .rdi (.reg .rax)), .code (.pop .rax)] ++ combine
  | .assign _ lhs rhs => do
    let target ← expr ctx depth .address lhs
    let value ← expr ctx (depth + 1) .value rhs
    let width := Width.ofType lhs.ty
    return target ++ [.code (.push .rax)] ++ value ++
      [.code (.pop .rdi), .code (.store width (.reg .rdi) .rax)] ++ extend width
  | .comma _ lhs rhs => do
    let lhs ← expr ctx depth .value lhs
    let rhs ← expr ctx depth want rhs
    return lhs ++ rhs
  | .cond _ question yes no => do
    let id ← fresh
    let cond ← expr ctx depth .value question
    let yes ← expr ctx depth .value yes
    let no ← expr ctx depth .value no
    return cond ++ [test, ctx.jumpIf .eq (.otherwise id)] ++ yes ++
      [ctx.jump (.done id), ctx.mark (.otherwise id)] ++ no ++ [ctx.mark (.done id)]
  | .unary note op operand => do
    let operand ← expr ctx depth .value operand
    return operand ++ unary op (.arithmetic note.ty)
  | .addr _ operand => expr ctx depth .address operand
  | .call note callee args => do
    let pushed ← arguments ctx depth args
    return pushed ++ call callee args.length depth note.ty
  | .cast _ target operand => do
    let operand ← expr ctx depth .value operand
    return operand ++ extend (.ofType target)
  | .sizeof _ operand => return [constant (.ofNat (ctx.structs.size operand.ty).toNat)]
  | .update .. => failure
/-- The code that pushes the arguments of a call, from the first to the last. -/
def arguments (ctx : Context) (depth : Nat) : List Expr → Labelled Code
  | [] => return []
  | arg :: args => do
    let arg ← expr ctx depth .value arg
    let args ← arguments ctx (depth + 1) args
    return arg ++ [.code (.push .rax)] ++ args
end

/-! ## Statements -/

/-- Where `break` and `continue` lead. -/
structure Targets where
  exit : Option Spot := none
  next : Option Spot := none

def value (ctx : Context) (e : Expr) : Labelled Code := expr ctx 0 .value e

def condition (ctx : Context) (e : Expr) (spot : Spot) : Labelled Code := do
  return (← value ctx e) ++ [test, ctx.jumpIf .eq spot]

def optional (emit : Expr → Labelled Code) : Option Expr → Labelled Code
  | none => return []
  | some e => emit e

def leaveTo (ctx : Context) (spot : Option Spot) : Code := (spot.map ctx.jump).toList

def dispatch (ctx : Context) : List CaseLabel → Code
  | [] => []
  | ⟨some value, label⟩ :: rest =>
    [.code (.mov .qword .rdi (.imm value)), .code (.cmp .qword .rax (.reg .rdi)),
      ctx.jumpIf .eq (.case label)] ++ dispatch ctx rest
  | ⟨none, _⟩ :: rest => dispatch ctx rest

/-- Where a `switch` leads if no case applies: to its last default label, else
to `spot`. -/
def fallback (spot : Spot) (cases : List CaseLabel) : Spot :=
  cases.foldl (fun spot case => if case.value.isNone then .case case.label else spot) spot

mutual
def stmt (ctx : Context) (targets : Targets) : Stmt → Labelled Code
  | .expr _ e => value ctx e
  | .ret _ e => do return (← optional (value ctx) e) ++ [ctx.jump .ret]
  | .branch _ cond yes no => do
    let id ← fresh
    let cond ← condition ctx cond (.otherwise id)
    let yes ← stmt ctx targets yes
    let no ← optionalStmt ctx targets no
    return cond ++ yes ++ [ctx.jump (.done id), ctx.mark (.otherwise id)] ++ no ++
      [ctx.mark (.done id)]
  | .whileLoop _ cond body => do
    let id ← fresh
    let cond ← condition ctx cond (.done id)
    let body ← stmt ctx ⟨some (.done id), some (.start id)⟩ body
    return [ctx.mark (.start id)] ++ cond ++ body ++
      [ctx.jump (.start id), ctx.mark (.done id)]
  | .doLoop _ body cond => do
    let id ← fresh
    let body ← stmt ctx ⟨some (.done id), some (.again id)⟩ body
    let cond ← value ctx cond
    return [ctx.mark (.start id)] ++ body ++ [ctx.mark (.again id)] ++ cond ++
      [test, ctx.jumpIf .ne (.start id), ctx.mark (.done id)]
  | .forLoop _ init cond step body => do
    let id ← fresh
    let init ← optionalStmt ctx targets init
    let cond ← optional (condition ctx · (.done id)) cond
    let body ← stmt ctx ⟨some (.done id), some (.again id)⟩ body
    let step ← optional (value ctx) step
    return init ++ [ctx.mark (.start id)] ++ cond ++ body ++ [ctx.mark (.again id)] ++ step ++
      [ctx.jump (.start id), ctx.mark (.done id)]
  | .switch _ e body cases => do
    let id ← fresh
    let e ← value ctx e
    let body ← stmt ctx { targets with exit := some (.done id) } body
    return e ++ dispatch ctx cases ++ [ctx.jump (fallback (.done id) cases)] ++ body ++
      [ctx.mark (.done id)]
  | .case _ _ label body | .default _ label body => do
    let body ← stmt ctx targets body
    return (label.map fun label => ctx.mark (.case label)).toList ++ body
  | .exit _ => return leaveTo ctx targets.exit
  | .next _ => return leaveTo ctx targets.next
  | .block _ body => stmts ctx targets body
  | .null _ => return []
def optionalStmt (ctx : Context) (targets : Targets) : Option Stmt → Labelled Code
  | none => return []
  | some s => stmt ctx targets s
def stmts (ctx : Context) (targets : Targets) : List Stmt → Labelled Code
  | [] => return []
  | s :: rest => do
    let s ← stmt ctx targets s
    let rest ← stmts ctx targets rest
    return s ++ rest
end

/-! ## Functions -/

/-- Makes the frame of a function and stores its parameters in it. -/
def prologue (f : Function) : Option Code := do
  let spills ← (f.params.zip Reg.arguments).mapM fun (param, reg) => do
    let v ← f.locals[param]?
    return Line.code (.store (.ofType v.ty) (.frame v.offset) reg)
  let frame : Code :=
    if f.stackSize > 0 then
      [.code (.alu .sub .qword .rsp (.imm (.ofNat f.stackSize.toNat)))]
    else []
  return [.code (.push .rbp), .code (.mov .qword .rbp (.reg .rsp))] ++ frame ++ spills

/-- The code of a function. Reaching the end of the body returns zero. -/
def function (σ : Structs) (f : Function) (body : Stmt) : Option Code := do
  let ctx : Context := ⟨σ, f⟩
  let head ← prologue f
  let body ← (stmt ctx {} body).run' 0
  return functionHead f.name f.isStatic ++ head ++ body ++
    [constant 0, ctx.mark .ret, .code .leave, .code .ret]

def functions (σ : Structs) : List Function → Option Code
  | [] => some []
  | f :: rest => do
    let code ← match f.body with
      | some body => function σ f body
      | none => some []
    return code ++ (← functions σ rest)

def program (p : Program) : Option Code := do
  return (← data p) ++ (← functions p.structs p.functions)

end MiniC.Emit.Stack
