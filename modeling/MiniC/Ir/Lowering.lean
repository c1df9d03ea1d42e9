import MiniC.Ir
import MiniC.Program

/-!
# From trees to blocks

Every subexpression of a typed tree leaves its value in a new virtual register,
and every operator is one instruction.

Blocks are opened as late as possible. A terminator closes the block that is
open; an instruction after it opens a block that nothing jumps to, and opening a
block while another one is open makes that one jump to it.

There are no blocks for a tree that typing does not produce.
-/

namespace MiniC.Ir.Lowering

/-- A block that is not finished, with its newest instruction first. -/
structure OpenBlock where
  id : BlockId
  reversed : List Instruction := []

namespace OpenBlock

def toBlock (b : OpenBlock) : Block := ⟨b.id, b.reversed.reverse⟩

end OpenBlock

/-- The blocks of a function so far. `closed` has the newest block first; `cases`
gives the block of each case label. -/
structure Build where
  closed : List Block := []
  current : Option OpenBlock := none
  nextVReg : Nat := 0
  nextBlock : Nat := 0
  cases : List (Nat × BlockId) := []

namespace Build

/-- Adds an instruction to a block, which is closed if the instruction ends it. -/
def append (b : Build) (block : OpenBlock) (i : Instruction) : Build :=
  let block := { block with reversed := i :: block.reversed }
  if i.isTerminator then { b with closed := block.toBlock :: b.closed, current := none }
  else { b with current := some block }

def emit (b : Build) (i : Instruction) : Build :=
  match b.current with
  | some block => b.append block i
  | none => { b with nextBlock := b.nextBlock + 1 }.append { id := ⟨b.nextBlock⟩ } i

def start (b : Build) (id : BlockId) : Build :=
  let b := if b.current.isSome then b.emit (.jump id) else b
  { b with current := some { id } }

def blocks (b : Build) : List Block := b.closed.reverse ++ (b.current.map (·.toBlock)).toList

end Build

/-- A step of the construction. -/
abbrev Lower := StateT Build Option

def emit (i : Instruction) : Lower Unit := modify (·.emit i)

def start (id : BlockId) : Lower Unit := modify (·.start id)

def vreg : Lower VReg := modifyGet fun b => (⟨b.nextVReg⟩, { b with nextVReg := b.nextVReg + 1 })

def newBlock : Lower BlockId :=
  modifyGet fun b => (⟨b.nextBlock⟩, { b with nextBlock := b.nextBlock + 1 })

def define (i : VReg → Instruction) : Lower VReg := do
  let dst ← vreg
  emit (i dst)
  return dst

def imm (value : Int64) : Lower VReg := define (.imm · value)

/-! ## Expressions -/

/-- The function that is being lowered, and the structs of its program. -/
structure Context where
  structs : Structs
  function : MiniC.Function

/-- Turns an address into what is wanted. Arrays and structs are handled by their
address. -/
def access (want : Want) (ty : CType) (addr : VReg) : Lower VReg :=
  match want with
  | .address => return addr
  | .value => if ty.isAggregate then return addr else define (.load (.ofType ty) · addr)

def displace (base : VReg) (offset : UInt32) : Lower VReg := do
  if offset = 0 then return base
  else
    let distance ← imm (.ofNat offset.toNat)
    define (.binary .add .qword · base distance)

def unaryWidth (op : UnOp) (ty : CType) : Width :=
  if op = .not then .qword else .arithmetic ty

/-- The value of a block that ends in `join`, moved to `result`. -/
def joinWith (result : VReg) (join block : BlockId) (value : Lower VReg) : Lower Unit := do
  start block
  let src ← value
  emit (.mov result src)
  emit (.jump join)

mutual
/-- Lowers an expression: what is wanted of it is in the answer. -/
def expr (ctx : Context) (want : Want) : Expr → Lower VReg
  | .num _ value => imm value
  | .str note index => do
    access want note.ty (← define (.label · (stringLabel index)))
  | .var note index => do
    let v ← liftM ctx.function.locals[index]?
    access want note.ty (← define (.localAddr · v.offset))
  | .global note name => do
    access want note.ty (← define (.label · name))
  | .deref note pointer => do
    let pointer ← expr ctx .value pointer
    access want note.ty pointer
  | .member note base _ offset => do
    let base ← expr ctx .address base
    access want note.ty (← displace base offset)
  | .binary note op _ lhs rhs =>
    if op = .logAnd ∨ op = .logOr then do
      let result ← vreg
      let right ← newBlock
      let short ← newBlock
      let join ← newBlock
      let lhs ← expr ctx .value lhs
      if op = .logAnd then emit (.branch lhs right short) else emit (.branch lhs short right)
      start right
      let rhs ← expr ctx .value rhs
      let zero ← imm 0
      emit (.binary .ne .qword result rhs zero)
      emit (.jump join)
      start short
      emit (.imm result (if op = .logAnd then 0 else 1))
      start join
      return result
    else do
      let lhs ← expr ctx .value lhs
      let rhs ← expr ctx .value rhs
      define (.binary op (.ofBinary op note.ty) · lhs rhs)
  | .assign _ lhs rhs => do
    let addr ← expr ctx .address lhs
    let value ← expr ctx .value rhs
    let width := Width.ofType lhs.ty
    emit (.store width addr value)
    if width = .qword then return value else define (.cast width · value)
  | .comma _ lhs rhs => do
    let _ ← expr ctx .value lhs
    expr ctx want rhs
  | .cond _ question yes no => do
    let result ← vreg
    let yesBlock ← newBlock
    let noBlock ← newBlock
    let join ← newBlock
    let question ← expr ctx .value question
    emit (.branch question yesBlock noBlock)
    joinWith result join yesBlock (expr ctx .value yes)
    joinWith result join noBlock (expr ctx .value no)
    start join
    return result
  | .unary note op operand => do
    let src ← expr ctx .value operand
    define (.unary op (unaryWidth op note.ty) · src)
  | .addr _ operand => expr ctx .address operand
  | .call note callee args => do
    let args ← arguments ctx args
    define (.call (.ofType note.ty) · callee args)
  | .cast _ target operand => do
    let src ← expr ctx .value operand
    match Width.ofType target with
    | .qword => return src
    | width => define (.cast width · src)
  | .sizeof _ operand => imm (.ofNat (ctx.structs.size operand.ty).toNat)
  | .update .. => failure
def arguments (ctx : Context) : List Expr → Lower (List VReg)
  | [] => return []
  | arg :: args => do
    let arg ← expr ctx .value arg
    let args ← arguments ctx args
    return arg :: args
end

/-! ## Statements -/

/-- Where `break` and `continue` lead. -/
structure Targets where
  exit : Option BlockId := none
  next : Option BlockId := none

def leaveTo : Option BlockId → Lower Unit
  | some target => emit (.jump target)
  | none => return ()

def value (ctx : Context) (e : Expr) : Lower VReg := expr ctx .value e

def effect (ctx : Context) : Option Expr → Lower Unit
  | none => return ()
  | some e => do let _ ← value ctx e

def branch (ctx : Context) (e : Expr) (yes no : BlockId) : Lower Unit := do
  emit (.branch (← value ctx e) yes no)

/-- The comparisons of a `switch` with its cases, each of which gets a block. The
answer is the block of the last default label, else `fallback`. -/
def dispatch (value : VReg) (fallback : BlockId) : List CaseLabel → Lower BlockId
  | [] => return fallback
  | case :: rest => do
    let target ← newBlock
    modify fun b => { b with cases := (case.label, target) :: b.cases }
    match case.value with
    | none => dispatch value target rest
    | some constant =>
      let constant ← imm constant
      let matched ← define (.binary .eq .qword · value constant)
      let next ← newBlock
      emit (.branch matched target next)
      start next
      dispatch value fallback rest

def startCase (label : Option Nat) : Lower Unit := do
  let cases := (← get).cases
  match label.bind (cases.lookup ·) with
  | some target => start target
  | none => return ()

mutual
def stmt (ctx : Context) (targets : Targets) : Stmt → Lower Unit
  | .expr _ e => effect ctx (some e)
  | .ret _ none => emit (.ret none)
  | .ret _ (some e) => do
    let result ← value ctx e
    emit (.ret (some result))
  | .branch _ question yes none => do
    let yesBlock ← newBlock
    let join ← newBlock
    branch ctx question yesBlock join
    start yesBlock
    stmt ctx targets yes
    start join
  | .branch _ question yes (some no) => do
    let yesBlock ← newBlock
    let join ← newBlock
    let noBlock ← newBlock
    branch ctx question yesBlock noBlock
    start yesBlock
    stmt ctx targets yes
    emit (.jump join)
    start noBlock
    stmt ctx targets no
    start join
  | .whileLoop _ question body => do
    let head ← newBlock
    let first ← newBlock
    let exit ← newBlock
    start head
    branch ctx question first exit
    start first
    stmt ctx ⟨some exit, some head⟩ body
    emit (.jump head)
    start exit
  | .doLoop _ body question => do
    let first ← newBlock
    let next ← newBlock
    let exit ← newBlock
    start first
    stmt ctx ⟨some exit, some next⟩ body
    start next
    branch ctx question first exit
    start exit
  | .forLoop _ init question step body => do
    optionalStmt ctx targets init
    let head ← newBlock
    let first ← newBlock
    let next ← newBlock
    let exit ← newBlock
    start head
    if let some question := question then branch ctx question first exit
    start first
    stmt ctx ⟨some exit, some next⟩ body
    start next
    effect ctx step
    emit (.jump head)
    start exit
  | .switch _ e body cases => do
    let result ← value ctx e
    let exit ← newBlock
    let fallback ← dispatch result exit cases
    emit (.jump fallback)
    stmt ctx { targets with exit := some exit } body
    start exit
  | .case _ _ label body | .default _ label body => do
    startCase label
    stmt ctx targets body
  | .exit _ => leaveTo targets.exit
  | .next _ => leaveTo targets.next
  | .block _ body => stmts ctx targets body
  | .null _ => return ()
def optionalStmt (ctx : Context) (targets : Targets) : Option Stmt → Lower Unit
  | none => return ()
  | some s => stmt ctx targets s
def stmts (ctx : Context) (targets : Targets) : List Stmt → Lower Unit
  | [] => return ()
  | s :: rest => do
    stmt ctx targets s
    stmts ctx targets rest
end

/-! ## Functions -/

/-- Stores parameters in the frame. The answer is the registers they arrive in. -/
def spill (f : MiniC.Function) : List Nat → Lower (List VReg)
  | [] => return []
  | param :: rest => do
    let v ← liftM f.locals[param]?
    let arrived ← vreg
    let addr ← define (.localAddr · v.offset)
    emit (.store (.ofType v.ty) addr arrived)
    let rest ← spill f rest
    return arrived :: rest

/-- A function: its parameters, then its body. Reaching the end of the body
returns zero. -/
def body (ctx : Context) (code : Stmt) : Lower (List VReg) := do
  start (← newBlock)
  let params ← spill ctx.function ctx.function.params
  stmt ctx {} code
  if (← get).current.isSome then
    let zero ← imm 0
    emit (.ret (some zero))
  return params

end Lowering

open Lowering in
/-- The blocks of a function. Each parameter is pinned to the register of the
bank at its own place. -/
def lowerFunction (σ : Structs) (f : MiniC.Function) (code : Stmt) : Option Function := do
  let (params, built) ← body ⟨σ, f⟩ code {}
  return {
    name := f.name
    params
    blocks := built.blocks
    pins := params.zipIdx
    stackSize := f.stackSize
    isStatic := f.isStatic
    loc := f.loc }

def lowerFunctions (σ : Structs) : List MiniC.Function → Option (List Function)
  | [] => some []
  | f :: rest => do
    match f.body with
    | some code => return (← lowerFunction σ f code) :: (← lowerFunctions σ rest)
    | none => lowerFunctions σ rest

def lower (p : Program) : Option (List Function) := lowerFunctions p.structs p.functions

end MiniC.Ir
