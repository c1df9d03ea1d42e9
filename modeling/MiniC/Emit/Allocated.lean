import MiniC.Allocation.LinearScan
import MiniC.Emit.Data

/-!
# Code from blocks

Code for blocks whose virtual registers have been given registers of the bank.
Every value in the bank has its sign extended to eight bytes: an operation on
four bytes is carried out in `rax`, and its result is extended on the way back.
A jump to the block that follows in the text is left out.
-/

namespace MiniC.Emit.Allocated

open Asm Ir

/-- Lines of code. -/
abbrev Code := List Line

/-- A block with where its code stands: its function, the registers of its
values, and the block that follows. -/
structure Context where
  name : String
  allocation : Allocation
  next : Option BlockId := none

namespace Context

def reg (ctx : Context) (vreg : VReg) : Except EmitError Reg :=
  match (ctx.allocation.slot? vreg).bind (Reg.bank[·]?) with
  | some reg => .ok reg
  | none => .error (.noRegister vreg)

def blockLabel (ctx : Context) (id : BlockId) : Label := .inner ctx.name (.block id.index)

def returnLabel (ctx : Context) : Label := .inner ctx.name .ret

def jump (ctx : Context) (target : BlockId) : Code :=
  if ctx.next = some target then [] else [.code (.jmp (ctx.blockLabel target))]

end Context

/-! ## Short sequences -/

def copy (dst src : Reg) : Line := .code (.mov .qword dst (.reg src))

def copyUnlessSame (dst src : Reg) : Code := if dst = src then [] else [copy dst src]

def test (reg : Reg) : Line := .code (.cmp .qword reg (.imm 0))

def result (width : Width) (dst src : Reg) : Line := .code (.extend width dst src)

def boolean (cond : Cond) (dst : Reg) : Code := [.code (.set cond .rax), .code (.zeroExtend dst .rax)]

def alu (op : AluOp) (width : Width) (dst lhs rhs : Reg) : Code :=
  [copy .rax lhs, .code (.alu op width .rax (.reg rhs)), result width dst .rax]

/-- Divides one value by another and takes the quotient or the remainder. -/
def divide (width : Width) (dst lhs rhs part : Reg) : Code :=
  [copy .rax lhs, .code (.widen width), .code (.idiv width rhs), result width dst part]

def shift (op : ShiftOp) (width : Width) (dst lhs rhs : Reg) : Code :=
  [copy .rax lhs, copy .rcx rhs, .code (.shift op width .rax), result width dst .rax]

def compare (cond : Cond) (width : Width) (dst lhs rhs : Reg) : Code :=
  .code (.cmp width lhs (.reg rhs)) :: boolean cond dst

def logical (op : AluOp) (dst lhs rhs : Reg) : Code :=
  [test lhs, .code (.set .ne .rax), test rhs, .code (.set .ne .rcx),
    .code (.alu op .byte .rax (.reg .rcx)), .code (.zeroExtend dst .rax)]

def binary (op : BinOp) (width : Width) (dst lhs rhs : Reg) : Code :=
  match op with
  | .add => alu .add width dst lhs rhs
  | .sub => alu .sub width dst lhs rhs
  | .mul => alu .mul width dst lhs rhs
  | .bitAnd => alu .and width dst lhs rhs
  | .bitOr => alu .or width dst lhs rhs
  | .bitXor => alu .xor width dst lhs rhs
  | .div => divide width dst lhs rhs .rax
  | .mod => divide width dst lhs rhs .rdx
  | .shl => shift .left width dst lhs rhs
  | .shr => shift .right width dst lhs rhs
  | .eq => compare .eq width dst lhs rhs
  | .ne => compare .ne width dst lhs rhs
  | .lt => compare .lt width dst lhs rhs
  | .le => compare .le width dst lhs rhs
  | .logAnd => logical .and dst lhs rhs
  | .logOr => logical .or dst lhs rhs

def unary (op : UnOp) (width : Width) (dst src : Reg) : Code :=
  match op with
  | .not => test src :: boolean .eq dst
  | .neg => [copy .rax src, .code (.neg width .rax), result width dst .rax]
  | .bitNot => [copy .rax src, .code (.not width .rax), result width dst .rax]

/-- A call. The registers of the bank that belong to the caller are kept on the
stack meanwhile. -/
def call (name : String) (args : List Reg) (width : Width) (dst : Reg) : Code :=
  [.code (.push .r10), .code (.push .r11)] ++ Reg.arguments.zipWith copy args ++
    [.code (.mov .dword .rax (.imm 0)), .code (.call name args.length), .code (.pop .r11),
      .code (.pop .r10), result width dst .rax]

def branch (ctx : Context) (reg : Reg) (yes no : BlockId) : Code :=
  test reg ::
    if ctx.next = some yes then [.code (.jcc .eq (ctx.blockLabel no))]
    else .code (.jcc .ne (ctx.blockLabel yes)) :: ctx.jump no

/-! ## Instructions and blocks -/

def instruction (ctx : Context) : Ir.Instruction → Except EmitError Code
  | .imm dst value => do return [.code (.mov .qword (← ctx.reg dst) (.imm value))]
  | .label dst symbol => do return [.code (.lea (← ctx.reg dst) (.symbol symbol))]
  | .localAddr dst offset => do return [.code (.lea (← ctx.reg dst) (.frame offset))]
  | .mov dst src => do return copyUnlessSame (← ctx.reg dst) (← ctx.reg src)
  | .binary op width dst lhs rhs => do
    return binary op width (← ctx.reg dst) (← ctx.reg lhs) (← ctx.reg rhs)
  | .unary op width dst src => do return unary op width (← ctx.reg dst) (← ctx.reg src)
  | .cast .qword dst src => do return copyUnlessSame (← ctx.reg dst) (← ctx.reg src)
  | .cast width dst src => do return [result width (← ctx.reg dst) (← ctx.reg src)]
  | .load width dst addr => do
    return [.code (.load width (← ctx.reg dst) (.reg (← ctx.reg addr)))]
  | .store width addr src => do
    return [.code (.store width (.reg (← ctx.reg addr)) (← ctx.reg src))]
  | .call width dst name args => do
    let passed ← (args.take maxPassed).mapM ctx.reg
    return call name passed width (← ctx.reg dst)
  | .branch question yes no => do return branch ctx (← ctx.reg question) yes no
  | .jump target => return ctx.jump target
  | .ret (some value) => do
    return [copy .rax (← ctx.reg value), .code (.jmp ctx.returnLabel)]
  | .ret none => return [.code (.jmp ctx.returnLabel)]
where
  /-- The most arguments a call passes. -/
  maxPassed : Nat := Reg.arguments.length

def instructions (ctx : Context) : List Ir.Instruction → Except EmitError Code
  | [] => return []
  | i :: rest => do
    let first ← instruction ctx i
    let rest ← instructions ctx rest
    return first ++ rest

def blocks (ctx : Context) : List Block → Except EmitError Code
  | [] => return []
  | block :: rest => do
    let ctx := { ctx with next := rest.head?.map (·.id) }
    let body ← instructions ctx block.instructions
    let rest ← blocks ctx rest
    return .label (ctx.blockLabel block.id) :: body ++ rest

/-! ## Functions -/

/-- The registers of the bank that a function has to keep for its caller. -/
def saved (allocation : Allocation) : List Reg :=
  (allocation.used.filterMap (Reg.bank[·]?)).filter (·.isCalleeSaved)

/-- Moves the stack pointer so that the saved registers keep it aligned. -/
def alignment (op : AluOp) (saved : List Reg) : Code :=
  if padding saved.length > 0 then [.code (.alu op .qword .rsp (.imm 8))] else []

/-- Makes the frame of a function, saves registers, and moves the parameters to
their registers. -/
def prologue (ctx : Context) (f : Ir.Function) : Except EmitError Code := do
  let frame : Code :=
    if f.stackSize > 0 then
      [.code (.alu .sub .qword .rsp (.imm (.ofNat f.stackSize.toNat)))]
    else []
  let kept := saved ctx.allocation
  let params ← (f.params.zip Reg.arguments).mapM fun (param, arg) => do
    return copy (← ctx.reg param) arg
  return [.code (.push .rbp), .code (.mov .qword .rbp (.reg .rsp))] ++ frame ++
    kept.map (fun reg => .code (.push reg)) ++ alignment .sub kept ++ params

def epilogue (ctx : Context) : Code :=
  let kept := saved ctx.allocation
  [.label ctx.returnLabel] ++ alignment .add kept ++
    kept.reverse.map (fun reg => .code (.pop reg)) ++ [.code .leave, .code .ret]

/-- The code of a function, given where its registers are. -/
def emit (allocation : Allocation) (f : Ir.Function) : Except EmitError Code := do
  let ctx : Context := { name := f.name, allocation }
  let head ← prologue ctx f
  let body ← blocks ctx f.blocks
  return functionHead f.name f.isStatic ++ head ++ body ++ epilogue ctx

def function (f : Ir.Function) : Except EmitError Code := do
  emit (← Allocation.allocate Reg.bank.length f) f

/-- The code of functions; an error is at the place of its function. -/
def functions : List Ir.Function → Except (Located EmitError) Code
  | [] => return []
  | f :: rest => do
    let code ← (function f).mapError (⟨·, f.loc⟩)
    let rest ← functions rest
    return code ++ rest

/-- The assembly of a program, given the blocks of its functions. -/
def program (p : Program) (blocks : List Ir.Function) : Except (Located EmitError) Code := do
  match data p with
  | none => throw ⟨.malformed, p.loc⟩
  | some lines => return lines ++ (← functions blocks)

end MiniC.Emit.Allocated
