import MiniC.Program
import MiniC.Typing.Error

/-!
# Types of expressions

`Typing.expr` gives every node of an expression its type and makes explicit
what the types imply: the offset of a member, the factor that turns a number of
elements into a number of bytes, the division that turns a distance in bytes
into one in elements, the value of `sizeof`, and the parts of a postfix update.

Each node has a function of its own that takes children which already have
their types. An expression that has its types is left as it is.
-/

namespace MiniC

/-- What a call needs to know of a function. -/
structure Signature where
  ret : CType
  params : Nat
  isVariadic : Bool

namespace Signature

def accepts (signature : Signature) (count : Nat) : Bool :=
  if signature.isVariadic then signature.params ≤ count else count == signature.params

end Signature

namespace Typing

/-- What the type of an expression depends on. Functions are listed with the
newest declaration first. -/
structure Context where
  structs : Structs
  functions : List (String × Signature)
  globals : List Global
  strings : List (List UInt8)
  locals : List Var
  implicitDecls : Bool

/-- A typed value, or an error at a place. -/
abbrev Result := Except (Located TypingError)

def fail {α : Type} (error : TypingError) (loc : Location) : Result α := .error ⟨error, loc⟩

/-- An expression that is computed with: an integer or a pointer. -/
def operand (e : Expr) : Result Unit :=
  if e.ty.isInteger || e.ty.isPointer then .ok ()
  else if e.ty.isVoid then fail .voidValue e.loc
  else fail (.invalidOperand e.ty) e.loc

/-- The wider of two types after promotion; the first, if they are equally wide. -/
def wider (σ : Structs) (lhs rhs : CType) : CType :=
  if σ.size rhs > σ.size lhs then rhs.promote else lhs.promote

variable (Γ : Context)

/-! ## Nodes -/

/-- A number. One without a type is an `int` if it fits, else a `long`. -/
def num (note : Note) (value : Int64) : Expr :=
  match note.ty with
  | .void =>
    let fits := -2147483648 ≤ value ∧ value ≤ 2147483647
    .num { note with ty := if fits then .int else .long } value
  | _ => .num note value

def str (loc : Location) (index : Nat) : Expr :=
  let length := (Γ.strings[index]?).elim 0 List.length
  .str ⟨.array .char (.ofNat (length + 1)), loc⟩ index

def var (loc : Location) (index : Nat) : Expr :=
  .var ⟨(Γ.locals[index]?).elim .void (·.ty), loc⟩ index

def global (loc : Location) (name : String) : Result Expr :=
  match Γ.globals.find? (·.name == name) with
  | some g => .ok (.global ⟨g.ty, loc⟩ name)
  | none => fail (.undefined name) loc

/-- An assignment has the type of its target, whose value it is. -/
def assign (loc : Location) (lhs rhs : Expr) : Result Expr :=
  if !lhs.isLvalue || lhs.ty.isAggregate then fail .notAssignable loc
  else if rhs.ty.isVoid then fail .voidValue loc
  else if lhs.ty.isStruct || rhs.ty.isStruct then
    fail (.incompatibleAssignment lhs.ty rhs.ty) loc
  else .ok (.assign ⟨lhs.ty, loc⟩ lhs rhs)

def comma (loc : Location) (lhs rhs : Expr) : Expr := .comma ⟨rhs.ty.decay, loc⟩ lhs rhs

def branchType (loc : Location) (yes no : CType) : Result CType :=
  if yes.isVoid && no.isVoid then .ok .void
  else if yes.isPointer || no.isPointer then
    let (pointer, other) := if yes.isPointer then (yes, no) else (no, yes)
    if other.isInteger || other.isPointer then .ok pointer.decay
    else fail (.invalidOperand other) loc
  else if yes.isInteger && no.isInteger then .ok (wider Γ.structs yes no)
  else fail (.invalidOperands yes no) loc

def cond (loc : Location) (test yes no : Expr) : Result Expr := do
  return .cond ⟨← branchType Γ loc yes.ty no.ty, loc⟩ test yes no

def unary (loc : Location) (op : UnOp) (e : Expr) : Result Expr :=
  match op with
  | .not => do
    operand e
    return .unary ⟨.int, loc⟩ op e
  | .neg | .bitNot =>
    if e.ty.isInteger then .ok (.unary ⟨e.ty.promote, loc⟩ op e)
    else fail (.invalidOperand e.ty) loc

def addr (loc : Location) (e : Expr) : Result Expr :=
  if e.isLvalue then .ok (.addr ⟨.ptr e.ty, loc⟩ e) else fail .notAddressable loc

def deref (loc : Location) (e : Expr) : Result Expr :=
  match e.ty.pointee? with
  | some target =>
    if target.isVoid then fail (.notPointer e.ty) loc else .ok (.deref ⟨target, loc⟩ e)
  | none => fail (.notPointer e.ty) loc

def member (loc : Location) (base : Expr) (name : String) : Result Expr :=
  let field? := match base.ty with
    | .struct ref => Γ.structs.field? ref name
    | _ => none
  match field? with
  | some field => .ok (.member ⟨field.ty, loc⟩ base name field.offset)
  | none => fail (.noSuchField base.ty name) loc

def argument (e : Expr) : Result Unit :=
  if e.ty.isStruct then fail .structByValue e.loc
  else if e.ty.isVoid then fail .voidValue e.loc
  else .ok ()

def call (loc : Location) (callee : String) (args : List Expr) : Result Expr :=
  let count := args.length
  if count > maxArguments then fail (.tooManyArguments count) loc
  else
    match Γ.functions.lookup callee with
    | some signature =>
      if signature.accepts count then .ok (.call ⟨signature.ret, loc⟩ callee args)
      else fail (.arityMismatch callee signature.params count) loc
    | none =>
      if Γ.implicitDecls then .ok (.call ⟨.int, loc⟩ callee args)
      else fail (.undefinedFunction callee) loc

def cast (loc : Location) (target : CType) (e : Expr) : Result Expr :=
  if target.isAggregate || e.ty.isStruct then fail (.invalidCast e.ty target) loc
  else .ok (.cast ⟨target, loc⟩ target e)

def sizeof (loc : Location) (e : Expr) : Result Expr :=
  if Γ.structs.isComplete e.ty then
    .ok (.num ⟨.long, loc⟩ (Int64.ofNat (Γ.structs.size e.ty).toNat))
  else fail (.incomplete e.ty) loc

/-! ## Arithmetic -/

/-- The type of an operation on integers, or on pointers other than addition and
subtraction. -/
def arithmeticType (op : BinOp) (lhs rhs : CType) : CType :=
  if op.isBoolean then .int
  else if op = .shl ∨ op = .shr then lhs.promote
  else wider Γ.structs lhs rhs

/-- The number of bytes between neighbouring elements of a pointer's target. -/
def stride (loc : Location) (pointer : CType) : Result UInt32 :=
  match pointer.pointee? with
  | some target =>
    if target.isVoid then .ok 1
    else if Γ.structs.isComplete target then .ok (Γ.structs.size target)
    else fail (.incomplete pointer) loc
  | none => fail (.incomplete pointer) loc

def sizeAt (loc : Location) (size : UInt32) : Expr :=
  .num ⟨.long, loc⟩ (Int64.ofNat size.toNat)

def scale (size : UInt32) (e : Expr) : Expr :=
  if size = 1 then e
  else .binary ⟨.long, e.loc.span e.loc⟩ .mul false e (sizeAt e.loc size)

/-- A pointer with an offset. The offset is scaled once: `scaled` says that it
has been. -/
def shift (loc : Location) (op : BinOp) (scaled : Bool) (lhs rhs : Expr) : Result Expr := do
  let left := lhs.ty.isPointer
  let pointer := if left then lhs.ty else rhs.ty
  let size ← stride Γ loc pointer
  let note : Note := ⟨pointer.decay, loc⟩
  if scaled then return .binary note op true lhs rhs
  else if left then return .binary note op true lhs (scale size rhs)
  else return .binary note op true (scale size lhs) rhs

/-- The difference of two pointers: the distance in bytes, divided by the size
of an element unless `scaled` says that this has been done around it. -/
def difference (loc : Location) (scaled : Bool) (lhs rhs : Expr) : Result Expr := do
  let size ← stride Γ loc lhs.ty
  let bytes : Expr := .binary ⟨.long, loc⟩ .sub true lhs rhs
  if scaled then return bytes
  else return .binary ⟨.long, loc⟩ .div false bytes (sizeAt loc size)

def binary (loc : Location) (op : BinOp) (scaled : Bool) (lhs rhs : Expr) : Result Expr := do
  operand lhs
  operand rhs
  match op, lhs.ty.isPointer, rhs.ty.isPointer with
  | .add, true, true | .sub, false, true => fail (.invalidOperands lhs.ty rhs.ty) loc
  | .sub, true, true => difference Γ loc scaled lhs rhs
  | .add, true, false | .sub, true, false | .add, false, true => shift Γ loc op scaled lhs rhs
  | _, _, _ => return .binary ⟨arithmeticType Γ op lhs.ty rhs.ty, loc⟩ op scaled lhs rhs

/-- A postfix update `x++`: `(x = x + 1, (T)(x - 1))`, where `T` is the type of
`x`. The cast gives back the old value also where storing cut the new one. -/
def update (loc : Location) (dir : Update) (target : Expr) : Result Expr := do
  let one := num ⟨.void, loc⟩ 1
  let whole := target.loc.span loc
  let updated ← binary Γ whole dir.op false target one
  let stored ← assign (target.loc.span whole) target updated
  let undone ← binary Γ whole dir.undo false target one
  let previous ← cast loc target.ty undone
  return comma (stored.loc.span loc) stored previous

/-! ## Trees -/

mutual
def expr : Expr → Result Expr
  | .num note value => .ok (num note value)
  | .str note index => .ok (str Γ note.loc index)
  | .var note index => .ok (var Γ note.loc index)
  | .global note name => global Γ note.loc name
  | .binary note op scaled lhs rhs => do
    let lhs ← expr lhs
    let rhs ← expr rhs
    binary Γ note.loc op scaled lhs rhs
  | .assign note lhs rhs => do
    let lhs ← expr lhs
    let rhs ← expr rhs
    assign note.loc lhs rhs
  | .comma note lhs rhs => do
    let lhs ← expr lhs
    let rhs ← expr rhs
    return comma note.loc lhs rhs
  | .cond note test yes no => do
    let test ← expr test
    operand test
    let yes ← expr yes
    let no ← expr no
    cond Γ note.loc test yes no
  | .unary note op e => do
    let e ← expr e
    unary note.loc op e
  | .addr note e => do
    let e ← expr e
    addr note.loc e
  | .deref note e => do
    let e ← expr e
    deref note.loc e
  | .member note base name _ => do
    let base ← expr base
    member Γ note.loc base name
  | .call note callee args => do
    let args ← arguments args
    call Γ note.loc callee args
  | .cast note target e => do
    let e ← expr e
    cast note.loc target e
  | .sizeof note e => do
    let e ← expr e
    sizeof Γ note.loc e
  | .update note dir target => do
    let target ← expr target
    update Γ note.loc dir target
def arguments : List Expr → Result (List Expr)
  | [] => .ok []
  | arg :: args => do
    let arg ← expr arg
    argument arg
    let args ← arguments args
    return arg :: args
end

end Typing

end MiniC
