import MiniC.Proofs.Semantics.Extended
import MiniC.Proofs.Semantics.Tree
import MiniC.Typing.Expr

/-!
# What a tree means before typing

Evaluation of a tree as it is written, with no scaling in it: a sum of a pointer and a number moves
the pointer by so many elements, and the difference of two pointers is a number of elements. The
types of operands are those that typing gives them; everything else is as in `Tree`.

How the number of elements is read from its word is a parameter. The word itself is one way; its low
part, with the sign extended from the width of its type, is another.
-/

namespace MiniC.Untyped

def typeOf (Γ : Typing.Context) (e : Expr) : CType := (Typing.expr Γ e).toOption.elim .void (·.ty)

def elementSize (σ : Structs) (target : CType) : Word :=
  if target.isVoid then 1 else .ofNat 64 (σ.size target).toNat

def memberOffset (σ : Structs) (base : CType) (name : String) : UInt32 :=
  match base with
  | .struct ref => (σ.field? ref name).elim 0 (·.offset)
  | _ => 0

/-- How a word of a type is read as a number of elements. -/
abbrev Reading := CType → Word → Word

def whole : Reading := fun _ v => v

def extended : Reading := fun ty v => v.cut (.ofType ty)

/-- The operand of a sum or difference that is a number of elements, as the other one is a pointer. -/
def indexOf {α : Type} (op : BinOp) (lhs rhs : CType) (l r : α) : Option α :=
  match op, lhs.pointee?, rhs.pointee? with
  | .add, some _, none => some r
  | .add, none, some _ => some l
  | .sub, some _, none => some r
  | _, _, _ => none

variable (Γ : Typing.Context) (reading : Reading)

def index? : Expr → Option Expr
  | .binary _ op _ lhs rhs => indexOf op (typeOf Γ lhs) (typeOf Γ rhs) lhs rhs
  | _ => none

def arithmetic (op : BinOp) (lhs rhs : CType) (a b : Word) : Eval Word :=
  match op, lhs.pointee?, rhs.pointee? with
  | .add, some target, none => return a + reading rhs b * elementSize Γ.structs target
  | .add, none, some target => return b + reading lhs a * elementSize Γ.structs target
  | .sub, some target, none => return a - reading rhs b * elementSize Γ.structs target
  | .sub, some target, some _ =>
    let size := elementSize Γ.structs target
    if size = 0 then throw .division else return .ofInt 64 ((a - b).toInt.tdiv size.toInt)
  | op, _, _ => Word.combine op (.ofBinary op (Typing.arithmeticType Γ op lhs rhs)) a b

variable (ctx : Tree.Context)

mutual
def expr (want : Want) : Expr → Eval Word
  | .num _ value => return value.toBitVec
  | .str note index =>
    ctx.host.access want (typeOf Γ (.str note index)) (ctx.host.symbol (stringLabel index))
  | .var note index =>
    match ctx.locals[index]? with
    | some v => ctx.host.access want (typeOf Γ (.var note index)) (ctx.place v)
    | none => throw .untyped
  | .global note name => ctx.host.access want (typeOf Γ (.global note name)) (ctx.host.symbol name)
  | .deref note pointer => do
    ctx.host.access want (typeOf Γ (.deref note pointer)) (← expr .value pointer)
  | .member note base name offset => do
    let distance := memberOffset Γ.structs (typeOf Γ base) name
    ctx.host.access want (typeOf Γ (.member note base name offset))
      ((← expr .address base) + .ofNat 64 distance.toNat)
  | .binary _ .logAnd _ lhs rhs => do
    if (← expr .value lhs) = 0 then return 0
    return .ofBool ((← expr .value rhs) ≠ 0)
  | .binary _ .logOr _ lhs rhs => do
    if (← expr .value lhs) ≠ 0 then return 1
    return .ofBool ((← expr .value rhs) ≠ 0)
  | .binary _ op _ lhs rhs => do
    let a ← expr .value lhs
    let b ← expr .value rhs
    arithmetic Γ reading op (typeOf Γ lhs) (typeOf Γ rhs) a b
  | .assign _ lhs rhs => do
    let a ← expr .address lhs
    let v ← expr .value rhs
    ctx.host.write (.ofType (typeOf Γ lhs)) a v
    return v.cut (.ofType (typeOf Γ lhs))
  | .comma _ lhs rhs => do
    let _ ← expr .value lhs
    expr want rhs
  | .cond _ test yes no => do
    if (← expr .value test) ≠ 0 then expr .value yes else expr .value no
  | .unary note op operand => do
    return .unary op (.arithmetic (typeOf Γ (.unary note op operand))) (← expr .value operand)
  | .addr _ operand => expr .address operand
  | .call note callee args => do
    return (← ctx.host.invoke callee (← arguments args)).cut
      (.ofType (typeOf Γ (.call note callee args)))
  | .cast _ target operand => do
    return (← expr .value operand).cut (.ofType target)
  | .sizeof _ operand => return .ofNat 64 (Γ.structs.size (typeOf Γ operand)).toNat
  -- the target is evaluated again for the value before the update
  | .update _ dir target => do
    let ty := typeOf Γ target
    let a ← expr .address target
    let v ← expr .value target
    ctx.host.write (.ofType ty) a (← arithmetic Γ reading dir.op ty .int v 1)
    let v ← expr .value target
    return (← arithmetic Γ reading dir.undo ty .int v 1).cut (.ofType ty)
def arguments : List Expr → Eval (List Word)
  | [] => return []
  | arg :: args => do
    let v ← expr .value arg
    return v :: (← arguments args)
end

theorem expr_binary {want : Want} {note : Note} {op : BinOp} {scaled : Bool} {lhs rhs : Expr}
    (both : ¬(op = .logAnd ∨ op = .logOr)) :
    expr Γ reading ctx want (.binary note op scaled lhs rhs) = (do
      let a ← expr Γ reading ctx .value lhs
      let b ← expr Γ reading ctx .value rhs
      arithmetic Γ reading op (typeOf Γ lhs) (typeOf Γ rhs) a b) := by
  cases op <;> first | rfl | simp at both

end MiniC.Untyped
