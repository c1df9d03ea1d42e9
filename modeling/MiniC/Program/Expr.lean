import MiniC.CType
import MiniC.Source

/-!
# Expressions

Expression trees. Every node carries a `Note`: its type and its location.
Parsing leaves most types `void`; typing fills them in, sets the offsets of
members, scales pointer arithmetic and replaces postfix updates and `sizeof`.
-/

namespace MiniC

/-- Binary operators. `>` and `>=` are `lt` and `le` with the operands swapped. -/
inductive BinOp where
  | add | sub | mul | div | mod
  | bitAnd | bitOr | bitXor | shl | shr
  | eq | ne | lt | le
  | logAnd | logOr
deriving DecidableEq

namespace BinOp

def isBoolean : BinOp → Bool
  | eq | ne | lt | le | logAnd | logOr => true
  | _ => false

def name : BinOp → String
  | add => "Add"
  | sub => "Sub"
  | mul => "Mul"
  | div => "Div"
  | mod => "Mod"
  | bitAnd => "BitAnd"
  | bitOr => "BitOr"
  | bitXor => "BitXor"
  | shl => "Shl"
  | shr => "Shr"
  | eq => "Eq"
  | ne => "Ne"
  | lt => "Lt"
  | le => "Le"
  | logAnd => "LogAnd"
  | logOr => "LogOr"

end BinOp

/-- Unary operators on values. -/
inductive UnOp where
  | neg | not | bitNot
deriving DecidableEq

namespace UnOp

def name : UnOp → String
  | neg => "Neg"
  | not => "Not"
  | bitNot => "BitNot"

end UnOp

/-- The direction of a postfix update: `x++` or `x--`. -/
inductive Update where
  | inc | dec
deriving DecidableEq

namespace Update

def op : Update → BinOp
  | inc => .add
  | dec => .sub

def undo : Update → BinOp
  | inc => .sub
  | dec => .add

end Update

/-- What evaluating an expression is to give: its value, or the address of the
object it designates. -/
inductive Want where
  | value
  | address
deriving DecidableEq

/-- The type and the place of an expression. -/
structure Note where
  ty : CType
  loc : Location
deriving DecidableEq

/-- An expression. Locals are numbered within their function, strings within
the program; `scaled` marks pointer arithmetic whose offset counts bytes. -/
inductive Expr where
  | num (note : Note) (value : Int64)
  | str (note : Note) (index : Nat)
  | var (note : Note) (index : Nat)
  | global (note : Note) (name : String)
  | binary (note : Note) (op : BinOp) (scaled : Bool) (lhs rhs : Expr)
  | assign (note : Note) (lhs rhs : Expr)
  | comma (note : Note) (lhs rhs : Expr)
  | cond (note : Note) (test yes no : Expr)
  | unary (note : Note) (op : UnOp) (operand : Expr)
  | addr (note : Note) (operand : Expr)
  | deref (note : Note) (operand : Expr)
  | member (note : Note) (base : Expr) (name : String) (offset : UInt32)
  | call (note : Note) (callee : String) (args : List Expr)
  | cast (note : Note) (target : CType) (operand : Expr)
  | sizeof (note : Note) (operand : Expr)
  | update (note : Note) (dir : Update) (target : Expr)

namespace Expr

def note : Expr → Note
  | num note _ | str note _ | var note _ | global note _ | binary note .. | assign note ..
  | comma note .. | cond note .. | unary note .. | addr note _ | deref note _ | member note ..
  | call note .. | cast note .. | sizeof note _ | update note .. => note

def ty (e : Expr) : CType := e.note.ty

def loc (e : Expr) : Location := e.note.loc

def withNote (note : Note) : Expr → Expr
  | num _ value => num note value
  | str _ index => str note index
  | var _ index => var note index
  | global _ name => global note name
  | binary _ op scaled lhs rhs => binary note op scaled lhs rhs
  | assign _ lhs rhs => assign note lhs rhs
  | comma _ lhs rhs => comma note lhs rhs
  | cond _ test yes no => cond note test yes no
  | unary _ op operand => unary note op operand
  | addr _ operand => addr note operand
  | deref _ operand => deref note operand
  | member _ base name offset => member note base name offset
  | call _ callee args => call note callee args
  | cast _ target operand => cast note target operand
  | sizeof _ operand => sizeof note operand
  | update _ dir target => update note dir target

def withLoc (loc : Location) (e : Expr) : Expr := e.withNote { e.note with loc }

/-! ## Untyped nodes -/

def numAt (loc : Location) (value : Int64) : Expr := num ⟨.void, loc⟩ value

def mkBinary (op : BinOp) (lhs rhs : Expr) : Expr :=
  binary ⟨.void, lhs.loc.span rhs.loc⟩ op false lhs rhs

def mkAssign (lhs rhs : Expr) : Expr := assign ⟨.void, lhs.loc.span rhs.loc⟩ lhs rhs

def mkComma (lhs rhs : Expr) : Expr := comma ⟨.void, lhs.loc.span rhs.loc⟩ lhs rhs

/-- The object a pointer points to, at the place of the pointer. -/
def mkDeref (operand : Expr) : Expr := deref ⟨.void, operand.loc⟩ operand

def mkMember (base : Expr) (name : String) : Expr := member ⟨.void, base.loc⟩ base name 0

def elementAt (array : Expr) (index : Nat) : Expr :=
  mkDeref (mkBinary .add array (numAt array.loc (Int64.ofNat index)))

def isLvalue : Expr → Bool
  | var .. | global .. | deref .. | member .. => true
  | _ => false

end Expr

end MiniC
