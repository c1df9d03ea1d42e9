import MiniC.Program
import MiniC.Text.Outline
import MiniC.Text.Quoted

/-!
# Programs as outlines

The outline of a program shows every part of its tree with its type and place.
-/

namespace MiniC

namespace Outline

def ofLocation (loc : Location) : Outline := .atom loc.text

def ofText (text : String) : Outline := .atom (Text.quoteString text)

def ofName (name : String) : Outline := .tuple "Identifier" [ofText name]

def ofLocal (index : Nat) : Outline := .tuple "VarId" [ofNat index]

end Outline

open Outline

namespace CType

def outline : CType → Outline
  | void => .atom "Void"
  | char => .atom "Char"
  | int => .atom "Int"
  | long => .atom "Long"
  | ptr target => .tuple "Ptr" [target.outline]
  | array element length => .tuple "Array" [element.outline, ofNat length.toNat]
  | struct ref => .tuple "Struct" [.atom ref.text]

end CType

namespace Expr

def nodeOutline (note : Note) (kind : Outline) : Outline :=
  .record "Expr" [("kind", kind), ("ty", note.ty.outline), ("location", ofLocation note.loc)]

mutual
def outline : Expr → Outline
  | num note value => nodeOutline note (.tuple "Num" [ofWord value])
  | str note index => nodeOutline note (.tuple "Str" [ofNat index])
  | var note index => nodeOutline note (.tuple "Local" [ofLocal index])
  | global note name => nodeOutline note (.tuple "Global" [ofName name])
  | binary note op scaled lhs rhs =>
    nodeOutline note (.record "Binary" [
      ("op", .atom op.name), ("lhs", lhs.outline), ("rhs", rhs.outline), ("scaled", ofBool scaled)])
  | assign note lhs rhs =>
    nodeOutline note (.record "Assign" [("lhs", lhs.outline), ("rhs", rhs.outline)])
  | comma note lhs rhs => nodeOutline note (.tuple "Comma" [lhs.outline, rhs.outline])
  | cond note test yes no =>
    nodeOutline note (.record "Cond" [
      ("cond", test.outline), ("then", yes.outline), ("els", no.outline)])
  | unary note op operand =>
    nodeOutline note (.record "Unary" [("op", .atom op.name), ("expr", operand.outline)])
  | addr note operand => nodeOutline note (.tuple "Addr" [operand.outline])
  | deref note operand => nodeOutline note (.tuple "Deref" [operand.outline])
  | member note base name offset =>
    nodeOutline note (.record "Member" [
      ("expr", base.outline), ("name", ofName name), ("offset", ofNat offset.toNat)])
  | call note callee args =>
    nodeOutline note (.record "Call" [("name", ofName callee), ("args", .list (outlines args))])
  | cast note target operand =>
    nodeOutline note (.record "Cast" [("to", target.outline), ("expr", operand.outline)])
  | sizeof note operand => nodeOutline note (.tuple "Sizeof" [operand.outline])
  | update note dir target =>
    nodeOutline note (.record "Postfix" [("op", .atom dir.op.name), ("expr", target.outline)])
def outlines : List Expr → List Outline
  | [] => []
  | e :: rest => e.outline :: outlines rest
end

end Expr

namespace CaseLabel

def outline (case : CaseLabel) : Outline :=
  .record "CaseLabel" [
    ("value", ofOption (case.value.map ofWord)), ("label", ofNat case.label)]

end CaseLabel

namespace Stmt

def nodeOutline (loc : Location) (kind : Outline) : Outline :=
  .record "Stmt" [("kind", kind), ("location", ofLocation loc)]

def exprOutline (e : Option Expr) : Outline := ofOption (e.map (·.outline))

def labelOutline (label : Option Nat) : Outline := ofOption (label.map ofNat)

mutual
def outline : Stmt → Outline
  | expr loc e => nodeOutline loc (.tuple "Expr" [e.outline])
  | ret loc e => nodeOutline loc (.tuple "Return" [exprOutline e])
  | branch loc test yes no =>
    nodeOutline loc (.record "If" [
      ("cond", test.outline), ("then", yes.outline), ("els", optionOutline no)])
  | whileLoop loc test body =>
    nodeOutline loc (.record "While" [("cond", test.outline), ("body", body.outline)])
  | doLoop loc body test =>
    nodeOutline loc (.record "DoWhile" [("body", body.outline), ("cond", test.outline)])
  | forLoop loc init test step body =>
    nodeOutline loc (.record "For" [
      ("init", optionOutline init), ("cond", exprOutline test), ("step", exprOutline step),
      ("body", body.outline)])
  | switch loc e body cases =>
    nodeOutline loc (.record "Switch" [
      ("cond", e.outline), ("body", body.outline), ("cases", .list (cases.map (·.outline)))])
  | case loc value label body =>
    nodeOutline loc (.record "Case" [
      ("value", ofWord value), ("label", labelOutline label), ("body", body.outline)])
  | default loc label body =>
    nodeOutline loc (.record "Default" [("label", labelOutline label), ("body", body.outline)])
  | exit loc => nodeOutline loc (.atom "Break")
  | next loc => nodeOutline loc (.atom "Continue")
  | block loc body => nodeOutline loc (.tuple "Block" [.list (outlines body)])
  | null loc => nodeOutline loc (.atom "Null")
def optionOutline : Option Stmt → Outline
  | none => ofOption none
  | some s => ofOption (some s.outline)
def outlines : List Stmt → List Outline
  | [] => []
  | s :: rest => s.outline :: outlines rest
end

end Stmt

namespace Var

def outline (v : Var) : Outline :=
  .record "Var" [
    ("name", ofName v.name), ("ty", v.ty.outline), ("offset", ofNat v.offset.toNat),
    ("location", ofLocation v.loc)]

end Var

namespace Function

def outline (f : Function) : Outline :=
  .record "Function" [
    ("name", ofName f.name),
    ("ret", f.ret.outline),
    ("params", .list (f.params.map ofLocal)),
    ("locals", .list (f.locals.map (·.outline))),
    ("body", ofOption (f.body.map (·.outline))),
    ("stack_size", ofNat f.stackSize.toNat),
    ("is_static", ofBool f.isStatic),
    ("is_variadic", ofBool f.isVariadic),
    ("location", ofLocation f.loc)]

end Function

namespace Image

def bytesOutline (bytes : List UInt8) : Outline := .list (bytes.map fun byte => ofNat byte.toNat)

def relocationOutline (r : Relocation) : Outline :=
  .record "Relocation" [
    ("offset", ofNat r.offset.toNat), ("symbol", ofText r.symbol), ("addend", ofWord r.addend)]

def outline (image : Image) : Outline :=
  .record "Initializer" [
    ("bytes", bytesOutline image.bytes.toList),
    ("relocations", .list (image.relocations.map relocationOutline))]

end Image

namespace Global

def outline (g : Global) : Outline :=
  .record "Global" [
    ("name", ofName g.name),
    ("ty", g.ty.outline),
    ("init", ofOption (g.init.map (·.outline))),
    ("is_extern", ofBool g.isExtern),
    ("is_static", ofBool g.isStatic),
    ("location", ofLocation g.loc)]

end Global

namespace Program

def outline (p : Program) : Outline :=
  .record "Program" [
    ("functions", .list (p.functions.map (·.outline))),
    ("globals", .list (p.globals.map (·.outline))),
    ("strings", .list (p.strings.map Image.bytesOutline)),
    ("location", ofLocation p.loc)]

end Program

end MiniC
