import MiniC.Program.Expr

/-!
# Blocks over virtual registers

The intermediate form of a function: basic blocks in a fixed order, whose
instructions compute on any number of virtual registers. Variables stay in the
stack frame. A virtual register carries the result of a subexpression, and a
jump backwards never needs one, so the places where a register matters can be
read off the order of the instructions in the text.
-/

namespace MiniC

/-- How many bytes an operation works on: one, four or eight. -/
inductive Width where
  | byte
  | dword
  | qword
deriving DecidableEq

namespace Width

def ofType : CType → Width
  | .char => byte
  | .int => dword
  | _ => qword

/-- The width of arithmetic on a type, which is never below four bytes. -/
def arithmetic (ty : CType) : Width :=
  match ofType ty with
  | byte => dword
  | width => width

/-- The width of a binary operation with a result of type `ty`. Comparisons work
on whole words, since every value has its sign extended. -/
def ofBinary (op : BinOp) (ty : CType) : Width :=
  if op.isBoolean then qword else arithmetic ty

def text : Width → String
  | byte => "b"
  | dword => "d"
  | qword => "q"

end Width

namespace Ir

/-- A virtual register. -/
structure VReg where
  index : Nat
deriving DecidableEq

/-- The name of a block, unique in its function. -/
structure BlockId where
  index : Nat
deriving DecidableEq

/-- An instruction. `cast` cuts a value to a width and extends its sign again;
`localAddr` is the address of the local `offset` bytes below the frame pointer. -/
inductive Instruction where
  | imm (dst : VReg) (value : Int64)
  | label (dst : VReg) (symbol : String)
  | localAddr (dst : VReg) (offset : UInt32)
  | mov (dst src : VReg)
  | binary (op : BinOp) (width : Width) (dst lhs rhs : VReg)
  | unary (op : UnOp) (width : Width) (dst src : VReg)
  | cast (width : Width) (dst src : VReg)
  | load (width : Width) (dst addr : VReg)
  | store (width : Width) (addr src : VReg)
  | call (width : Width) (dst : VReg) (name : String) (args : List VReg)
  | branch (test : VReg) (yes no : BlockId)
  | jump (target : BlockId)
  | ret (value : Option VReg)
deriving DecidableEq

namespace Instruction

def def? : Instruction → Option VReg
  | imm dst _ | label dst _ | localAddr dst _ | mov dst _ | binary _ _ dst _ _ | unary _ _ dst _
  | cast _ dst _ | load _ dst _ | call _ dst _ _ => some dst
  | store .. | branch .. | jump _ | ret _ => none

def uses : Instruction → List VReg
  | imm .. | label .. | localAddr .. | jump _ | ret none => []
  | mov _ src | unary _ _ _ src | cast _ _ src => [src]
  | binary _ _ _ lhs rhs => [lhs, rhs]
  | load _ _ addr => [addr]
  | store _ addr src => [addr, src]
  | call _ _ _ args => args
  | branch test _ _ => [test]
  | ret (some value) => [value]

def isTerminator : Instruction → Bool
  | branch .. | jump _ | ret _ => true
  | _ => false

end Instruction

/-- A block. -/
structure Block where
  id : BlockId
  instructions : List Instruction

/-- A function. A pinned register must get the register of the bank at the
given place. -/
structure Function where
  name : String
  params : List VReg
  blocks : List Block
  pins : List (VReg × Nat)
  stackSize : UInt32
  isStatic : Bool
  loc : Location

namespace Function

def instructions (f : Function) : List Instruction := f.blocks.flatMap (·.instructions)

def pin? (f : Function) (vreg : VReg) : Option Nat :=
  (f.pins.find? (·.1 = vreg)).map (·.2)

end Function

end Ir

end MiniC
