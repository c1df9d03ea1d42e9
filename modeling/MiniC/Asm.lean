import MiniC.Asm.Register

/-!
# Assembly

The lines of an assembly text: directives, labels and instructions. Code is a
list of lines; a text is made from it only at the end, by `render`.

An instruction names what it does rather than one mnemonic: `load` reads memory
and extends the sign, whichever mnemonic the width needs.
-/

namespace MiniC.Asm

/-- What a label inside a function marks. The numbered ones come in groups, one
number for each statement or expression that jumps. -/
inductive Spot where
  | ret
  | otherwise (id : Nat)
  | done (id : Nat)
  | start (id : Nat)
  | again (id : Nat)
  | short (id : Nat)
  | case (label : Nat)
  | block (id : Nat)
deriving DecidableEq

namespace Spot

def text : Spot → String
  | ret => "return"
  | otherwise id => s!"else.{id}"
  | done id => s!"end.{id}"
  | start id => s!"begin.{id}"
  | again id => s!"next.{id}"
  | short id => s!"short.{id}"
  | case label => s!"case.{label}"
  | block id => toString id

end Spot

/-- A place that code or data refers to: a symbol of the program, or a spot of a
function. -/
inductive Label where
  | symbol (name : String)
  | inner (function : String) (spot : Spot)
deriving DecidableEq

namespace Label

def text : Label → String
  | symbol name => name
  | inner function spot => s!".L{function}.{spot.text}"

end Label

/-- A place in memory: below the frame pointer, at a symbol, or where a register
points. -/
inductive Address where
  | frame (offset : UInt32)
  | symbol (name : String)
  | reg (reg : Reg)
deriving DecidableEq

namespace Address

def text : Address → String
  | frame offset => s!"[rbp - {offset.toNat}]"
  | symbol name => s!"[rip + {name}]"
  | reg r => s!"[{r.name .qword}]"

end Address

/-- The second operand of an instruction. -/
inductive Operand where
  | reg (reg : Reg)
  | imm (value : Int64)
deriving DecidableEq

namespace Operand

def text (width : Width) : Operand → String
  | reg r => r.name width
  | imm value => toString value.toInt

end Operand

/-- Operations that change their first operand by the second. -/
inductive AluOp where
  | add | sub | mul | and | or | xor
deriving DecidableEq

namespace AluOp

def mnemonic : AluOp → String
  | add => "add"
  | sub => "sub"
  | mul => "imul"
  | and => "and"
  | or => "or"
  | xor => "xor"

end AluOp

/-- Shifts; the one to the right keeps the sign. -/
inductive ShiftOp where
  | left | right
deriving DecidableEq

namespace ShiftOp

def mnemonic : ShiftOp → String
  | left => "shl"
  | right => "sar"

end ShiftOp

/-- The outcome of a comparison of signed words. -/
inductive Cond where
  | eq | ne | lt | le
deriving DecidableEq

namespace Cond

def suffix : Cond → String
  | eq => "e"
  | ne => "ne"
  | lt => "l"
  | le => "le"

end Cond

/-- An instruction.

`extend` copies the low part of a register with its sign into a whole register,
and `load` does the same from memory; `zeroExtend` copies a low byte without a
sign. `widen` spreads the sign of `rax` over `rdx`, and `idiv` divides the two.
`shift` shifts by the low byte of `rcx`, and `set` writes a condition into a low
byte. A `call` passes the first `passed` of the registers for arguments, which its
text does not show. -/
inductive Instruction where
  | push (reg : Reg)
  | pop (reg : Reg)
  | mov (width : Width) (dst : Reg) (src : Operand)
  | load (width : Width) (dst : Reg) (src : Address)
  | store (width : Width) (dst : Address) (src : Reg)
  | extend (width : Width) (dst src : Reg)
  | zeroExtend (dst src : Reg)
  | lea (dst : Reg) (src : Address)
  | alu (op : AluOp) (width : Width) (dst : Reg) (src : Operand)
  | widen (width : Width)
  | idiv (width : Width) (src : Reg)
  | shift (op : ShiftOp) (width : Width) (dst : Reg)
  | neg (width : Width) (dst : Reg)
  | not (width : Width) (dst : Reg)
  | cmp (width : Width) (lhs : Reg) (rhs : Operand)
  | set (cond : Cond) (dst : Reg)
  | jmp (target : Label)
  | jcc (cond : Cond) (target : Label)
  | call (name : String) (passed : Nat)
  | leave
  | ret
deriving DecidableEq

namespace Instruction

def signed : Width → String
  | .byte => "movsx"
  | .dword => "movsxd"
  | .qword => "mov"

def sizeText : Width → String
  | .byte => "byte ptr"
  | .dword => "dword ptr"
  | .qword => "qword ptr"

def parts : Instruction → String × List String
  | push reg => ("push", [reg.name .qword])
  | pop reg => ("pop", [reg.name .qword])
  | mov width dst src => ("mov", [dst.name width, src.text width])
  | load width dst src => (signed width, [dst.name .qword, s!"{sizeText width} {src.text}"])
  | store width dst src => ("mov", [s!"{sizeText width} {dst.text}", src.name width])
  | extend width dst src => (signed width, [dst.name .qword, src.name width])
  | zeroExtend dst src => ("movzx", [dst.name .qword, src.name .byte])
  | lea dst src => ("lea", [dst.name .qword, src.text])
  | alu op width dst src => (op.mnemonic, [dst.name width, src.text width])
  | widen .qword => ("cqo", [])
  | widen _ => ("cdq", [])
  | idiv width src => ("idiv", [src.name width])
  | shift op width dst => (op.mnemonic, [dst.name width, "cl"])
  | neg width dst => ("neg", [dst.name width])
  | not width dst => ("not", [dst.name width])
  | cmp width lhs rhs => ("cmp", [lhs.name width, rhs.text width])
  | set cond dst => ("set" ++ cond.suffix, [dst.name .byte])
  | jmp target => ("jmp", [target.text])
  | jcc cond target => ("j" ++ cond.suffix, [target.text])
  | call name _ => ("call", [name])
  | leave => ("leave", [])
  | ret => ("ret", [])

def padRight (width : Nat) (text : String) : String :=
  text ++ String.ofList (List.replicate (width - text.length) ' ')

def text (instruction : Instruction) : String :=
  match instruction.parts with
  | (mnemonic, []) => mnemonic
  | (mnemonic, operands) => padRight 8 mnemonic ++ ", ".intercalate operands

end Instruction

/-- A directive. `quad` is the address of a symbol plus an addend. -/
inductive Directive where
  | intel
  | data
  | bss
  | text
  | globl (name : String)
  | align (bytes : UInt32)
  | byte (bytes : List UInt8)
  | quad (symbol : String) (addend : Int64)
  | zero (bytes : UInt32)
deriving DecidableEq

namespace Directive

def addendText (addend : Int64) : String :=
  if addend = 0 then ""
  else if addend < 0 then toString addend.toInt
  else s!"+{addend.toInt}"

def render : Directive → String
  | intel => ".intel_syntax noprefix"
  | data => ".data"
  | bss => ".bss"
  | text => ".text"
  | globl name => s!".globl {name}"
  | align bytes => s!".align {bytes.toNat}"
  | byte bytes => ".byte " ++ ", ".intercalate (bytes.map fun byte => toString byte.toNat)
  | quad symbol addend => s!".quad {symbol}{addendText addend}"
  | zero bytes => s!".zero {bytes.toNat}"

end Directive

/-- A line of assembly. -/
inductive Line where
  | label (label : Label)
  | code (instruction : Instruction)
  | directive (directive : Directive)
deriving DecidableEq

namespace Line

def text : Line → String
  | label l => s!"{l.text}:\n"
  | code i => s!"\t{i.text}\n"
  | directive d => s!"\t{d.render}\n"

end Line

def render (lines : List Line) : String := String.join (lines.map (·.text))

end MiniC.Asm
