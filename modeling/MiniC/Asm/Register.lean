import MiniC.Ir

/-!
# Registers

The registers of the machine, and the parts they play. Six registers carry
arguments; seven make up the bank that is handed out to virtual registers. The
first two of the bank belong to the caller of a function and the others to the
function that is called.
-/

namespace MiniC.Asm

/-- A register. -/
inductive Reg where
  | rax | rcx | rdx | rbx | rsi | rdi | rsp | rbp
  | r8 | r9 | r10 | r11 | r12 | r13 | r14 | r15
deriving DecidableEq

namespace Reg

/-- The names of a register's low byte, its low four bytes, and the whole. -/
def names : Reg → String × String × String
  | rax => ("al", "eax", "rax")
  | rcx => ("cl", "ecx", "rcx")
  | rdx => ("dl", "edx", "rdx")
  | rbx => ("bl", "ebx", "rbx")
  | rsi => ("sil", "esi", "rsi")
  | rdi => ("dil", "edi", "rdi")
  | rsp => ("spl", "esp", "rsp")
  | rbp => ("bpl", "ebp", "rbp")
  | r8 => ("r8b", "r8d", "r8")
  | r9 => ("r9b", "r9d", "r9")
  | r10 => ("r10b", "r10d", "r10")
  | r11 => ("r11b", "r11d", "r11")
  | r12 => ("r12b", "r12d", "r12")
  | r13 => ("r13b", "r13d", "r13")
  | r14 => ("r14b", "r14d", "r14")
  | r15 => ("r15b", "r15d", "r15")

def name (reg : Reg) : Width → String
  | .byte => reg.names.1
  | .dword => reg.names.2.1
  | .qword => reg.names.2.2

/-- Whether a register of the bank belongs to the function that is called. -/
def isCalleeSaved (reg : Reg) : Bool := reg != r10 && reg != r11

def arguments : List Reg := [rdi, rsi, rdx, rcx, r8, r9]

def bank : List Reg := [r10, r11, rbx, r12, r13, r14, r15]

end Reg

/-- How many more values of eight bytes keep the stack aligned to sixteen, after
`pushed` values. -/
def padding (pushed : Nat) : Nat := pushed % 2

end MiniC.Asm
