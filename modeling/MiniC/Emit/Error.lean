import MiniC.Ir.Printer

/-!
# Errors of code generation
-/

namespace MiniC

/-- Why there is no code for a program. The last two arise only for input that
is not made from a source: code that reads a register which was not handed out,
and a tree or an image that breaks the rules of typing. -/
inductive EmitError where
  | exhausted (available : Nat)
  | pinTaken (vreg : Ir.VReg) (register : Nat)
  | noRegister (vreg : Ir.VReg)
  | malformed
deriving DecidableEq

namespace EmitError

def message : EmitError → String
  | exhausted available =>
    s!"Register exhaustion: {available + 1} values are live at once, " ++
      s!"but only {available} registers exist"
  | pinTaken vreg register =>
    s!"Value {vreg.text} must live in register #{register}, which is taken"
  | noRegister _ => "I/O error"
  | malformed => "Malformed program"

end EmitError

end MiniC
