import MiniC.Ir

/-!
# The text of the intermediate form
-/

namespace MiniC.Ir

namespace VReg

def text (vreg : VReg) : String := s!"%{vreg.index}"

end VReg

namespace BlockId

def text (id : BlockId) : String := s!".B{id.index}"

end BlockId

def listText (vregs : List VReg) : String := ", ".intercalate (vregs.map (·.text))

namespace Instruction

def text : Instruction → String
  | imm dst value => s!"{dst.text} = imm {value.toInt}"
  | label dst symbol => s!"{dst.text} = label {symbol}"
  | localAddr dst offset => s!"{dst.text} = local -{offset.toNat}"
  | mov dst src => s!"{dst.text} = mov {src.text}"
  | binary op width dst lhs rhs =>
    s!"{dst.text} = {op.name.toLower}.{width.text} {lhs.text}, {rhs.text}"
  | unary op width dst src => s!"{dst.text} = {op.name.toLower}.{width.text} {src.text}"
  | cast width dst src => s!"{dst.text} = cast.{width.text} {src.text}"
  | load width dst addr => s!"{dst.text} = load.{width.text} [{addr.text}]"
  | store width addr src => s!"store.{width.text} [{addr.text}], {src.text}"
  | call width dst name args => s!"{dst.text} = call.{width.text} {name}({listText args})"
  | branch test yes no => s!"br {test.text}, {yes.text}, {no.text}"
  | jump target => s!"jmp {target.text}"
  | ret (some value) => s!"ret {value.text}"
  | ret none => "ret"

end Instruction

namespace Block

def text (block : Block) : String :=
  s!"{block.id.text}:\n" ++
    String.join (block.instructions.map fun instruction => s!"\t{instruction.text}\n")

end Block

namespace Function

def text (f : Function) : String :=
  s!"function {f.name}({listText f.params}):\n" ++ String.join (f.blocks.map (·.text))

end Function

end MiniC.Ir
