/-!
# Options

What a compilation can be asked for.
-/

namespace MiniC

/-- The two ways to assembly: evaluation on the machine stack, or blocks over
virtual registers with registers assigned. -/
inductive Backend where
  | stack
  | ir
deriving DecidableEq

namespace Backend

def ofName? : String → Option Backend
  | "stack" => some stack
  | "ir" => some ir
  | _ => none

def unknownMessage (name : String) : String :=
  s!"Unknown backend `{name}`, expected `stack` or `ir`"

end Backend

/-- The stages of a compilation that are to be shown. -/
structure Dumps where
  tokens : Bool := false
  preprocessed : Bool := false
  tree : Bool := false
  ir : Bool := false

namespace Dumps

def bits (dumps : Dumps) : Nat :=
  dumps.tokens.toNat + 2 * dumps.preprocessed.toNat + 4 * dumps.tree.toNat + 8 * dumps.ir.toNat

end Dumps

/-- The options of a compilation. With implicit declarations, a function that is
not declared may be called and returns an `int`. -/
structure Options where
  includeDir : String := "./include"
  backend : Backend := .ir
  implicitDecls : Bool := false
  dumps : Dumps := {}

end MiniC
