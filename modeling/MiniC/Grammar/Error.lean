import MiniC.CType
import MiniC.Token

/-!
# Errors of the grammar
-/

namespace MiniC

/-- Why a token list is not a program. An initializer can exceed its type only if
the size of the type does not fit a word; then there is no image for it and no
report either: the command stops in the middle of the work, and the message here
stands for that. -/
inductive SyntaxError where
  | unexpected (expected : String) (found : TokenKind)
  | endOfInput
  | expectedId (found : TokenKind)
  | expectedType
  | expectedExpr (found : TokenKind)
  | undefined (name : String)
  | tagRedefinition (tag : String)
  | incomplete (name : String) (ty : CType)
  | notConstant
  | divisionByZero
  | badInitializer (ty : CType)
  | overrun (ty : CType)
  | redefinition (name : String)
  | badArrayLength (length : Int64)
  | tooLarge
  | functionRedefinition (name : String)
  | unsupported (construct : String)

namespace SyntaxError

def message : SyntaxError → String
  | unexpected expected found => s!"Expected {expected}, found {found.describe}"
  | endOfInput => "Abrupt end of program"
  | expectedId found => s!"Expected identifier, found {found.describe}"
  | expectedType => "Expected a type name"
  | expectedExpr found => s!"Expected an expression, found {found.describe}"
  | undefined name => s!"Symbol `{name}` is undefined"
  | tagRedefinition tag => s!"Redefinition of `struct {tag}`"
  | incomplete name ty => s!"`{name}` has incomplete type `{ty.text}`"
  | notConstant => "Expression is not a compile-time constant"
  | divisionByZero => "Division by zero in constant expression"
  | badInitializer ty => s!"Invalid initializer for type `{ty.text}`"
  | overrun ty => s!"Initializer exceeds type `{ty.text}`"
  | redefinition name => s!"Redefinition of `{name}`"
  | badArrayLength length => s!"Array length must be positive, found {length.toInt}"
  | tooLarge => s!"Object is too large, the limit is {maxObjectSize.toNat} bytes"
  | functionRedefinition name => s!"Redefinition of function `{name}`"
  | unsupported construct => s!"Unsupported construct: {construct}"

end SyntaxError

end MiniC
