import MiniC.CType

/-!
# Errors of typing
-/

namespace MiniC

/-- The most arguments a call can pass and a function can take: each has a
register of its own. -/
def maxArguments : Nat := 6

/-- Why a program has no types. -/
inductive TypingError where
  | invalidOperands (lhs rhs : CType)
  | invalidOperand (ty : CType)
  | incompatibleAssignment (target value : CType)
  | notAssignable
  | notAddressable
  | notPointer (ty : CType)
  | noSuchField (ty : CType) (name : String)
  | incomplete (ty : CType)
  | voidValue
  | invalidCast (source target : CType)
  | undefined (name : String)
  | undefinedFunction (name : String)
  | arityMismatch (name : String) (expected found : Nat)
  | tooManyArguments (found : Nat)
  | tooManyParameters (found : Nat)
  | structByValue
  | duplicateCase (value : Int64)
  | duplicateDefault
  | strayCase
  | strayBreak
  | strayContinue
  | frameTooLarge (name : String)

namespace TypingError

def message : TypingError → String
  | invalidOperands lhs rhs =>
    s!"Type mismatch: invalid operands `{lhs.text}` and `{rhs.text}`"
  | invalidOperand ty => s!"Type mismatch: invalid operand `{ty.text}`"
  | incompatibleAssignment target value =>
    s!"Type mismatch: cannot assign `{value.text}` to `{target.text}`"
  | notAssignable => "Expression is not assignable"
  | notAddressable => "Cannot take the address of this expression"
  | notPointer ty => s!"Cannot dereference `{ty.text}`"
  | noSuchField ty name => s!"Type `{ty.text}` has no field named `{name}`"
  | incomplete ty => s!"Expression has incomplete type `{ty.text}`"
  | voidValue => "Void value not ignored as it ought to be"
  | invalidCast source target => s!"Cannot cast `{source.text}` to `{target.text}`"
  | undefined name => s!"Symbol `{name}` is undefined"
  | undefinedFunction name => s!"Function `{name}` is undefined"
  | arityMismatch name expected found =>
    s!"Function `{name}` expects {expected} arguments, found {found}"
  | tooManyArguments found => s!"At most {maxArguments} arguments are supported, found {found}"
  | tooManyParameters found => s!"At most {maxArguments} parameters are supported, found {found}"
  | structByValue => "Structs cannot be passed or returned by value"
  | duplicateCase value => s!"Duplicate case value `{value.toInt}`"
  | duplicateDefault => "Multiple default labels in one switch"
  | strayCase => "Case label not within a switch statement"
  | strayBreak => "`break` statement not within a loop or switch"
  | strayContinue => "`continue` statement not within a loop"
  | frameTooLarge name => s!"Stack frame of `{name}` exceeds {maxObjectSize.toNat} bytes"

end TypingError

end MiniC
