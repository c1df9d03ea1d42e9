import MiniC.Grammar.State

/-!
# Constant expressions

The value of an expression that is needed while parsing: an array length, an
enumeration constant, a case label, or the initial value of a global, which may
also be the address of a symbol plus a distance. Arithmetic is on 64-bit words
and wraps around.
-/

namespace MiniC.Constant

def ofBool (b : Bool) : Int64 := if b then 1 else 0

def truncateChar (value : Int64) : Int64 := value.toInt8.toInt64

def truncateInt (value : Int64) : Int64 := value.toInt32.toInt64

/-- A word after a cast to a type. Casts to other types change nothing. -/
def castTo (target : CType) (value : Int64) : Int64 :=
  match target with
  | .char => truncateChar value
  | .int => truncateInt value
  | _ => value

/-- An operation on two words that are both evaluated; nothing, if it divides by
zero. Shifts use the low six bits of the count. -/
def binary (op : BinOp) (lhs rhs : Int64) : Option Int64 :=
  match op with
  | .add => some (lhs + rhs)
  | .sub => some (lhs - rhs)
  | .mul => some (lhs * rhs)
  | .div => if rhs = 0 then none else some (lhs / rhs)
  | .mod => if rhs = 0 then none else some (lhs % rhs)
  | .bitAnd => some (lhs &&& rhs)
  | .bitOr => some (lhs ||| rhs)
  | .bitXor => some (lhs ^^^ rhs)
  | .shl => some (lhs <<< rhs)
  | .shr => some (lhs >>> rhs)
  | .eq => some (ofBool (lhs == rhs))
  | .ne => some (ofBool (lhs != rhs))
  | .lt => some (ofBool (lhs < rhs))
  | .le => some (ofBool (lhs ≤ rhs))
  | .logAnd => some (ofBool (lhs != 0 && rhs != 0))
  | .logOr => some (ofBool (lhs != 0 || rhs != 0))

def unary (op : UnOp) (value : Int64) : Int64 :=
  match op with
  | .neg => -value
  | .not => ofBool (value == 0)
  | .bitNot => ~~~value

/-- The value of an integer constant expression. The right operand of `&&` and
`||` and the branch of `?:` that is not chosen need not be constant, and neither
need the left operand of a comma. -/
def eval : Expr → Except (Located SyntaxError) Int64
  | .num _ value => .ok value
  | .binary note op _ lhs rhs => do
    let l ← eval lhs
    if (op = .logAnd ∧ l = 0) then return 0
    else if (op = .logOr ∧ l ≠ 0) then return 1
    else
      let r ← eval rhs
      match binary op l r with
      | some value => return value
      | none => throw ⟨.divisionByZero, note.loc⟩
  | .unary _ op operand => return unary op (← eval operand)
  | .cond _ test yes no => do
    if (← eval test) ≠ 0 then eval yes else eval no
  | .comma _ _ rhs => eval rhs
  | .cast _ target operand => return castTo target (← eval operand)
  | e => .error ⟨.notConstant, e.loc⟩

/-- The size of what the type of an expression points to, for the expressions
whose type shows before typing; one for the others. -/
def pointeeSize (σ : Structs) (globals : List Global) (e : Expr) : UInt32 :=
  let ty? := match e with
    | .global _ name => ParseState.globalType? globals name
    | .addr _ (.global _ name) => (ParseState.globalType? globals name).map .ptr
    | .cast _ target _ => some target
    | _ => none
  match ty?.bind CType.pointee? with
  | some target => σ.size target
  | none => 1

/-- The value of a constant that may be the address of a symbol plus a distance
in bytes. -/
def evalAddress (σ : Structs) (globals : List Global) :
    Expr → Except (Located SyntaxError) (Int64 × Option String)
  | .str _ index => .ok (0, some (stringLabel index))
  | .addr note operand =>
    match operand with
    | .global _ name => .ok (0, some name)
    | .deref _ pointer => evalAddress σ globals pointer
    | _ => .error ⟨.notConstant, note.loc⟩
  | .global note name =>
    if (ParseState.globalType? globals name).any (·.isAggregate) then .ok (0, some name)
    else return (← eval (.global note name), none)
  | .cast _ _ operand => evalAddress σ globals operand
  | .binary note op scaled lhs rhs =>
    if op = .add ∨ op = .sub then do
      match ← evalAddress σ globals lhs with
      | (base, some symbol) =>
        let distance := (← eval rhs) * Int64.ofNat (pointeeSize σ globals lhs).toNat
        return (if op = .add then base + distance else base - distance, some symbol)
      | (_, none) => return (← eval (.binary note op scaled lhs rhs), none)
    else return (← eval (.binary note op scaled lhs rhs), none)
  | e => return (← eval e, none)

end MiniC.Constant
