import MiniC.CType.Layout
import MiniC.Grammar.Constant
import MiniC.Grammar.Parse

/-!
# Expressions and types

The grammar of expressions and of the types they mention; the two depend on
each other through casts and array lengths.

Each rule is a function of a `Below`: the rules for what is nested inside a
phrase, to be used only after the phrase has taken a token. `Below.upTo n` ties
the knot for phrases of fewer than `n` tokens, and its own recursion is on `n`,
so no measure on the input is needed. A record for no tokens at all fails for
lack of them, which is what every rule does on an empty input. One round of each
loop is a function of its own.

Some constructs are written in terms of others: `a[i]` is `*(a + i)`, `p->f` is
`(*p).f`, `a op= b` is `a = a op b` with the target twice, and `++x` is
`x = x + 1`. A postfix update stays a node of its own until types are known.
-/

namespace MiniC

/-- The part of a declaration before its declarators. -/
structure DeclSpec where
  ty : CType
  isTypedef : Bool
  isExtern : Bool
  isStatic : Bool

/-- The words of a declaration read so far. -/
structure SpecWords where
  base : Option CType := none
  longs : Nat := 0
  ints : Nat := 0
  isTypedef : Bool := false
  isExtern : Bool := false
  isStatic : Bool := false

namespace SpecWords

/-- The type the words name: one base type, or any number of `long` and `int`. -/
def type? (words : SpecWords) : Option CType :=
  match words.base, words.longs, words.ints with
  | some ty, 0, 0 => some ty
  | some _, _, _ => none
  | none, 0, 0 => none
  | none, 0, _ => some .int
  | none, _, _ => some .long

end SpecWords

/-- The rules for phrases nested in a phrase, the number of tokens they are made
for, and the error for more of them than that. -/
structure Below where
  limit : Nat
  stuck : SyntaxError
  expr : Parse Expr
  assign : Parse Expr
  conditional : Parse Expr
  cast : Parse Expr
  unary : Parse Expr
  declSpec : Parse DeclSpec

/-- A binary operator as it is written: its mark, its meaning, and whether the
operands change places. -/
structure Operator where
  mark : Punct
  op : BinOp
  swap : Bool := false

namespace Grammar

open Parse

def precedence : List (List Operator) := [
  [⟨.orOr, .logOr, false⟩],
  [⟨.andAnd, .logAnd, false⟩],
  [⟨.pipe, .bitOr, false⟩],
  [⟨.caret, .bitXor, false⟩],
  [⟨.amp, .bitAnd, false⟩],
  [⟨.eq, .eq, false⟩, ⟨.ne, .ne, false⟩],
  [⟨.lt, .lt, false⟩, ⟨.le, .le, false⟩, ⟨.gt, .lt, true⟩, ⟨.ge, .le, true⟩],
  [⟨.shl, .shl, false⟩, ⟨.shr, .shr, false⟩],
  [⟨.plus, .add, false⟩, ⟨.minus, .sub, false⟩],
  [⟨.star, .mul, false⟩, ⟨.slash, .div, false⟩, ⟨.percent, .mod, false⟩]
]

/-- The operator of an assignment mark: none for a plain assignment. -/
def assignment? : Punct → Option (Option BinOp)
  | .assign => some none
  | .addAssign => some (some .add)
  | .subAssign => some (some .sub)
  | .mulAssign => some (some .mul)
  | .divAssign => some (some .div)
  | .modAssign => some (some .mod)
  | .andAssign => some (some .bitAnd)
  | .orAssign => some (some .bitOr)
  | .xorAssign => some (some .bitXor)
  | .shlAssign => some (some .shl)
  | .shrAssign => some (some .shr)
  | _ => none

variable (below : Below)

def loop {α β : Type} (step : α → Parse (Round α β)) (a : α) : Parse β :=
  iterate below.stuck (below.limit + 1) step a

/-! ## Types -/

def starPart (ty : CType) : Parse (Round CType CType) := do
  if ← eat .star then return .more (.ptr ty) else return .done ty

def pointers (ty : CType) : Parse CType := loop below starPart ty

/-- The length between the brackets of an array; zero if there is none. -/
def arrayLength : Parse UInt32 := do
  if ← isAt .closeSquare then return 0
  else
    let e ← below.conditional
    let length ← Parse.ofExcept (Constant.eval e)
    if 0 < length ∧ length ≤ 4294967295 then return UInt32.ofNat length.toInt.toNat
    else fail (.badArrayLength length) e.loc

def arrayType (element : CType) (start : Location) (length : UInt32) : Parse CType := do
  match (← get).structs.checkedArray element length with
  | some ty => return ty
  | none => fail .tooLarge (← spanFrom start)

/-- One more array suffix, if there is one, put in front of the ones before. -/
def suffixPart (lengths : List (Location × UInt32)) :
    Parse (Round (List (Location × UInt32)) (List (Location × UInt32))) := do
  if ← eat .openSquare then
    let start ← here
    let length ← arrayLength below
    expect .closeSquare
    return .more ((start, length) :: lengths)
  else return .done lengths

/-- Array suffixes. The last one belongs to the innermost array. -/
def typeSuffix (ty : CType) : Parse CType := do
  let lengths ← loop below (suffixPart below) []
  lengths.foldlM (fun element (start, length) => arrayType element start length) ty

def declarator (base : CType) : Parse (Located String × CType) := do
  let ty ← pointers below base
  let name ← identifier
  let ty ← typeSuffix below ty
  return (name, ty)

/-- A new struct type, under its tag in the innermost block if it has one. -/
def declareStruct (tag : Option (Located String)) : Parse StructRef :=
  modifyGet fun s =>
    let (ref, structs) := s.structs.declare (tag.map (·.value))
    let scope := match tag with
      | some tag => s.scope.addTag tag.value (.struct ref)
      | none => s.scope
    (ref, { s with structs, scope })

/-- The struct that a body defines: an incomplete one of the innermost block
with its tag, or a new one. The tag is visible inside the body. -/
def structTarget (tag : Option (Located String)) : Parse StructRef := do
  match tag with
  | none => declareStruct none
  | some name =>
    let s ← get
    match s.scope.innerTag? name.value with
    | some (.struct ref) =>
      if (s.structs.layout? ref).isSome then fail (.tagRedefinition name.value) name.loc
      else return ref
    | _ => declareStruct tag

/-- One declarator of a line of members, put in front of the ones before. -/
def memberDeclarator (ty : CType) (members : List (String × CType)) :
    Parse (Round (List (String × CType)) (List (String × CType))) := do
  let (name, ty) ← declarator below ty
  unless (← get).structs.isComplete ty do fail (.incomplete name.value ty) name.loc
  let members := (name.value, ty) :: members
  if ← eat .comma then return .more members else return .done members

/-- The declarators of one line of members, put in front of the ones before. -/
def memberDeclarators (ty : CType) (members : List (String × CType)) :
    Parse (List (String × CType)) :=
  loop below (memberDeclarator below ty) members

def memberLine (members : List (String × CType)) :
    Parse (Round (List (String × CType)) (List (String × CType))) := do
  if ← eat .closeCurly then return .done members.reverse
  else
    let spec ← below.declSpec
    let members ← memberDeclarators below spec.ty members
    expect .semicolon
    return .more members

/-- The members of a struct, after the opening brace and up to the closing one. -/
def structMembers : Parse (List (String × CType)) := loop below (memberLine below) []

def structBody (tag : Option (Located String)) (start : Location) : Parse CType := do
  let ref ← structTarget tag
  let members ← structMembers below
  match Layout.compute (← get).structs members with
  | none => fail .tooLarge (← spanFrom start)
  | some layout =>
    modify fun s => { s with structs := (s.structs.complete ref layout).2 }
    return .struct ref

/-- A struct type, after its keyword: a body, or a tag that may be declared later. -/
def structType : Parse CType := do
  let start := (← get).last
  let tag ← identifier?
  if ← eat .openCurly then structBody below tag start
  else match tag with
    | none => unexpected "`\x7b` or a struct tag"
    | some name =>
      match (← get).scope.tag? name.value with
      | some ty => return ty
      | none => return .struct (← declareStruct tag)

/-- One constant of an enumeration, which is `next` unless it has a value of its
own. -/
def enumerator (next : Int64) : Parse (Round Int64 Unit) := do
  let name ← identifier
  let value ← if ← eat .assign then do
      let e ← below.conditional
      Parse.ofExcept (Constant.eval e)
    else pure next
  modify fun s => { s with enums := (name.value, value) :: s.enums }
  if ← eat .comma then
    if ← eat .closeCurly then return .done () else return .more (value + 1)
  else
    expect .closeCurly
    return .done ()

def enumerators : Parse Unit := loop below (enumerator below) 0

def enumType : Parse CType := do
  let tag ← identifier?
  if ← eat .openCurly then
    enumerators below
    if let some name := tag then
      modify fun s => { s with scope := s.scope.addTag name.value .int }
    return .int
  else match tag with
    | some _ => return .int
    | none => unexpected "`\x7b` or an enum tag"

def specWord (words : SpecWords) : Parse (Round SpecWords SpecWords) := do
  match ← peek? with
  | some (.keyword word) =>
    match word, words.base with
    | .typedef, _ => advance; return .more { words with isTypedef := true }
    | .external, _ => advance; return .more { words with isExtern := true }
    | .static, _ => advance; return .more { words with isStatic := true }
    | .long, _ => advance; return .more { words with longs := words.longs + 1 }
    | .int, _ => advance; return .more { words with ints := words.ints + 1 }
    | .char, none => advance; return .more { words with base := some .char }
    | .void, none => advance; return .more { words with base := some .void }
    | .struct, none => advance; return .more { words with base := some (← structType below) }
    | .enum, none => advance; return .more { words with base := some (← enumType below) }
    | _, _ => return .done words
  | some (.id name) =>
    if words.base.isNone ∧ words.longs + words.ints = 0 then
      match (← get).scope.typedef? name with
      | some ty => advance; return .more { words with base := some ty }
      | none => return .done words
    else return .done words
  | _ => return .done words

def declSpec : Parse DeclSpec := do
  let start ← here
  let words ← loop below (specWord below) {}
  match words.type? with
  | some ty => return ⟨ty, words.isTypedef, words.isExtern, words.isStatic⟩
  | none => fail .expectedType start

def typeName : Parse CType := do
  let spec ← declSpec below
  let ty ← pointers below spec.ty
  typeSuffix below ty

/-! ## Expressions -/

def literalBytes (text : String) : List UInt8 := text.toList.flatMap String.utf8EncodeChar

/-- One more string literal, if there is one, put after the bytes before. -/
def stringPart (bytes : List UInt8) : Parse (Round (List UInt8) (List UInt8)) := do
  match ← peek? with
  | some (.str text) =>
    advance
    return .more (bytes ++ literalBytes text)
  | _ => return .done bytes

def stringLiteral : Parse (Location × List UInt8) := do
  let start ← here
  let bytes ← loop below stringPart []
  return (← spanFrom start, bytes)

def argumentPart (args : List Expr) : Parse (Round (List Expr) (List Expr)) := do
  let arg ← below.assign
  if ← eat .comma then return .more (arg :: args)
  else
    expect .closeParen
    return .done (arg :: args).reverse

def arguments : Parse (List Expr) := do
  if ← eat .closeParen then return []
  else loop below (argumentPart below) []

/-- A number, a name, a call or a parenthesis, after its first token. -/
def primaryToken (token : Lexed) : Parse Expr :=
  match token.value.kind with
  | .punct .openParen => do
    let e ← below.expr
    expect .closeParen
    return e
  | .int value => return .numAt token.loc value
  | .id name => do
    if ← eat .openParen then
      let args ← arguments below
      return .call ⟨.void, ← spanFrom token.loc⟩ name args
    else match (← get).lookup? name token.loc with
      | some e => return e
      | none => fail (.undefined name) token.loc
  | found => fail (.expectedExpr found) token.loc

def primary : Parse Expr := do
  if let some (.str _) ← peek? then
    let (loc, bytes) ← stringLiteral below
    let index ← modifyGet (·.intern bytes)
    return .str ⟨.void, loc⟩ index
  else primaryToken below (← next)

/-- One more index, member or update after an expression, if there is one. -/
def postfixPart (e : Expr) : Parse (Round Expr Expr) := do
  if ← eat .openSquare then
    let index ← below.expr
    expect .closeSquare
    return .more ((Expr.mkDeref (.mkBinary .add e index)).withLoc (← spanFrom e.loc))
  else if ← eat .period then
    let name ← identifier
    return .more ((Expr.mkMember e name.value).withLoc (← spanFrom e.loc))
  else if ← eat .arrow then
    let name ← identifier
    return .more ((Expr.mkMember (.mkDeref e) name.value).withLoc (← spanFrom e.loc))
  else if ← eat .inc then
    return .more (.update ⟨.void, ← spanFrom e.loc⟩ .inc e)
  else if ← eat .dec then
    return .more (.update ⟨.void, ← spanFrom e.loc⟩ .dec e)
  else return .done e

def postfixExpr : Parse Expr := do
  loop below (postfixPart below) (← primary below)

/-- A prefix operator, after its mark at `start`, around what it applies to. -/
def prefixNode (start : Location) (node : Note → Expr → Expr) : Parse Expr := do
  let operand ← below.cast
  return node ⟨.void, ← spanFrom start⟩ operand

def prefixUpdate (op : BinOp) : Parse Expr := do
  let target ← below.unary
  return .mkAssign target (.mkBinary op target (.numAt target.loc 1))

/-- `sizeof`, after its keyword: of a type, which is a number at once, or of an
expression. -/
def sizeofExpr (start : Location) : Parse Expr := do
  if (← isAt .openParen) && (← get).startsType 1 then
    advance
    let ty ← typeName below
    expect .closeParen
    let σ := (← get).structs
    if σ.isComplete ty then
      return .num ⟨.long, ← spanFrom start⟩ (Int64.ofNat (σ.size ty).toNat)
    else fail (.incomplete "sizeof" ty) start
  else
    let operand ← below.unary
    return .sizeof ⟨.void, ← spanFrom start⟩ operand

def alignofExpr (start : Location) : Parse Expr := do
  expect .openParen
  let ty ← typeName below
  expect .closeParen
  return .num ⟨.long, ← spanFrom start⟩ (Int64.ofNat ((← get).structs.align ty).toNat)

def unary : Parse Expr := do
  let start ← here
  match ← peek? with
  | some (.keyword .sizeof) => advance; sizeofExpr below start
  | some (.keyword .alignof) => advance; alignofExpr below start
  | some (.punct .plus) => advance; below.cast
  | some (.punct .minus) => advance; prefixNode below start (.unary · .neg ·)
  | some (.punct .bang) => advance; prefixNode below start (.unary · .not ·)
  | some (.punct .tilde) => advance; prefixNode below start (.unary · .bitNot ·)
  | some (.punct .amp) => advance; prefixNode below start .addr
  | some (.punct .star) => advance; prefixNode below start .deref
  | some (.punct .inc) => advance; prefixUpdate below .add
  | some (.punct .dec) => advance; prefixUpdate below .sub
  | _ => postfixExpr below

def cast : Parse Expr := do
  if (← isAt .openParen) && (← get).startsType 1 then
    let start ← here
    advance
    let target ← typeName below
    expect .closeParen
    let operand ← below.cast
    return .cast ⟨.void, start.span operand.loc⟩ target operand
  else unary below

/-- The operator of a precedence level that comes next, which is taken. -/
def operator? (level : List Operator) : Parse (Option Operator) := do
  match ← peek? with
  | some (.punct mark) =>
    match level.find? (·.mark == mark) with
    | some operator => advance; return some operator
    | none => return none
  | _ => return none

/-- One more operator of a level and its right operand, if there is one. -/
def operandPart (level : List Operator) (operand : Parse Expr) (lhs : Expr) :
    Parse (Round Expr Expr) := do
  match ← operator? level with
  | none => return .done lhs
  | some operator =>
    let rhs ← operand
    if operator.swap then return .more (.mkBinary operator.op rhs lhs)
    else return .more (.mkBinary operator.op lhs rhs)

/-- Binary operators of the given levels, which associate to the left. -/
def binary : List (List Operator) → Parse Expr
  | [] => cast below
  | level :: tighter => do
    let first ← binary tighter
    loop below (operandPart level (binary tighter)) first

def conditional : Parse Expr := do
  let test ← binary below precedence
  if ← eat .question then
    let yes ← below.expr
    expect .colon
    let no ← below.conditional
    return .cond ⟨.void, test.loc.span no.loc⟩ test yes no
  else return test

def assign : Parse Expr := do
  let lhs ← conditional below
  match ← peek? with
  | some (.punct mark) =>
    match assignment? mark with
    | none => return lhs
    | some op =>
      advance
      let rhs ← below.assign
      match op with
      | none => return .mkAssign lhs rhs
      | some op => return .mkAssign lhs (.mkBinary op lhs rhs)
  | _ => return lhs

def commaPart (e : Expr) : Parse (Round Expr Expr) := do
  if ← eat .comma then return .more (.mkComma e (← assign below)) else return .done e

def expr : Parse Expr := do
  let first ← assign below
  loop below (commaPart below) first

end Grammar

namespace Below

def empty : Below where
  limit := 0
  stuck := .endOfInput
  expr := Parse.endOfInput
  assign := Parse.endOfInput
  conditional := Parse.endOfInput
  cast := Parse.endOfInput
  unary := Parse.endOfInput
  declSpec := Parse.endOfInput

def deeper (below : Below) : Below where
  limit := below.limit + 1
  stuck := below.stuck
  expr := fun s => Grammar.expr below s
  assign := fun s => Grammar.assign below s
  conditional := fun s => Grammar.conditional below s
  cast := fun s => Grammar.cast below s
  unary := fun s => Grammar.unary below s
  declSpec := fun s => Grammar.declSpec below s

def upTo : Nat → Below
  | 0 => empty
  | n + 1 => (upTo n).deeper

end Below

end MiniC
