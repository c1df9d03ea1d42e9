import MiniC.Grammar.Error
import MiniC.Program

/-!
# The state of a parse

The tokens that are left, the names that are visible, and the program so far.

Names of locals, typedefs and tags live in blocks, the innermost first; leaving
a block forgets its names. Globals, functions and enumeration constants stay
for the rest of the program.
-/

namespace MiniC

/-- The names one block declares, the newest first. Enumeration tags stand for
`int`. -/
structure Names where
  vars : List (String × Nat) := []
  typedefs : List (String × CType) := []
  tags : List (String × CType) := []

/-- The visible blocks: the innermost, and the ones around it. -/
structure Scope where
  inner : Names := {}
  outer : List Names := []

namespace Scope

def blocks (scope : Scope) : List Names := scope.inner :: scope.outer

def enter (scope : Scope) : Scope := ⟨{}, scope.blocks⟩

def leave (scope : Scope) : Scope :=
  match scope.outer with
  | inner :: outer => ⟨inner, outer⟩
  | [] => scope

def find? {α : Type} (entries : List (String × α)) (name : String) : Option α :=
  (entries.find? (·.1 == name)).map (·.2)

def var? (scope : Scope) (name : String) : Option Nat :=
  find? (scope.blocks.flatMap (·.vars)) name

/-- The type a name stands for. A local of that name hides it, whichever of the
two was declared further in. -/
def typedef? (scope : Scope) (name : String) : Option CType :=
  match scope.var? name with
  | some _ => none
  | none => find? (scope.blocks.flatMap (·.typedefs)) name

def tag? (scope : Scope) (tag : String) : Option CType :=
  find? (scope.blocks.flatMap (·.tags)) tag

def innerTag? (scope : Scope) (tag : String) : Option CType :=
  find? scope.inner.tags tag

def addVar (scope : Scope) (name : String) (index : Nat) : Scope :=
  { scope with inner := { scope.inner with vars := (name, index) :: scope.inner.vars } }

def addTypedef (scope : Scope) (name : String) (ty : CType) : Scope :=
  { scope with inner := { scope.inner with typedefs := (name, ty) :: scope.inner.typedefs } }

def addTag (scope : Scope) (tag : String) (ty : CType) : Scope :=
  { scope with inner := { scope.inner with tags := (tag, ty) :: scope.inner.tags } }

end Scope

/-- A parse under way. `last` is the place of the token taken last, `locals` are
those of the function being parsed, and `enums` has the newest constant first. -/
structure ParseState where
  tokens : List Lexed
  last : Location
  scope : Scope := {}
  structs : Structs := {}
  enums : List (String × Int64) := []
  locals : List Var := []
  globals : List Global := []
  functions : List Function := []
  strings : List (List UInt8) := []

namespace ParseState

def peekAt? (s : ParseState) (ahead : Nat) : Option TokenKind :=
  s.tokens[ahead]?.map (·.value.kind)

def isTypeWord : Keyword → Bool
  | .void | .char | .int | .long | .struct | .enum | .typedef | .external | .static => true
  | _ => false

def startsType (s : ParseState) (ahead : Nat) : Bool :=
  match s.peekAt? ahead with
  | some (.keyword word) => isTypeWord word
  | some (.id name) => (s.scope.typedef? name).isSome
  | _ => false

/-- The place of the next token, or of the last one if none is left. -/
def here (s : ParseState) : Location :=
  match s.tokens with
  | token :: _ => token.loc
  | [] => s.last

def globalType? (globals : List Global) (name : String) : Option CType :=
  (globals.find? (·.name == name)).map (·.ty)

/-- What a name stands for as a value: a local, else a global, else an
enumeration constant. -/
def lookup? (s : ParseState) (name : String) (loc : Location) : Option Expr :=
  match s.scope.var? name with
  | some index => some (.var ⟨.void, loc⟩ index)
  | none =>
    if s.globals.any (·.name == name) then some (.global ⟨.void, loc⟩ name)
    else (Scope.find? s.enums name).map (.num ⟨.int, loc⟩)

/-- Adds a local to the function and its name to the innermost block. -/
def declareLocal (s : ParseState) (name : Located String) (ty : CType) : Nat × ParseState :=
  let index := s.locals.length
  (index, { s with
    locals := s.locals ++ [{ name := name.value, ty, loc := name.loc }]
    scope := s.scope.addVar name.value index })

/-- The number of a string, which is added to the program if it is new. -/
def intern (s : ParseState) (bytes : List UInt8) : Nat × ParseState :=
  match s.strings.findIdx? (· == bytes) with
  | some index => (index, s)
  | none => (s.strings.length, { s with strings := s.strings ++ [bytes] })

def replaceGlobal (globals : List Global) (global : Global) : List Global :=
  match globals with
  | [] => []
  | other :: rest =>
    if other.name == global.name then global :: rest else other :: replaceGlobal rest global

/-- Adds a declaration of a global to the ones before it. A declaration of an
external global adds nothing to an earlier one, and only one declaration may
have an initializer. -/
def defineGlobal (s : ParseState) (global : Global) : Option ParseState :=
  match s.globals.find? (·.name == global.name) with
  | none => some { s with globals := s.globals ++ [global] }
  | some existing =>
    if global.isExtern then some s
    else if existing.init.isSome && global.init.isSome then none
    else if existing.isExtern || global.init.isSome then
      some { s with globals := replaceGlobal s.globals global }
    else some s

end ParseState

end MiniC
