import Mathlib.Logic.Function.Iterate
import MiniC.Grammar.Expression

/-!
# Writing expressions

The tokens an expression is written with, under the parentheses that precedence
and associativity ask for and no others.

Phrases have levels, the loosest first, and one rule of the grammar reads each:

* 1 a sequence, 2 an assignment, 3 a conditional;
* 4 to 13 the binary operators, from `||` to `*`;
* 14 a cast, 15 a prefix operator, 16 a member or an update, 17 a literal, a name
  or a call.

A phrase stands where one of its own level or of a looser one is wanted, and in
parentheses elsewhere. Nothing in a tree says how its locals and the types of
its casts are written, so that is given by a `Spelling`.
-/

namespace MiniC

namespace BinOp

def level : BinOp → Nat
  | logOr => 4
  | logAnd => 5
  | bitOr => 6
  | bitXor => 7
  | bitAnd => 8
  | eq | ne => 9
  | lt | le => 10
  | shl | shr => 11
  | add | sub => 12
  | mul | div | mod => 13

theorem level_bounds (op : BinOp) : 4 ≤ op.level ∧ op.level ≤ 13 := by
  cases op <;> decide

def mark : BinOp → Punct
  | logOr => .orOr
  | logAnd => .andAnd
  | bitOr => .pipe
  | bitXor => .caret
  | bitAnd => .amp
  | eq => .eq
  | ne => .ne
  | lt => .lt
  | le => .le
  | shl => .shl
  | shr => .shr
  | add => .plus
  | sub => .minus
  | mul => .star
  | div => .slash
  | mod => .percent

end BinOp

def UnOp.mark : UnOp → Punct
  | neg => .minus
  | not => .bang
  | bitNot => .tilde

def Update.mark : Update → Punct
  | inc => .inc
  | dec => .dec

/-- The tightest level whose rule reads on at a mark; zero for the marks at which
every phrase ends. -/
def Punct.strength : Punct → Nat
  | comma => 1
  | assign | addAssign | subAssign | mulAssign | divAssign | modAssign | andAssign | orAssign
  | xorAssign | shlAssign | shrAssign => 2
  | question => 3
  | orOr => 4
  | andAnd => 5
  | pipe => 6
  | caret => 7
  | amp => 8
  | eq | ne => 9
  | lt | le | gt | ge => 10
  | shl | shr => 11
  | plus | minus => 12
  | star | slash | percent => 13
  | openSquare | period | arrow | inc | dec => 16
  | openParen => 17
  | _ => 0

theorem BinOp.strength_mark (op : BinOp) : op.mark.strength = op.level := by
  cases op <;> rfl

def TokenKind.strength : TokenKind → Nat
  | punct mark => mark.strength
  | _ => 0

/-! ## Types -/

def Structs.arrays? (σ : Structs) (element : CType) : List UInt32 → Option CType
  | [] => some element
  | length :: inner => (σ.arrays? element inner).bind (σ.checkedArray · length)

theorem Structs.arrays?_snoc (σ : Structs) (element : CType) (lengths : List UInt32)
    (last : UInt32) : σ.arrays? element (lengths ++ [last]) =
      (σ.checkedArray element last).bind (σ.arrays? · lengths) := by
  induction lengths with
  | nil => cases h : σ.checkedArray element last <;> simp [Structs.arrays?, h]
  | cons length lengths ih =>
    rw [List.cons_append, Structs.arrays?, ih, Option.bind_assoc]
    rfl

def lengthTokens (length : UInt32) : List TokenKind :=
  if length = 0 then [] else [.int (Int64.ofNat length.toNat)]

def suffixTokens (length : UInt32) : List TokenKind :=
  .punct .openSquare :: lengthTokens length ++ [.punct .closeSquare]

/-- The words that name a type without stars and brackets. -/
inductive Named (s : ParseState) : CType → List TokenKind → Prop
  | void : Named s .void [.keyword .void]
  | char : Named s .char [.keyword .char]
  | int : Named s .int [.keyword .int]
  | long : Named s .long [.keyword .long]
  | struct {tag : String} {ty : CType} (visible : s.scope.tag? tag = some ty) :
      Named s ty [.keyword .struct, .id tag]
  | typedef {name : String} {ty : CType} (visible : s.scope.typedef? name = some ty) :
      Named s ty [.id name]

theorem Named.ne_nil {s : ParseState} {base : CType} {words : List TokenKind}
    (named : Named s base words) : words ≠ [] := by
  cases named <;> exact List.cons_ne_nil _ _

/-- The ways to write a type where its names are visible. -/
inductive Spells (s : ParseState) : CType → List TokenKind → Prop
  | intro {base ty : CType} {words : List TokenKind} (stars : Nat) (lengths : List UInt32)
      (named : Named s base words)
      (arrays : s.structs.arrays? (CType.ptr^[stars] base) lengths = some ty) :
      Spells s ty (words ++ (List.replicate stars (.punct .star) ++ lengths.flatMap suffixTokens))

/-! ## Expressions -/

/-- What a tree leaves open: the names of locals, how types are written, and the
level of the left side of an assignment. The last may be that of a prefix
operator, as in the grammar of the language, or as loose as a conditional. -/
structure Spelling where
  var : Nat → String
  type : CType → List TokenKind
  target : Nat
  conditional_le : 3 ≤ target
  le_unary : target ≤ 15

namespace Expr

def level : Expr → Nat
  | comma .. => 1
  | assign .. => 2
  | cond .. => 3
  | binary _ op .. => op.level
  | cast .. => 14
  | unary .. | addr .. | deref .. | sizeof .. => 15
  | member .. | update .. => 16
  | num .. | str .. | var .. | global .. | call .. => 17

theorem level_bounds (e : Expr) : 1 ≤ e.level ∧ e.level ≤ 17 := by
  cases e with
  | binary _ op =>
    have bounds := op.level_bounds
    rw [level]
    omega
  | _ => rw [level]; omega

def parenthesized (kinds : List TokenKind) : List TokenKind :=
  .punct .openParen :: kinds ++ [.punct .closeParen]

def within (limit level : Nat) (kinds : List TokenKind) : List TokenKind :=
  if limit ≤ level then kinds else parenthesized kinds

mutual

def written (w : Spelling) : Expr → List TokenKind
  | num _ value => [.int value]
  | str .. => []
  | var _ index => [.id (w.var index)]
  | global _ name => [.id name]
  | binary _ op _ lhs rhs =>
    within op.level lhs.level (written w lhs) ++
      .punct op.mark :: within (op.level + 1) rhs.level (written w rhs)
  | assign _ lhs rhs =>
    within w.target lhs.level (written w lhs) ++
      .punct .assign :: within 2 rhs.level (written w rhs)
  | comma _ lhs rhs =>
    within 1 lhs.level (written w lhs) ++ .punct .comma :: within 2 rhs.level (written w rhs)
  | cond _ test yes no =>
    within 4 test.level (written w test) ++
      .punct .question :: (within 1 yes.level (written w yes) ++
        .punct .colon :: within 3 no.level (written w no))
  | unary _ op operand => .punct op.mark :: within 14 operand.level (written w operand)
  | addr _ operand => .punct .amp :: within 14 operand.level (written w operand)
  | deref _ operand => .punct .star :: within 14 operand.level (written w operand)
  | member _ base name _ =>
    within 16 base.level (written w base) ++ [.punct .period, .id name]
  | call _ callee args =>
    .id callee :: .punct .openParen ::
      ([TokenKind.punct .comma].intercalate (writtenAll w args) ++ [.punct .closeParen])
  | cast _ target operand =>
    .punct .openParen :: (w.type target ++
      .punct .closeParen :: within 14 operand.level (written w operand))
  | sizeof _ operand => .keyword .sizeof :: within 15 operand.level (written w operand)
  | update _ dir target =>
    within 16 target.level (written w target) ++ [.punct dir.mark]

def writtenAll (w : Spelling) : List Expr → List (List TokenKind)
  | [] => []
  | arg :: args => within 2 arg.level (written w arg) :: writtenAll w args

end

mutual

/-- Whether an untyped expression can be written: its names are visible, none of
its globals and callees is the name of a type, and its types have spellings. -/
def Writable (s : ParseState) (w : Spelling) : Expr → Prop
  | num note _ => note.ty = .void
  | str .. => False
  | var note index => note.ty = .void ∧ s.scope.var? (w.var index) = some index
  | global note name =>
    note.ty = .void ∧ s.scope.var? name = none ∧ s.scope.typedef? name = none ∧
      s.globals.any (·.name == name) = true
  | binary note _ scaled lhs rhs =>
    (note.ty = .void ∧ scaled = false) ∧ Writable s w lhs ∧ Writable s w rhs
  | assign note lhs rhs => note.ty = .void ∧ Writable s w lhs ∧ Writable s w rhs
  | comma note lhs rhs => note.ty = .void ∧ Writable s w lhs ∧ Writable s w rhs
  | cond note test yes no =>
    note.ty = .void ∧ Writable s w test ∧ Writable s w yes ∧ Writable s w no
  | unary note _ operand => note.ty = .void ∧ Writable s w operand
  | addr note operand => note.ty = .void ∧ Writable s w operand
  | deref note operand => note.ty = .void ∧ Writable s w operand
  | member note base _ offset => (note.ty = .void ∧ offset = 0) ∧ Writable s w base
  | call note callee args =>
    note.ty = .void ∧ s.scope.typedef? callee = none ∧ AllWritable s w args
  | cast note target operand =>
    note.ty = .void ∧ Spells s target (w.type target) ∧ Writable s w operand
  | sizeof note operand => note.ty = .void ∧ Writable s w operand
  | update note _ target => note.ty = .void ∧ Writable s w target

def AllWritable (s : ParseState) (w : Spelling) : List Expr → Prop
  | [] => True
  | arg :: args => Writable s w arg ∧ AllWritable s w args

end

def nowhere : Location := .atStart ⟨"", ""⟩

mutual

/-- An expression without its places. Trees that differ only in their places are
those with one `erase`. -/
def erase : Expr → Expr
  | num note value => num { note with loc := nowhere } value
  | str note index => str { note with loc := nowhere } index
  | var note index => var { note with loc := nowhere } index
  | global note name => global { note with loc := nowhere } name
  | binary note op scaled lhs rhs =>
    binary { note with loc := nowhere } op scaled (erase lhs) (erase rhs)
  | assign note lhs rhs => assign { note with loc := nowhere } (erase lhs) (erase rhs)
  | comma note lhs rhs => comma { note with loc := nowhere } (erase lhs) (erase rhs)
  | cond note test yes no =>
    cond { note with loc := nowhere } (erase test) (erase yes) (erase no)
  | unary note op operand => unary { note with loc := nowhere } op (erase operand)
  | addr note operand => addr { note with loc := nowhere } (erase operand)
  | deref note operand => deref { note with loc := nowhere } (erase operand)
  | member note base name offset =>
    member { note with loc := nowhere } (erase base) name offset
  | call note callee args => call { note with loc := nowhere } callee (eraseAll args)
  | cast note target operand => cast { note with loc := nowhere } target (erase operand)
  | sizeof note operand => sizeof { note with loc := nowhere } (erase operand)
  | update note dir target => update { note with loc := nowhere } dir (erase target)

def eraseAll : List Expr → List Expr
  | [] => []
  | e :: es => erase e :: eraseAll es

end

theorem erase_withLoc (e : Expr) (loc : Location) : (e.withLoc loc).erase = e.erase := by
  cases e <;> rfl

theorem eraseAll_eq_map (es : List Expr) : eraseAll es = es.map erase := by
  induction es with
  | nil => rfl
  | cons e es ih => rw [eraseAll, ih, List.map_cons]

end Expr

end MiniC
