import MiniC.Source
import MiniC.Text.Quoted

/-!
# Tokens

Keywords, punctuators, and the tokens a source text is made of. Words and
literals carry what they denote: a name, a value, the characters of a string.
A token also remembers whether it is the first of its line, because directives
are recognised by that.

`TokenKind.spelling` is a text that reads as the token again, and
`TokenKind.describe` is the form used in messages.
-/

namespace MiniC

/-- The reserved words. -/
inductive Keyword where
  | char | int | long | void | struct | enum | typedef | sizeof | alignof
  | ifWord | elseWord | whileWord | doWord | forWord | switch | case | default
  | breakWord | continueWord | returnWord | external | static
deriving DecidableEq

namespace Keyword

def spelling : Keyword → String
  | char => "char"
  | int => "int"
  | long => "long"
  | void => "void"
  | struct => "struct"
  | enum => "enum"
  | typedef => "typedef"
  | sizeof => "sizeof"
  | alignof => "_Alignof"
  | ifWord => "if"
  | elseWord => "else"
  | whileWord => "while"
  | doWord => "do"
  | forWord => "for"
  | switch => "switch"
  | case => "case"
  | default => "default"
  | breakWord => "break"
  | continueWord => "continue"
  | returnWord => "return"
  | external => "extern"
  | static => "static"

def all : List Keyword := [
  char, int, long, void, struct, enum, typedef, sizeof, alignof, ifWord, elseWord, whileWord,
  doWord, forWord, switch, case, default, breakWord, continueWord, returnWord, external, static
]

def ofString? (word : String) : Option Keyword :=
  all.find? (·.spelling == word)

end Keyword

/-- Operators and punctuation. -/
inductive Punct where
  | ellipsis | shlAssign | shrAssign
  | arrow | inc | dec | shl | shr | le | ge | eq | ne | andAnd | orOr
  | addAssign | subAssign | mulAssign | divAssign | modAssign | andAssign | orAssign | xorAssign
  | plus | minus | star | slash | percent | amp | pipe | caret | tilde | bang | lt | gt | assign
  | openParen | closeParen | openCurly | closeCurly | openSquare | closeSquare
  | semicolon | comma | period | question | colon | hash
deriving DecidableEq

namespace Punct

def spelling : Punct → String
  | ellipsis => "..."
  | shlAssign => "<<="
  | shrAssign => ">>="
  | arrow => "->"
  | inc => "++"
  | dec => "--"
  | shl => "<<"
  | shr => ">>"
  | le => "<="
  | ge => ">="
  | eq => "=="
  | ne => "!="
  | andAnd => "&&"
  | orOr => "||"
  | addAssign => "+="
  | subAssign => "-="
  | mulAssign => "*="
  | divAssign => "/="
  | modAssign => "%="
  | andAssign => "&="
  | orAssign => "|="
  | xorAssign => "^="
  | plus => "+"
  | minus => "-"
  | star => "*"
  | slash => "/"
  | percent => "%"
  | amp => "&"
  | pipe => "|"
  | caret => "^"
  | tilde => "~"
  | bang => "!"
  | lt => "<"
  | gt => ">"
  | assign => "="
  | openParen => "("
  | closeParen => ")"
  | openCurly => "\x7b"
  | closeCurly => "\x7d"
  | openSquare => "["
  | closeSquare => "]"
  | semicolon => ";"
  | comma => ","
  | period => "."
  | question => "?"
  | colon => ":"
  | hash => "#"

/-- Every punctuator, longer spellings before shorter ones, so that the first
one a text starts with is also the longest. -/
def all : List Punct := [
  ellipsis, shlAssign, shrAssign,
  arrow, inc, dec, shl, shr, le, ge, eq, ne, andAnd, orOr,
  addAssign, subAssign, mulAssign, divAssign, modAssign, andAssign, orAssign, xorAssign,
  plus, minus, star, slash, percent, amp, pipe, caret, tilde, bang, lt, gt, assign,
  openParen, closeParen, openCurly, closeCurly, openSquare, closeSquare,
  semicolon, comma, period, question, colon, hash
]

/-- No punctuator is written as the empty text. -/
theorem spelling_ne_nil (mark : Punct) : mark.spelling.toList ≠ [] := by
  cases mark <;> decide

end Punct

/-- What a token is, without where it stands. Character literals are integers. -/
inductive TokenKind where
  | id (name : String)
  | keyword (word : Keyword)
  | int (value : Int64)
  | str (text : String)
  | punct (mark : Punct)
deriving DecidableEq

namespace TokenKind

/-- A source text that reads as the token. The characters of a string are
written as they are, without escapes. -/
def spelling : TokenKind → String
  | id name => name
  | keyword word => word.spelling
  | int value => toString value.toInt
  | str text => "\"" ++ text ++ "\""
  | punct mark => mark.spelling

def describe : TokenKind → String
  | id name => s!"identifier `{name}`"
  | keyword word => s!"keyword `{word.spelling}`"
  | int value => s!"literal `{value.toInt}`"
  | str text => s!"string literal {Text.quoteString text}"
  | punct mark => s!"`{mark.spelling}`"

end TokenKind

/-- A token and whether no other token precedes it on its line. -/
structure Token where
  kind : TokenKind
  bol : Bool
deriving DecidableEq

namespace Token

def isPunct (token : Token) (mark : Punct) : Bool := token.kind == .punct mark

def isKeyword (token : Token) (word : Keyword) : Bool := token.kind == .keyword word

def name? (token : Token) : Option String :=
  match token.kind with
  | .id name => some name
  | _ => none

end Token

/-- A token where it was written. -/
abbrev Lexed := Located Token

end MiniC
