/-!
# Outlines

A tree of named values, and its text on many lines: what is inside a value is
moved four columns to the right, one part per line, each followed by a comma.
-/

namespace MiniC

/-- A tree of values. -/
inductive Outline where
  | atom (text : String)
  | record (name : String) (fields : List (String × Outline))
  | tuple (name : String) (items : List Outline)
  | list (items : List Outline)

namespace Outline

/-- Puts a text before the first of some lines and another after the last one. -/
def surround (before after : String) : List String → List String
  | [] => [before ++ after]
  | [line] => [before ++ line ++ after]
  | line :: rest => (before ++ line) :: surround "" after rest

def indent (lines : List String) : List String := lines.map ("    " ++ ·)

mutual
def lines : Outline → List String
  | atom text => text.splitOn "\n"
  | record name fields => [name ++ " \x7b"] ++ fieldLines fields ++ ["\x7d"]
  | tuple name [] => [name]
  | tuple name items => [name ++ "("] ++ itemLines items ++ [")"]
  | list [] => ["[]"]
  | list items => ["["] ++ itemLines items ++ ["]"]
def fieldLines : List (String × Outline) → List String
  | [] => []
  | (name, value) :: rest => indent (surround s!"{name}: " "," value.lines) ++ fieldLines rest
def itemLines : List Outline → List String
  | [] => []
  | item :: rest => indent (surround "" "," item.lines) ++ itemLines rest
end

def render (outline : Outline) : String := "\n".intercalate outline.lines

/-! ## Leaves -/

def ofNat (n : Nat) : Outline := .atom (toString n)

def ofWord (n : Int64) : Outline := .atom (toString n.toInt)

def ofBool (b : Bool) : Outline := .atom (toString b)

def ofOption : Option Outline → Outline
  | none => .tuple "None" []
  | some value => .tuple "Some" [value]

end Outline

end MiniC
