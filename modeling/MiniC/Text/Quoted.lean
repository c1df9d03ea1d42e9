import MiniC.Text.Graphic

/-!
# Quoted characters and strings

The form in which a message shows a character or a string: between quotes, with
its own quote, the backslash and the usual controls behind a backslash, and
every other character that is not graphic as `\u` with its code point in braces.
A combining mark would change how the character before it looks, or the quote,
so it is written by code point as well.
-/

namespace MiniC.Text

/-- A code point in lower-case hexadecimal, between `\u` and braces. -/
def codePoint (c : Char) : String :=
  "\\u\x7b" ++ String.ofList (Nat.toDigits 16 c.toNat) ++ "\x7d"

def escape (quote c : Char) : String :=
  if c = '\x00' then "\\0"
  else if c = '\t' then "\\t"
  else if c = '\r' then "\\r"
  else if c = '\n' then "\\n"
  else if c = '\\' then "\\\\"
  else if c = quote then String.ofList ['\\', c]
  else if isGraphic c then String.ofList [c]
  else codePoint c

def quoteChar (c : Char) : String :=
  "'" ++ escape '\'' c ++ "'"

def quoteString (s : String) : String :=
  "\"" ++ String.join (s.toList.map (escape '"')) ++ "\""

end MiniC.Text
