/-!
# Source text and locations

A `Source` is a named text. A `Position` is a line and a column in it, both
counted from one; columns count the bytes of the UTF-8 form of the line. They
are words of 32 bits, so that the column after the largest one is zero. A
`Location` is a half-open range of positions of one source, and a `Located`
value is a value with the location it was written at.

Locations carry their source, so a later stage can quote the line a value
came from without knowing which files were read.
-/

namespace MiniC

/-- A line and a column, both counted from one. -/
structure Position where
  line : UInt32
  column : UInt32
deriving DecidableEq

namespace Position

def first : Position := ⟨1, 1⟩

def advance (p : Position) : Position := ⟨p.line, p.column + 1⟩

def back (p : Position) : Position := ⟨p.line, max p.column 2 - 1⟩

def newline (p : Position) : Position := ⟨p.line + 1, 1⟩

def after (p : Position) (c : Char) : Position :=
  if c = '\n' then p.newline else ⟨p.line, p.column + .ofNat c.utf8Size⟩

def afterAll (p : Position) (cs : List Char) : Position :=
  cs.foldl after p

def text (p : Position) : String := s!"{p.line}:{p.column}"

end Position

/-- A named text. -/
structure Source where
  name : String
  text : String
deriving DecidableEq

namespace Source

/-- The characters of the `n`-th line of `cs`, counted from zero, up to its
line feed. Past the last line there are none. -/
def lineChars : Nat → List Char → List Char
  | 0, cs => cs.takeWhile (· != '\n')
  | n + 1, cs => lineChars n ((cs.dropWhile (· != '\n')).drop 1)

/-- The text of line `n`, counted from one, without its line feed and without
carriage returns at its end. A line that does not exist is empty. -/
def line (source : Source) (n : Nat) : String :=
  let chars := lineChars (n - 1) source.text.toList
  String.ofList (chars.reverse.dropWhile (· == '\r')).reverse

end Source

/-- A range of positions of one source; `stop` is the first position after it. -/
structure Location where
  source : Source
  start : Position
  stop : Position
deriving DecidableEq

namespace Location

def atStart (source : Source) : Location :=
  ⟨source, .first, Position.first.advance⟩

def span (first last : Location) : Location :=
  ⟨first.source, first.start, last.stop⟩

/-- The name of the source with the range. A range of one column, or one that
ends on another line, is written as its start alone; any other range names its
first and last column. -/
def text (loc : Location) : String :=
  if loc.stop = loc.start.advance ∨ loc.stop.line ≠ loc.start.line then
    s!"{loc.source.name}:{loc.start.text}"
  else
    s!"{loc.source.name}:[{loc.start.text}-{loc.stop.back.text}]"

end Location

/-- A value with the place it was written at. -/
structure Located (α : Type) where
  value : α
  loc : Location
deriving DecidableEq

namespace Located

def map {α β : Type} (f : α → β) (x : Located α) : Located β := ⟨f x.value, x.loc⟩

end Located

end MiniC
