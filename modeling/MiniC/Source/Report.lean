import MiniC.Source

/-!
# Error reports

A `Report` is a list of located messages of one kind. Its text names each
message and its location, quotes the lines of the location under a gutter of
line numbers, and underlines the columns when the location stays on one line.
-/

namespace MiniC

/-- Located messages of one kind. -/
structure Report where
  kind : String := "error"
  errors : List (Located String) := []

namespace Report

def blanks (n : Nat) : String := String.ofList (List.replicate n ' ')

/-- A text moved to the right end of a field of `width` columns. -/
def alignRight (width : Nat) (text : String) : String :=
  blanks (width - text.length) ++ text

/-- The quoted lines of a location, each behind its number in a gutter of
`digits` columns. -/
def excerpt (digits : Nat) (loc : Location) : String :=
  let first := loc.start.line.toNat
  let count := (max loc.stop.line loc.start.line).toNat + 1 - first
  String.join <| (List.range count).map fun i =>
    let number := first + i
    s!"{alignRight digits (toString number)} | {loc.source.line number}\n"

/-- The carets under the first quoted line. A location on several lines is
marked at its first column only. -/
def underline (loc : Location) : String :=
  let first := loc.start.column
  let last :=
    if loc.start.line = loc.stop.line then max loc.stop.column (first + 1) - 1 else first
  blanks (first - 1).toNat ++ String.ofList (List.replicate (last - first + 1).toNat '^')

def renderError (kind : String) (error : Located String) : String :=
  let loc := error.loc
  let digits := (toString loc.stop.line).length
  let gutter := blanks digits
  s!"{kind}: {error.value}\n --> {loc.text}\n{gutter} |\n" ++
    excerpt digits loc ++ s!"{gutter} | {underline loc}\n\n"

/-- The whole report: every message and a last line that counts them. -/
def render (report : Report) : String :=
  match report.errors with
  | [] => "No errors were reported\n"
  | errors =>
    let noun := if errors.length = 1 then "error" else "errors"
    String.join (errors.map (renderError report.kind)) ++
      s!"Build failed with {errors.length} {noun}\n"

end Report

end MiniC
