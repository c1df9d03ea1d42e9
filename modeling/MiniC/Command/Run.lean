import MiniC.Command.Arguments
import MiniC.Compiler
import MiniC.FileTree

/-!
# Running a command

A command reads its input, compiles it, and says what is to be written. What is
to be done outside is a value, so a run is a function of the arguments, the
standard input and the files.
-/

namespace MiniC.Command

/-- What a command leaves: its exit status and what it wrote to the standard
streams. -/
structure Outcome where
  status : Nat := 0
  stdout : String := ""
  stderr : String := ""

/-- What is left to do after a compilation: nothing, or to write a file, with what
was shown so far. -/
inductive Step where
  | done (outcome : Outcome)
  | write (path text shown : String)

def version : String := "ccx 1.0.0\n"

def stdinName : String := "<stdin>"

def failureText (context : String) (cause : Option FileError) : String :=
  s!"Error: {context}\n" ++ cause.elim "" fun error => s!"\nCaused by:\n    {error.message}\n"

def failed (shown context : String) (cause : Option FileError) : Outcome :=
  { status := 1, stderr := shown ++ failureText context cause }

def load (input : String) (stdin : Except FileError String) (files : Files) :
    Except Outcome Source :=
  if input = "-" then
    match stdin with
    | .ok text => .ok ⟨stdinName, text⟩
    | .error error => .error (failed "" "Failed to read from stdin" (some error))
  else
    match files input with
    | .ok text => .ok ⟨input, text⟩
    | .error error => .error (failed "" s!"Failed to read source file: {input}" (some error))

/-- What is to be done with the assembly of a command. Making executables is left
to other tools. -/
def deliver (arguments : Arguments) (text shown : String) : Step :=
  match arguments.asmOnly, arguments.output with
  | _, none | true, some "-" => .done { stdout := text, stderr := shown }
  | true, some path => .write path text shown
  | false, some "-" => .done (failed shown "Refusing to write executable to stdout" none)
  | false, some _ => .done (failed shown "Failed to link" none)

def compileFor (arguments : Arguments) (files : Files) (source : Source) : Step :=
  match compile arguments.options files source with
  | (.ok lines, shown) => deliver arguments (Asm.render lines) shown
  | (.error error, shown) => .done { status := 1, stderr := shown ++ error.report.render }

def run (args : List String) (stdin : Except FileError String) (files : Files) : Step :=
  match request args with
  | .version => .done { stdout := version }
  | .misuse => .done { status := 2, stderr := "error: Invalid arguments\n" }
  | .compile arguments =>
    match load arguments.input stdin files with
    | .error outcome => .done outcome
    | .ok source => compileFor arguments files source

/-- The outcome of a command whose last step was to write a file. -/
def written (path shown : String) : Except FileError Unit → Outcome
  | .ok () => { stderr := shown }
  | .error error => failed shown s!"Failed to emit to file: {path}" (some error)

def decode (bytes : ByteArray) : Except FileError String :=
  match String.fromUTF8? bytes with
  | some text => .ok text
  | none => .error .notUtf8

/-- Runs the command in a working directory, which it may change. -/
def runIn (tree : FileTree) (args : List String) (stdin : ByteArray) : Outcome × FileTree :=
  match run args (decode stdin) tree.readText with
  | .done outcome => (outcome, tree)
  | .write path text shown =>
    match tree.write path text.toUTF8 with
    | .ok tree => (written path shown (.ok ()), tree)
    | .error error => (written path shown (.error error), tree)

end MiniC.Command
