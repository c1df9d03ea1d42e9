import MiniC.Command.Run

/-!
# The command

Runs `Command.run` on the files of the system. The command is a function of the
files it reads, so it is run again whenever it asks for a file that has not been
read yet.
-/

namespace MiniC.Command

def fileError : IO.Error → FileError
  | .noFileOrDirectory .. => .notFound
  | .inappropriateType .. => .isDirectory
  | _ => .notDirectory

def readSystem (path : String) : IO (Except FileError String) := do
  match ← (IO.FS.readBinFile path).toBaseIO with
  | .ok bytes => return decode bytes
  | .error error => return .error (fileError error)

/-- The files that have been asked for, with what reading them gave. -/
structure Known where
  files : List (String × Except FileError String) := []

namespace Known

def find (known : Known) : Files := fun path =>
  (known.files.lookup path).getD (.error .notFound)

/-- The paths that a source with these options may ask for next: the one it stops
at. -/
def missing (known : Known) (args : List String) (stdin : Except FileError String) :
    Option String :=
  match request args with
  | .compile arguments =>
    if arguments.input ≠ "-" ∧ (known.files.lookup arguments.input).isNone then
      some arguments.input
    else
      match load arguments.input stdin known.find with
      | .error _ => none
      | .ok source =>
        match (compile arguments.options known.find source).1 with
        | .error (.directive ⟨.unreadable path _, _⟩) =>
          if (known.files.lookup path).isNone then some path else none
        | _ => none
  | _ => none

end Known

/-- Reads files until the command asks for no other. -/
partial def gather (known : Known) (args : List String) (stdin : Except FileError String) :
    IO Known := do
  match known.missing args stdin with
  | none => return known
  | some path => gather ⟨(path, ← readSystem path) :: known.files⟩ args stdin

def writeSystem (path text : String) : IO (Except FileError Unit) := do
  match ← (IO.FS.writeFile path text).toBaseIO with
  | .ok () => return .ok ()
  | .error error => return .error (fileError error)

def readStdin (args : List String) : IO (Except FileError String) := do
  match request args with
  | .compile arguments =>
    if arguments.input = "-" then return decode (← (← IO.getStdin).readBinToEnd) else return .ok ""
  | _ => return .ok ""

def execute (args : List String) : IO UInt32 := do
  let stdin ← readStdin args
  let known ← gather {} args stdin
  let outcome ← match run args stdin known.find with
    | .done outcome => pure outcome
    | .write path text shown => do pure (written path shown (← writeSystem path text))
  (← IO.getStdout).putStr outcome.stdout
  (← IO.getStderr).putStr outcome.stderr
  return .ofNat outcome.status

end MiniC.Command

def main (args : List String) : IO UInt32 := MiniC.Command.execute args
