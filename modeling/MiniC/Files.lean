/-!
# Reading files

What can go wrong when a file is read, and how a path is formed from a
directory and a name. The library itself never touches a disk: it is given a
function from paths to texts.
-/

namespace MiniC

/-- Why a file has no text. -/
inductive FileError where
  | notFound
  | notDirectory
  | isDirectory
  | nameTooLong
  | nulInName
  | notUtf8
deriving DecidableEq

namespace FileError

def message : FileError → String
  | notFound => "No such file or directory (os error 2)"
  | notDirectory => "Not a directory (os error 20)"
  | isDirectory => "Is a directory (os error 21)"
  | nameTooLong => "File name too long (os error 36)"
  | nulInName => "file name contained an unexpected NUL byte"
  | notUtf8 => "stream did not contain valid UTF-8"

end FileError

/-- The text of each file that can be read. -/
abbrev Files := String → Except FileError String

/-- A path below a directory. An absolute path stays as it is, and exactly one
slash separates the two parts unless the directory is empty. -/
def joinPath (dir path : String) : String :=
  if path.toList.head? = some '/' || dir.isEmpty then path
  else if dir.toList.getLast? = some '/' then dir ++ path
  else dir ++ "/" ++ path

end MiniC
