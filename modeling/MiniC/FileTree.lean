import MiniC.Files

/-!
# File trees

A working directory as a value: the files below it and the directories they
stand in, and what a path leads to. Around the working directory there are
directories of which nothing is known but that they exist.

A place is a list of names from the working directory on. It may start with
any number of `..`, or with `/` for the root; no other name is `..`, and none
is `.` or empty.
-/

namespace MiniC

/-- What stands at a place. -/
inductive Entry where
  | directory
  | file (bytes : ByteArray)

/-- The known entries of a tree, the newest first. -/
structure FileTree where
  entries : List (List String × Entry) := []

namespace FileTree

def maxName : Nat := 255

def maxPath : Nat := 4096

/-- Where a path leads: to a directory, to a file, or to a place in a directory
where nothing stands. -/
inductive Target where
  | directory
  | file (place : List String) (bytes : ByteArray)
  | vacant (place : List String)

def parent (place : List String) : List String :=
  if place = ["/"] then place
  else if place.all (· == "..") then ".." :: place
  else place.dropLast

def entry? (tree : FileTree) (place : List String) : Option Entry :=
  match tree.entries.find? (·.1 == place) with
  | some (_, entry) => some entry
  | none => if place = ["/"] || place.all (· == "..") then some .directory else none

def walk (tree : FileTree) (place : List String) : List String → Except FileError Target
  | [] => .ok .directory
  | name :: rest =>
    if name = ".." then walk tree (parent place) rest
    else if name.utf8ByteSize > maxName then .error .nameTooLong
    else
      match tree.entry? (place ++ [name]) with
      | some .directory => walk tree (place ++ [name]) rest
      | some (.file bytes) =>
        if rest.isEmpty then .ok (.file (place ++ [name]) bytes) else .error .notDirectory
      | none => if rest.isEmpty then .ok (.vacant (place ++ [name])) else .error .notFound

def origin (path : String) : List String := if path.startsWith "/" then ["/"] else []

def names (path : String) : List String :=
  ((path.splitToList (· == '/')).filter fun name => name != "" && name != ".")

def namesDirectory (path : String) : Bool := path.endsWith "/" || path.endsWith "/."

def resolve (tree : FileTree) (path : String) : Except FileError Target :=
  if path.contains '\x00' then .error .nulInName
  else if path.isEmpty then .error .notFound
  else if path.utf8ByteSize ≥ maxPath then .error .nameTooLong
  else tree.walk (origin path) (names path)

def read (tree : FileTree) (path : String) : Except FileError ByteArray := do
  match ← tree.resolve path with
  | .directory => throw .isDirectory
  | .file _ bytes => if namesDirectory path then throw .notDirectory else return bytes
  | .vacant _ => throw .notFound

def readText (tree : FileTree) (path : String) : Except FileError String := do
  match String.fromUTF8? (← tree.read path) with
  | some text => return text
  | none => throw .notUtf8

def put (tree : FileTree) (place : List String) (entry : Entry) : FileTree :=
  ⟨(place, entry) :: tree.entries.filter (·.1 != place)⟩

/-- The tree after bytes are written to the file at a path, whose directory has
to exist. -/
def write (tree : FileTree) (path : String) (bytes : ByteArray) : Except FileError FileTree := do
  match ← tree.resolve path with
  | .directory => throw .isDirectory
  | .file place _ | .vacant place =>
    if namesDirectory path then throw .isDirectory else return tree.put place (.file bytes)

/-- The tree with the directories that following names from `place` leads through. -/
def makeDirectories (tree : FileTree) (place : List String) : List String → FileTree
  | [] => tree
  | name :: rest =>
    let place := place ++ [name]
    (tree.put place .directory).makeDirectories place rest

/-- The tree with a file, whose directories are made where they are missing. -/
def create (tree : FileTree) (path : String) (bytes : ByteArray) : FileTree :=
  let place := names path
  (tree.makeDirectories [] place.dropLast).put place (.file bytes)

end FileTree

end MiniC
