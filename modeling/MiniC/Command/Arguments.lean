import MiniC.Options

/-!
# Command line arguments

Options and the input file may come in any order. A value follows its option as
the next argument, or directly: `-oFILE`, `-o=FILE`, `--backend=NAME`. Options of
one letter may share a dash. After `--` everything is a file.
-/

namespace MiniC.Command

/-- A compilation asked for on the command line. `-` as the input or the output
means the standard streams. -/
structure Arguments where
  input : String
  asmOnly : Bool := false
  output : Option String := none
  options : Options := {}

/-- What the command line asks for. -/
inductive Request where
  | version
  | compile (arguments : Arguments)
  | misuse

/-- The options without a value. -/
inductive Flag where
  | asmOnly | strip | static | implicitDecl | dumpTokens | dumpPreprocessed | dumpTree | dumpIr
deriving DecidableEq

/-- The options with a value. -/
inductive Setting where
  | output | includeDir | backend
deriving DecidableEq

/-- One thing said on the command line. -/
inductive Word where
  | flag (flag : Flag)
  | setting (setting : Setting) (value : String)
  | input (path : String)
  | version

namespace Word

def longFlag? : String → Option Flag
  | "static" => some .static
  | "implicit-decl" => some .implicitDecl
  | "dump-tokens" => some .dumpTokens
  | "dump-pp" => some .dumpPreprocessed
  | "dump-ast" => some .dumpTree
  | "dump-ir" => some .dumpIr
  | _ => none

/-- A long option, after its dashes, before the other arguments. -/
def long (text : String) (rest : List String) : Option (List Word × List String) :=
  match text.splitOn "=", rest with
  | ["version"], _ => some ([.version], rest)
  | ["backend"], value :: rest =>
    if value.startsWith "-" && value != "-" then none else some ([.setting .backend value], rest)
  | ["backend"], [] => none
  | [name], _ => (longFlag? name).map fun flag => ([.flag flag], rest)
  | "backend" :: value, _ => some ([.setting .backend ("=".intercalate value)], rest)
  | _, _ => none

/-- A setting whose value may be what is left of its argument, else the next one. -/
def valued (setting : Setting) (attached : List Char) (rest : List String) :
    Option (List Word × List String) :=
  match attached, rest with
  | '=' :: value, _ => some ([.setting setting (String.ofList value)], rest)
  | c :: value, _ => some ([.setting setting (String.ofList (c :: value))], rest)
  | [], value :: rest =>
    if value.startsWith "-" && value != "-" then none else some ([.setting setting value], rest)
  | [], [] => none

/-- Options of one letter, after their dash, before the other arguments. -/
def short : List Char → List String → Option (List Word × List String)
  | [], rest => some ([], rest)
  | 'o' :: value, rest => valued .output value rest
  | 'I' :: value, rest => valued .includeDir value rest
  | 'S' :: letters, rest => do
    let (words, rest) ← short letters rest
    return (.flag .asmOnly :: words, rest)
  | 's' :: letters, rest => do
    let (words, rest) ← short letters rest
    return (.flag .strip :: words, rest)
  | 'V' :: _, rest => some ([.version], rest)
  | _, _ => none

def read : Nat → List String → Option (List Word)
  | _, [] => some []
  | 0, _ => none
  | count + 1, arg :: rest =>
    match arg.toList with
    | ['-', '-'] => some (rest.map .input)
    | '-' :: '-' :: text => do
      let (words, rest) ← long (String.ofList text) rest
      return words ++ (← read count rest)
    | '-' :: c :: letters => do
      let (words, rest) ← short (c :: letters) rest
      return words ++ (← read count rest)
    | _ => do return .input arg :: (← read count rest)

end Word

def settingOf (words : List Word) (setting : Setting) : Option (Option String) :=
  match words.filterMap (fun | .setting s value => if s = setting then some value else none
                             | _ => none) with
  | [] => some none
  | [value] => some (some value)
  | _ => none

def flagOf (words : List Word) (flag : Flag) : Option Bool :=
  match words.countP (fun | .flag f => f = flag | _ => false) with
  | 0 => some false
  | 1 => some true
  | _ => none

def inputOf (words : List Word) : Option String :=
  match words.filterMap (fun | .input path => some path | _ => none) with
  | [path] => some path
  | _ => none

def arguments (words : List Word) : Option Arguments := do
  let defaults : Options := {}
  let _ ← flagOf words .strip
  let _ ← flagOf words .static
  let dumps : Dumps := {
    tokens := ← flagOf words .dumpTokens
    preprocessed := ← flagOf words .dumpPreprocessed
    tree := ← flagOf words .dumpTree
    ir := ← flagOf words .dumpIr }
  let backend ← match ← settingOf words .backend with
    | some name => Backend.ofName? name
    | none => some defaults.backend
  return {
    input := ← inputOf words
    asmOnly := ← flagOf words .asmOnly
    output := ← settingOf words .output
    options := {
      includeDir := (← settingOf words .includeDir).getD defaults.includeDir
      backend
      implicitDecls := ← flagOf words .implicitDecl
      dumps } }

def request (args : List String) : Request :=
  match Word.read args.length args with
  | none => .misuse
  | some words =>
    if words.any (fun | .version => true | _ => false) then .version
    else
      match arguments words with
      | some arguments => .compile arguments
      | none => .misuse

end MiniC.Command
