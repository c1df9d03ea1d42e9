import MiniC.Emit.Allocated
import MiniC.Emit.Stack
import MiniC.Grammar.Unit
import MiniC.Ir.Lowering
import MiniC.Macro.Directive
import MiniC.Options
import MiniC.Program.Outline
import MiniC.Source.Report
import MiniC.Typing.Program

/-!
# Compilation

A source becomes tokens, the tokens a program, the program a typed program, and
that assembly, directly or by way of blocks. The first error of any stage ends
the compilation.

`compile` also shows the stages it is asked to show. What is shown comes in the
order of the stages and includes every stage that was reached.
-/

namespace MiniC

/-- Why a source does not compile, by the stage that found out. -/
inductive CompileError where
  | lexical (error : Located LexicalError)
  | directive (error : Located MacroError)
  | grammar (error : Located SyntaxError)
  | typing (error : Located TypingError)
  | emission (error : Located EmitError)

namespace CompileError

def kind : CompileError → String
  | lexical _ | directive ⟨.lexical _, _⟩ => "Lexical error"
  | directive _ => "Preprocessor error"
  | grammar _ => "Syntax error"
  | typing _ => "Semantic error"
  | emission _ => "Code generation error"

def message : CompileError → Located String
  | lexical error => error.map (·.message)
  | directive error => error.map (·.message)
  | grammar error => error.map (·.message)
  | typing error => error.map (·.message)
  | emission error => error.map (·.message)

def report (error : CompileError) : Report := ⟨error.kind, [error.message]⟩

end CompileError

/-! ## Stages -/

def tokenize (source : Source) : Except CompileError (List Lexed) :=
  (Lexer.tokenize source).mapError .lexical

def preprocess (includes : Macro.Includes) (tokens : List Lexed) :
    Except CompileError (List Lexed) :=
  (Macro.preprocess includes tokens).mapError .directive

def parse (source : Source) (tokens : List Lexed) : Except CompileError Program :=
  (Program.parse source tokens).mapError .grammar

def analyze (implicitDecls : Bool) (p : Program) : Except CompileError Program :=
  (Typing.program implicitDecls p).mapError .typing

def lower (p : Program) : Except CompileError (List Ir.Function) :=
  match Ir.lower p with
  | some functions => .ok functions
  | none => .error (.emission ⟨.malformed, p.loc⟩)

/-- The assembly of a typed program by way of the machine stack. -/
def emitStack (p : Program) : Except CompileError (List Asm.Line) :=
  match Emit.Stack.program p with
  | some lines => .ok lines
  | none => .error (.emission ⟨.malformed, p.loc⟩)

def emitAllocated (p : Program) (functions : List Ir.Function) :
    Except CompileError (List Asm.Line) :=
  (Emit.Allocated.program p functions).mapError .emission

/-! ## All stages -/

/-- What is shown of tokens: the place and the spelling of each on a line. -/
def tokensText (tokens : List Lexed) : String :=
  String.join (tokens.map fun token => s!"{token.loc.text}\t{token.value.kind.spelling}\n")

/-- A compilation that may show texts on its way. -/
abbrev Compile := ExceptT CompileError (StateM String)

def show? (wanted : Bool) (text : Unit → String) : Compile Unit :=
  if wanted then modify (· ++ text ()) else return ()

def compileSource (options : Options) (includes : Macro.Includes) (source : Source) :
    Compile (List Asm.Line) := do
  let tokens ← tokenize source
  show? options.dumps.tokens fun _ => tokensText tokens
  let tokens ← preprocess includes tokens
  show? options.dumps.preprocessed fun _ => tokensText tokens
  let program ← parse source tokens
  let program ← analyze options.implicitDecls program
  show? options.dumps.tree fun _ => program.outline.render ++ "\n"
  match options.backend with
  | .stack => emitStack program
  | .ir =>
    let functions ← lower program
    show? options.dumps.ir fun _ => String.join (functions.map (·.text))
    emitAllocated program functions

/-- The assembly of a source, or an error, and the text that was shown. Included
files are read from the include directory of the options. -/
def compile (options : Options) (files : Files) (source : Source) :
    Except CompileError (List Asm.Line) × String :=
  (compileSource options ⟨options.includeDir, files⟩ source).run ""

end MiniC
