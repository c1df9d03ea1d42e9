import MiniC.Program
import MiniC.Proofs.Semantics.Word

/-!
# What a typed tree means

Evaluation of a typed function, directly on its tree. Operands are evaluated from left
to right, the address of an assignment before its value. Values are words with their
sign extended; arrays and structs are handled by their address.

A `Host` is everything outside the function: where the symbols are, what calls answer,
and which accesses of the function to memory are let through. A call is answered from
its name, the values passed and the memory, and is recorded in the `World`.

Evaluation ends early at a division without a result, at an access that the host does
not let through, or when a loop has gone through its number of rounds; the last only
serves to make evaluation a function, and what a tree means is what it does when the
number is large enough.

A statement can be entered at its start or at one of its own case labels, which is how
a `switch` enters its body.
-/

namespace MiniC

/-- A call with the values that were passed. -/
structure Call where
  name : String
  args : List Word

/-- The memory, and the calls so far. -/
structure World where
  memory : Memory
  calls : List Call

/-- What surrounds a function. -/
structure Host where
  symbol : String → Word
  answer : String → List Word → Memory → Word × Memory
  allows : Word → Width → Bool

/-- Why a run ends before it returns. The last does not occur for typed trees. -/
inductive Stop where
  | division
  | access
  | rounds
  | untyped
deriving DecidableEq

/-- A computation on the world. -/
abbrev Eval := EStateM Stop World

namespace Host

variable (host : Host)

def read (w : Width) (a : Word) : Eval Word := do
  if host.allows a w then return (← get).memory.load w a else throw .access

def write (w : Width) (a v : Word) : Eval Unit :=
  if host.allows a w then modify fun s => { s with memory := s.memory.store w a v }
  else throw .access

def invoke (name : String) (args : List Word) : Eval Word :=
  modifyGet fun s =>
    let (v, memory) := host.answer name args s.memory
    (v, ⟨memory, s.calls ++ [⟨name, args⟩]⟩)

def access (want : Want) (ty : CType) (a : Word) : Eval Word :=
  match want with
  | .address => return a
  | .value => if ty.isAggregate then return a else host.read (.ofType ty) a

end Host

def Word.combine (op : BinOp) (w : Width) (a b : Word) : Eval Word :=
  match Word.binary op w a b with
  | some v => return v
  | none => throw .division

namespace Stmt

mutual
def labels : Stmt → List CaseLabel
  | .branch _ _ yes no => yes.labels ++ optionalLabels no
  | .whileLoop _ _ body | .doLoop _ body _ => body.labels
  | .forLoop _ init _ _ body => optionalLabels init ++ body.labels
  | .case _ value label body => (label.map (⟨some value, ·⟩)).toList ++ body.labels
  | .default _ label body => (label.map (⟨none, ·⟩)).toList ++ body.labels
  | .block _ body => allLabels body
  | .expr .. | .ret .. | .switch .. | .exit _ | .next _ | .null _ => []
def optionalLabels : Option Stmt → List CaseLabel
  | none => []
  | some s => s.labels
def allLabels : List Stmt → List CaseLabel
  | [] => []
  | s :: rest => s.labels ++ allLabels rest
end

end Stmt

namespace Tree

/-- Where a statement is entered: at its start, or at the case label of a value. -/
inductive EntryPoint where
  | start
  | label (value : Option Int64)
deriving DecidableEq

namespace EntryPoint

def isIn (entry : EntryPoint) (labels : List CaseLabel) : Bool :=
  match entry with
  | start => true
  | label value => labels.any (·.value = value)

end EntryPoint

/-- How a statement ends. -/
inductive Flow where
  | done
  | broke
  | continued
  | returned (value : Option Word)

/-- A function that is evaluated: its locals lie below `base`. -/
structure Context where
  host : Host
  structs : Structs
  locals : List Var
  base : Word

namespace Context

def place (ctx : Context) (v : Var) : Word := ctx.base - .ofNat 64 v.offset.toNat

end Context

variable (ctx : Context)

/-! ## Expressions -/

mutual
def expr (want : Want) : Expr → Eval Word
  | .num _ value => return value.toBitVec
  | .str note index => ctx.host.access want note.ty (ctx.host.symbol (stringLabel index))
  | .var note index =>
    match ctx.locals[index]? with
    | some v => ctx.host.access want note.ty (ctx.place v)
    | none => throw .untyped
  | .global note name => ctx.host.access want note.ty (ctx.host.symbol name)
  | .deref note pointer => do
    ctx.host.access want note.ty (← expr .value pointer)
  | .member note base _ offset => do
    ctx.host.access want note.ty ((← expr .address base) + .ofNat 64 offset.toNat)
  | .binary _ .logAnd _ lhs rhs => do
    if (← expr .value lhs) = 0 then return 0
    return .ofBool ((← expr .value rhs) ≠ 0)
  | .binary _ .logOr _ lhs rhs => do
    if (← expr .value lhs) ≠ 0 then return 1
    return .ofBool ((← expr .value rhs) ≠ 0)
  | .binary note op _ lhs rhs => do
    let a ← expr .value lhs
    let b ← expr .value rhs
    Word.combine op (.ofBinary op note.ty) a b
  | .assign _ lhs rhs => do
    let a ← expr .address lhs
    let v ← expr .value rhs
    ctx.host.write (.ofType lhs.ty) a v
    return v.cut (.ofType lhs.ty)
  | .comma _ lhs rhs => do
    let _ ← expr .value lhs
    expr want rhs
  | .cond _ test yes no => do
    if (← expr .value test) ≠ 0 then expr .value yes else expr .value no
  | .unary note op operand => do
    return .unary op (.arithmetic note.ty) (← expr .value operand)
  | .addr _ operand => expr .address operand
  | .call note callee args => do
    return (← ctx.host.invoke callee (← arguments args)).cut (.ofType note.ty)
  | .cast _ target operand => do
    return (← expr .value operand).cut (.ofType target)
  | .sizeof _ operand => return .ofNat 64 (ctx.structs.size operand.ty).toNat
  | .update .. => throw .untyped
def arguments : List Expr → Eval (List Word)
  | [] => return []
  | arg :: args => do
    let v ← expr .value arg
    return v :: (← arguments args)
end

theorem expr_binary {want : Want} {note : Note} {op : BinOp} {scaled : Bool} {lhs rhs : Expr}
    (both : ¬(op = .logAnd ∨ op = .logOr)) :
    expr ctx want (.binary note op scaled lhs rhs) = (do
      let a ← expr ctx .value lhs
      let b ← expr ctx .value rhs
      Word.combine op (.ofBinary op note.ty) a b) := by
  cases op <;> first | rfl | simp at both

def holds : Option Expr → Eval Bool
  | none => return true
  | some e => return (← expr ctx .value e) ≠ 0

def andThen : Option Expr → Eval Bool
  | none => return true
  | some e => do
    let _ ← expr ctx .value e
    return true

/-! ## Statements -/

/-- What a loop does when its body has ended: it goes on, if what comes after the body
holds. -/
def resume (after : Eval Bool) (again : Eval Flow) : Flow → Eval Flow
  | .broke => return .done
  | .returned v => return .returned v
  | .done | .continued => do if ← after then again else return .done

/-- At most so many rounds of a loop. A round is the body, if what comes before it holds,
and what comes after it. -/
def rounds (before after : Eval Bool) (body : EntryPoint → Eval Flow) : Nat → Eval Flow
  | 0 => throw .rounds
  | n + 1 => do
    if ← before then resume after (rounds before after body n) (← body .start)
    else return .done

def loop (before after : Eval Bool) (body : EntryPoint → Eval Flow) (n : Nat) (entry : EntryPoint) :
    Eval Flow := do
  match entry with
  | .start => rounds before after body n
  | entry => resume after (rounds before after body n) (← body entry)

def select (labels : List CaseLabel) (v : Word) : Option (Option Int64) :=
  let value := some (Int64.ofBitVec v)
  if labels.any (·.value = value) then some value
  else if labels.any (·.value = none) then some none
  else none

mutual
/-- Carries out a statement from where it is entered, with at most `n` rounds of each
loop. -/
def exec (n : Nat) (entry : EntryPoint) : Stmt → Eval Flow
  | .expr _ e => do
    let _ ← expr ctx .value e
    return .done
  | .ret _ none => return .returned none
  | .ret _ (some e) => return .returned (some (← expr ctx .value e))
  | .branch _ test yes no => do
    let first ← match entry with
      | .start => holds ctx (some test)
      | entry => pure (entry.isIn yes.labels)
    if first then exec n entry yes else execOptional n entry no
  | .whileLoop _ test body => loop (holds ctx (some test)) (pure true) (exec n · body) n entry
  | .doLoop _ body test => loop (pure true) (holds ctx (some test)) (exec n · body) n entry
  | .forLoop _ init test step body => do
    let rest := loop (holds ctx test) (andThen ctx step) (exec n · body) n
    if entry.isIn (Stmt.optionalLabels init) then
      match ← execOptional n entry init with
      | .done => rest .start
      | flow => return flow
    else rest entry
  | .switch _ e body _ => do
    let v ← expr ctx .value e
    match select body.labels v with
    | none => return .done
    | some value =>
      match ← exec n (.label value) body with
      | .broke => return .done
      | flow => return flow
  | .case _ value label body =>
    let here := label.isSome && entry == .label (some value)
    exec n (if here then .start else entry) body
  | .default _ label body =>
    let here := label.isSome && entry == .label none
    exec n (if here then .start else entry) body
  | .exit _ => return .broke
  | .next _ => return .continued
  | .block _ body => execAll n entry body
  | .null _ => return .done
def execOptional (n : Nat) (entry : EntryPoint) : Option Stmt → Eval Flow
  | none => return .done
  | some s => exec n entry s
def execAll (n : Nat) (entry : EntryPoint) : List Stmt → Eval Flow
  | [] => return .done
  | s :: rest => do
    if entry.isIn s.labels then
      match ← exec n entry s with
      | .done => execAll n .start rest
      | flow => return flow
    else execAll n entry rest
end

/-! ## Functions -/

def spill : List Nat → List Word → Eval Unit
  | param :: params, v :: args => do
    match ctx.locals[param]? with
    | some x => ctx.host.write (.ofType x.ty) (ctx.place x) v
    | none => throw .untyped
    spill params args
  | _, _ => return ()

end Tree

/-- The value a function returns for arguments, with at most `n` rounds of each loop.
There is none after a `return` without one; reaching the end of the body returns zero. -/
def Function.eval (host : Host) (σ : Structs) (base : Word) (f : Function) (code : Stmt)
    (args : List Word) (n : Nat) : Eval (Option Word) := do
  let ctx : Tree.Context := ⟨host, σ, f.locals, base⟩
  Tree.spill ctx f.params args
  match ← Tree.exec ctx n .start code with
  | .done => return some 0
  | .returned v => return v
  | .broke | .continued => throw .untyped

end MiniC
