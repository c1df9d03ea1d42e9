import MiniC.Proofs.Access.Objects
import MiniC.Proofs.Allocated.Code
import MiniC.Proofs.Emission
import MiniC.Proofs.Stack.Labels

/-!
# The widths of loads and stores

Both ways to emit a function write a load or a store for each access of its tree, in the same order
and with the width of the type of the object. A width has the number of bytes of the type, unless the
type is `void`: nothing counts as one byte, but is loaded and stored as eight.
-/

namespace MiniC

open List

/-- A load or a store of a number of bytes. -/
structure Touch where
  stores : Bool
  width : Width
deriving DecidableEq

def Access.touch (a : Access) : Touch := ⟨a.stores, .ofType a.object.ty⟩

def Access.touches (accesses : List Access) : List Touch := accesses.map (·.touch)

namespace Access

@[simp] theorem touches_nil : touches [] = [] := rfl

@[simp] theorem touches_append (first rest : List Access) :
    touches (first ++ rest) = touches first ++ touches rest := map_append

end Access

namespace Asm

/-- The load or store of a line. What is pushed and popped is not part of an object. -/
def Line.touch? : Line → Option Touch
  | .code (.load width _ _) => some ⟨false, width⟩
  | .code (.store width _ _) => some ⟨true, width⟩
  | _ => none

def touches (code : List Line) : List Touch := code.filterMap (·.touch?)

variable (line : Line) (code rest : List Line)

@[simp] theorem touches_nil : touches [] = [] := rfl

@[simp] theorem touches_append : touches (code ++ rest) = touches code ++ touches rest :=
  filterMap_append

@[simp] theorem touches_cons : touches (line :: code) = line.touch?.toList ++ touches code := by
  unfold touches
  cases h : line.touch? <;> simp [h]

theorem touches_map {α : Type} {f : α → Line} (quiet : ∀ a, (f a).touch? = none) (l : List α) :
    touches (l.map f) = [] := by
  induction l with
  | nil => rfl
  | cons a rest ih => rw [map_cons, touches_cons, quiet, ih]; rfl

theorem touches_pushes (regs : List Reg) : touches (regs.map fun reg => .code (.push reg)) = [] :=
  touches_map (fun _ => rfl) regs

theorem touches_pops (regs : List Reg) : touches (regs.map fun reg => .code (.pop reg)) = [] :=
  touches_map (fun _ => rfl) regs

end Asm

/-! ## Code on the machine stack -/

namespace Emit.Stack

open Asm

variable {ctx : Context} {want : Want} {code : Code} {i j : Nat}

@[simp] theorem touches_extend (width : Width) : touches (extend width) = [] := by cases width <;> rfl

theorem touches_access (want : Want) (x : Expr) :
    touches (access want x.ty) = Access.touches (x.load want) := by
  cases want with
  | address => rfl
  | value =>
    rw [access, Expr.load]
    split <;> rfl

@[simp] theorem touches_binary {op : BinOp} {width : Width} (made : binary op width = some code) :
    touches code = [] := by
  cases op <;> cases made <;>
    simp [alu, shift, compare, divide, boolean, Line.touch?]

@[simp] theorem touches_unary (op : UnOp) (width : Width) : touches (unary op width) = [] := by
  cases op <;> simp [unary, test, boolean, Line.touch?]

@[simp] theorem touches_call (name : String) (count depth : Nat) (ty : CType) :
    touches (call name count depth ty) = [] := by
  have adjusts : ∀ op, touches (if Int64.ofNat (8 * padding (depth + 2)) > 0 then
      [.code (.alu op .qword .rsp (.imm (Int64.ofNat (8 * padding (depth + 2)))))] else []) = [] := by
    intro op
    split <;> rfl
  simp only [call, touches_append, touches_pops, adjusts, touches_extend]
  rfl

mutual
/-- The lines of an expression touch memory as its accesses say. -/
theorem expr_touches (ctx : Context) : (e : Expr) → ∀ {depth : Nat} {want : Want} {code : Code}
    {i j : Nat}, expr ctx depth want e i = some (code, j) →
      touches code = Access.touches (e.accesses want)
  | .num .., _, _, _, _, _, made | .sizeof .., _, _, _, _, _, made => by
    obtain ⟨rfl, rfl⟩ := pure_eq_some.mp made
    rfl
  | .str note index, _, want, _, _, _, made => by
    obtain ⟨rfl, rfl⟩ := pure_eq_some.mp made
    rw [touches_cons]
    exact touches_access want (.str note index)
  | .global note name, _, want, _, _, _, made => by
    obtain ⟨rfl, rfl⟩ := pure_eq_some.mp made
    rw [touches_cons]
    exact touches_access want (.global note name)
  | .var note index, _, want, _, _, _, made => by
    obtain ⟨v, -, rfl⟩ := map_eq_some.mp made
    rw [touches_cons]
    exact touches_access want (.var note index)
  | .deref note pointer, _, want, _, _, _, made => by
    obtain ⟨_, hp, rfl⟩ := map_eq_some.mp made
    rw [touches_append, expr_touches ctx pointer hp, Expr.accesses, Access.touches_append]
    exact congrArg _ (touches_access want (.deref note pointer))
  | .member note base name offset, _, want, _, _, _, made => by
    obtain ⟨_, hb, rfl⟩ := map_eq_some.mp made
    have move : touches (if offset > 0 then
        [.code (.alu .add .qword .rax (.imm (.ofNat offset.toNat)))] else []) = [] := by
      split <;> rfl
    rw [touches_append, touches_append, move, append_nil, expr_touches ctx base hb,
      Expr.accesses, Access.touches_append]
    exact congrArg _ (touches_access want (.member note base name offset))
  | .binary note op _ lhs rhs, _, _, _, _, _, made => by
    rw [expr] at made
    rw [Expr.accesses, Access.touches_append]
    split at made
    · simp only [bind_eq_some, pure_eq_some] at made
      obtain ⟨id, k, -, left, l, hl, right, r, hr, rfl, rfl⟩ := made
      simp [expr_touches ctx lhs hl, expr_touches ctx rhs hr, test, constant, Context.jumpIf,
        Context.jump, Context.mark, Line.touch?]
    · simp only [bind_eq_some, pure_eq_some, lift_eq_some] at made
      obtain ⟨left, l, hl, right, r, hr, combine, k, ⟨hc, rfl⟩, rfl, rfl⟩ := made
      simp [expr_touches ctx lhs hl, expr_touches ctx rhs hr, touches_binary hc, Line.touch?]
  | .assign _ lhs rhs, _, _, _, _, _, made => by
    simp only [expr, bind_eq_some, pure_eq_some] at made
    obtain ⟨left, l, hl, right, r, hr, rfl, rfl⟩ := made
    rw [Expr.accesses, Access.touches_append, Access.touches_append]
    simp [expr_touches ctx lhs hl, expr_touches ctx rhs hr, Line.touch?, Access.touches, Access.touch]
  | .comma _ lhs rhs, _, _, _, _, _, made => by
    simp only [expr, bind_eq_some, pure_eq_some] at made
    obtain ⟨left, l, hl, right, r, hr, rfl, rfl⟩ := made
    rw [touches_append, expr_touches ctx lhs hl, expr_touches ctx rhs hr, Expr.accesses,
      Access.touches_append]
  | .cond _ question yes no, _, _, _, _, _, made => by
    simp only [expr, bind_eq_some, pure_eq_some] at made
    obtain ⟨id, k, -, first, l, hq, second, m, hy, third, n, hn, rfl, rfl⟩ := made
    rw [Expr.accesses, Access.touches_append, Access.touches_append]
    simp [expr_touches ctx question hq, expr_touches ctx yes hy, expr_touches ctx no hn, test,
      Context.jumpIf, Context.jump, Context.mark, Line.touch?]
  | .unary _ _ operand, _, _, _, _, _, made | .cast _ _ operand, _, _, _, _, _, made => by
    obtain ⟨_, ho, rfl⟩ := map_eq_some.mp made
    simp [expr_touches ctx operand ho, Expr.accesses]
  | .addr _ operand, _, _, _, _, _, made => expr_touches ctx operand made
  | .call _ _ args, _, _, _, _, _, made => by
    obtain ⟨_, ha, rfl⟩ := map_eq_some.mp made
    rw [touches_append, arguments_touches ctx args ha, touches_call, append_nil, Expr.accesses]
  | .update .., _, _, _, _, _, made => by cases made
theorem arguments_touches (ctx : Context) : (args : List Expr) → ∀ {depth : Nat} {code : Code}
    {i j : Nat}, arguments ctx depth args i = some (code, j) →
      touches code = Access.touches (Expr.allAccesses args)
  | [], _, _, _, _, made => by
    obtain ⟨rfl, rfl⟩ := pure_eq_some.mp made
    rfl
  | arg :: args, _, _, _, _, made => by
    simp only [arguments, bind_eq_some, pure_eq_some] at made
    obtain ⟨first, k, hf, rest, l, hr, rfl, rfl⟩ := made
    rw [Expr.allAccesses, Access.touches_append]
    simp [expr_touches ctx arg hf, arguments_touches ctx args hr, Line.touch?]
end

variable {e : Expr} {f : Function}

theorem value_touches (made : value ctx e i = some (code, j)) :
    touches code = Access.touches (e.accesses .value) := expr_touches ctx e made

theorem condition_touches {spot : Spot} (made : condition ctx e spot i = some (code, j)) :
    touches code = Access.touches (e.accesses .value) := by
  obtain ⟨_, hv, rfl⟩ := map_eq_some.mp made
  simp [value_touches hv, test, Context.jumpIf, Line.touch?]

theorem optional_touches {emit : Expr → Labelled Code} {e : Option Expr}
    (each : ∀ {x code i j}, emit x i = some (code, j) →
      touches code = Access.touches (x.accesses .value))
    (made : optional emit e i = some (code, j)) :
    touches code = Access.touches (Expr.optionalAccesses e) := by
  cases e with
  | none =>
    obtain ⟨rfl, rfl⟩ := pure_eq_some.mp made
    rfl
  | some e => exact each made

@[simp] theorem touches_leaveTo (ctx : Context) (spot : Option Spot) : touches (leaveTo ctx spot) = [] := by
  cases spot <;> rfl

@[simp] theorem touches_dispatch (ctx : Context) (cases : List CaseLabel) :
    touches (dispatch ctx cases) = [] := by
  induction cases with
  | nil => rfl
  | cons case rest ih =>
    obtain ⟨value, label⟩ := case
    cases value with
    | none => exact ih
    | some value => simp [dispatch, ih, Context.jumpIf, Line.touch?]

mutual
theorem stmt_touches (ctx : Context) : (s : Stmt) → ∀ {targets : Targets} {code : Code} {i j : Nat},
    stmt ctx targets s i = some (code, j) → touches code = Access.touches s.accesses
  | .expr _ _, _, _, _, _, made => value_touches made
  | .ret _ e, _, _, _, _, made => by
    obtain ⟨_, hv, rfl⟩ := map_eq_some.mp made
    simp [optional_touches value_touches hv, Stmt.accesses, Context.jump, Line.touch?]
  | .branch _ test yes no, _, _, _, _, made => by
    simp only [stmt, bind_eq_some, pure_eq_some] at made
    obtain ⟨id, k, -, first, l, ht, second, m, hy, third, n, hn, rfl, rfl⟩ := made
    simp [condition_touches ht, stmt_touches ctx yes hy, optionalStmt_touches ctx no hn,
      Stmt.accesses, Context.jump, Context.mark, Line.touch?]
  | .whileLoop _ test body, _, _, _, _, made => by
    simp only [stmt, bind_eq_some, pure_eq_some] at made
    obtain ⟨id, k, -, first, l, ht, second, m, hb, rfl, rfl⟩ := made
    simp [condition_touches ht, stmt_touches ctx body hb, Stmt.accesses, Context.jump,
      Context.mark, Line.touch?]
  | .doLoop _ body question, _, _, _, _, made => by
    simp only [stmt, bind_eq_some, pure_eq_some] at made
    obtain ⟨id, k, -, first, l, hb, second, m, ht, rfl, rfl⟩ := made
    simp [value_touches ht, stmt_touches ctx body hb, Stmt.accesses, Context.jumpIf,
      Context.mark, test, Line.touch?]
  | .forLoop _ init question step body, _, _, _, _, made => by
    simp only [stmt, bind_eq_some, pure_eq_some] at made
    obtain ⟨id, k, -, first, l, hi, second, m, ht, third, n, hb, fourth, o, hs, rfl, rfl⟩ := made
    simp [optionalStmt_touches ctx init hi, optional_touches condition_touches ht,
      stmt_touches ctx body hb, optional_touches value_touches hs, Stmt.accesses, Context.jump,
      Context.mark, Line.touch?]
  | .switch _ e body cases, _, _, _, _, made => by
    simp only [stmt, bind_eq_some, pure_eq_some] at made
    obtain ⟨id, k, -, first, l, he, second, m, hb, rfl, rfl⟩ := made
    simp [value_touches he, stmt_touches ctx body hb, Stmt.accesses, Context.jump, Context.mark,
      Line.touch?]
  | .case _ _ label body, _, _, _, _, made | .default _ label body, _, _, _, _, made => by
    obtain ⟨_, hb, rfl⟩ := map_eq_some.mp made
    rw [touches_append, stmt_touches ctx body hb, Stmt.accesses]
    cases label <;> rfl
  | .exit _, _, _, _, _, made | .next _, _, _, _, _, made | .null _, _, _, _, _, made => by
    obtain ⟨rfl, rfl⟩ := pure_eq_some.mp made
    simp [Stmt.accesses]
  | .block _ body, _, _, _, _, made => stmts_touches ctx body made
theorem optionalStmt_touches (ctx : Context) : (s : Option Stmt) → ∀ {targets : Targets} {code : Code}
    {i j : Nat}, optionalStmt ctx targets s i = some (code, j) →
      touches code = Access.touches (Stmt.optionalAccesses s)
  | none, _, _, _, _, made => by
    obtain ⟨rfl, rfl⟩ := pure_eq_some.mp made
    rfl
  | some s, _, _, _, _, made => stmt_touches ctx s made
theorem stmts_touches (ctx : Context) : (body : List Stmt) → ∀ {targets : Targets} {code : Code}
    {i j : Nat}, stmts ctx targets body i = some (code, j) →
      touches code = Access.touches (Stmt.allAccesses body)
  | [], _, _, _, _, made => by
    obtain ⟨rfl, rfl⟩ := pure_eq_some.mp made
    rfl
  | s :: rest, _, _, _, _, made => by
    simp only [stmts, bind_eq_some, pure_eq_some] at made
    obtain ⟨first, k, hs, others, l, hr, rfl, rfl⟩ := made
    rw [touches_append, stmt_touches ctx s hs, stmts_touches ctx rest hr, Stmt.allAccesses,
      Access.touches_append]
end

theorem spills_touches (params : List Nat) : ∀ {regs : List Reg} {lines : Code},
    params.length ≤ regs.length →
    ((params.zip regs).mapM fun x => do
      let v ← f.locals[x.1]?
      return Line.code (.store (.ofType v.ty) (.frame v.offset) x.2)) = some lines →
    touches lines = Access.touches (params.filterMap f.spill?) := by
  induction params with
  | nil =>
    intro regs lines _ made
    cases made
    rfl
  | cons param rest ih =>
    intro regs lines enough made
    cases regs with
    | nil => cases enough
    | cons reg regs =>
      rw [zip_cons_cons, mapM_cons] at made
      simp only [do_eq_some, Option.pure_def, Option.some.injEq] at made
      obtain ⟨_, ⟨v, found, rfl⟩, others, made, rfl⟩ := made
      have spilled : f.spill? param = some ⟨true, .var ⟨v.ty, v.loc⟩ param⟩ := by
        rw [Function.spill?, found]
        rfl
      rw [filterMap_cons_some spilled, touches_cons, ih (Nat.le_of_succ_le_succ enough) made]
      rfl

theorem prologue_touches (few : f.params.length ≤ maxArguments)
    (made : prologue f = some code) : touches code = Access.touches f.spills := by
  simp only [prologue, do_eq_some, Option.pure_def,
    Option.some.injEq] at made
  obtain ⟨spills, stored, rfl⟩ := made
  have frame : touches (if f.stackSize > 0 then
      [.code (.alu .sub .qword .rsp (.imm (.ofNat f.stackSize.toNat)))] else []) = [] := by
    split <;> rfl
  have enough : f.params.length ≤ Reg.arguments.length := few
  rw [touches_append, touches_append, frame, spills_touches f.params enough stored]
  rfl

theorem function_touches {σ : Structs} {body : Stmt} (few : f.params.length ≤ maxArguments)
    (made : function σ f body = some code) : touches code = Access.touches (f.accesses body) := by
  simp only [function, do_eq_some, Option.pure_def,
    Option.some.injEq] at made
  obtain ⟨head, hh, inner, hb, rfl⟩ := made
  obtain ⟨⟨_, last⟩, made, rfl⟩ := Option.map_eq_some_iff.mp hb
  have start : touches (functionHead f.name f.isStatic) = [] := by
    unfold functionHead visibility
    split <;> rfl
  rw [Function.accesses, Access.touches_append]
  simp [start, prologue_touches few hh, stmt_touches ⟨σ, f⟩ body made, constant, Context.mark, Line.touch?]

end Emit.Stack

/-! ## Blocks -/

namespace Ir

def Instruction.touch? : Instruction → Option Touch
  | .load width _ _ => some ⟨false, width⟩
  | .store width _ _ => some ⟨true, width⟩
  | _ => none

def touches (code : List Instruction) : List Touch := code.filterMap (·.touch?)

namespace Lowering

variable {α β : Type} {ctx : Context} {ts us : List Touch}

def Touches (x : Lower α) (ts : List Touch) : Prop :=
  ∀ ⦃b a b'⦄, x b = some (a, b') → touches b'.code = touches b.code ++ ts

namespace Touches

theorem pure (a : α) : Touches (Pure.pure a) [] := by
  intro b a' b' made
  obtain ⟨-, rfl⟩ := pure_eq_some.mp made
  rw [append_nil]

variable {x : Lower α} {f : α → Lower β} {i : VReg → Instruction}

theorem bind (first : Touches x ts) (rest : ∀ a, Touches (f a) us) :
    Touches (x >>= f) (ts ++ us) := by
  intro b c b'' made
  obtain ⟨a, b', hx, hf⟩ := bind_eq_some.mp made
  rw [rest a hf, first hx, append_assoc]

theorem andThen (first : Touches x []) (rest : ∀ a, Touches (f a) us) :
    Touches (x >>= f) us := first.bind rest

theorem before (first : Touches x ts) (rest : ∀ a, Touches (f a) []) :
    Touches (x >>= f) ts := append_nil ts ▸ first.bind rest

theorem lift (o : Option α) : Touches (liftM o : Lower α) [] := by
  intro b a b' made
  obtain ⟨-, rfl⟩ := lift_eq_some.mp made
  rw [append_nil]

theorem get : Touches (MonadState.get : Lower Build) [] := by
  intro b a b' made
  cases made
  rw [append_nil]

theorem emits {i : Instruction} (h : i.touch?.toList = ts) : Touches (emit i) ts := by
  intro b _ b' made
  rw [← emit_eq_some.mp made, Build.code_emit, touches, touches, filterMap_append, ← h]
  cases h : i.touch? <;> simp [h]

theorem emit {i : Instruction} (h : i.touch? = none) : Touches (emit i) [] := emits (by rw [h]; rfl)

theorem vreg : Touches vreg [] := by
  intro b _ b' made
  rw [← (vreg_eq_some.mp made).2, Build.code_withVReg, append_nil]

theorem newBlock : Touches newBlock [] := by
  intro b _ b' made
  rw [← (newBlock_eq_some.mp made).2, Build.code_withBlock, append_nil]

theorem start (id : BlockId) : Touches (start id) [] := by
  intro b _ b' made
  rw [← start_eq_some.mp made, Build.code_start, touches, touches, filterMap_append]
  split <;> rfl

theorem withCase (label : Nat) (target : BlockId) :
    Touches (modify fun b => { b with cases := (label, target) :: b.cases } : Lower Unit) [] := by
  intro b _ b' made
  rw [← case_eq_some.mp made, Build.code_withCase, append_nil]

theorem defines (h : ∀ r, (i r).touch?.toList = ts) :
    Touches (define i) ts :=
  vreg.andThen fun dst => .before (emits (h dst)) fun _ => .pure _

theorem define (h : ∀ r, (i r).touch? = none) : Touches (define i) [] :=
  defines fun r => by rw [h]; rfl

theorem imm (value : Int64) : Touches (imm value) [] := define fun _ => rfl

end Touches

theorem access_touches (want : Want) (x : Expr) (addr : VReg) :
    Touches (access want x.ty addr) (Access.touches (x.load want)) := by
  cases want with
  | address => exact .pure addr
  | value =>
    rw [access, Expr.load]
    split
    · exact .pure addr
    · exact .defines fun _ => rfl

theorem displace_touches (base : VReg) (offset : UInt32) : Touches (displace base offset) [] := by
  unfold displace
  split
  · exact .pure base
  · exact .andThen (.imm _) fun _ => .define fun _ => rfl

theorem joinWith_touches {value : Lower VReg} (result : VReg) (join block : BlockId)
    (h : Touches value ts) : Touches (joinWith result join block value) ts :=
  .andThen (.start block) fun _ => h.before fun _ => .andThen (.emit rfl) fun _ => .emit rfl

theorem logical_touches {value : Lower VReg} (result : VReg) (right short join : BlockId)
    (h : Touches value ts) (skipped : Int64) : Touches (do
      start right
      let rhs ← value
      let zero ← imm 0
      emit (.binary .ne .qword result rhs zero)
      emit (.jump join)
      start short
      emit (.imm result skipped)
      start join
      return result) ts := by
  refine .andThen (.start right) fun _ => h.before fun r => ?_
  refine .andThen (.imm 0) fun _ => .andThen (.emit rfl) fun _ => .andThen (.emit rfl) fun _ => ?_
  refine .andThen (.start short) fun _ => .andThen (.emit rfl) fun _ => ?_
  exact .andThen (.start join) fun _ => .pure result

mutual
/-- The instructions of an expression touch memory as its accesses say. -/
theorem expr_touches (ctx : Context) : (e : Expr) → (want : Want) →
    Touches (expr ctx want e) (Access.touches (e.accesses want))
  | .num .., _ | .sizeof .., _ => .imm _
  | .str note index, want => .andThen (.define fun _ => rfl) fun r => access_touches want (.str note index) r
  | .global note name, want => .andThen (.define fun _ => rfl) fun r => access_touches want (.global note name) r
  | .var note index, want => by
    rw [expr]
    refine .andThen (.lift _) fun v => .andThen (.define fun _ => rfl) fun r => ?_
    exact access_touches want (.var note index) r
  | .deref note pointer, want => by
    rw [expr, Expr.accesses, Access.touches_append]
    exact (expr_touches ctx pointer .value).bind fun r => access_touches want (.deref note pointer) r
  | .member note base name offset, want => by
    rw [expr, Expr.accesses, Access.touches_append]
    refine (expr_touches ctx base .address).bind fun r => (displace_touches r offset).andThen fun r => ?_
    exact access_touches want (.member note base name offset) r
  | .binary note op _ lhs rhs, _ => by
    rw [expr, Expr.accesses, Access.touches_append]
    split
    · refine .andThen .vreg fun result => .andThen .newBlock fun right => ?_
      refine .andThen .newBlock fun short => .andThen .newBlock fun join => ?_
      refine (expr_touches ctx lhs .value).bind fun l => ?_
      have tail := logical_touches result right short join (expr_touches ctx rhs .value)
      split
      · exact .andThen (.emit rfl) fun _ => tail 0
      · exact .andThen (.emit rfl) fun _ => tail 1
    · refine (expr_touches ctx lhs .value).bind fun l => (expr_touches ctx rhs .value).before fun r => ?_
      exact .define fun _ => rfl
  | .assign _ lhs rhs, _ => by
    rw [expr, Expr.accesses, Access.touches_append, Access.touches_append, append_assoc]
    refine (expr_touches ctx lhs .address).bind fun a => (expr_touches ctx rhs .value).bind fun v => ?_
    refine .before (.emits rfl) fun _ => ?_
    split
    · exact .pure v
    · exact .define fun _ => rfl
  | .comma _ lhs rhs, want => by
    rw [expr, Expr.accesses, Access.touches_append]
    exact (expr_touches ctx lhs .value).bind fun _ => expr_touches ctx rhs want
  | .cond _ question yes no, _ => by
    rw [expr, Expr.accesses, Access.touches_append, Access.touches_append, append_assoc]
    refine .andThen .vreg fun result => .andThen .newBlock fun yesBlock => ?_
    refine .andThen .newBlock fun noBlock => .andThen .newBlock fun join => ?_
    refine (expr_touches ctx question .value).bind fun q => .andThen (.emit rfl) fun _ => ?_
    refine (joinWith_touches result join yesBlock (expr_touches ctx yes .value)).bind fun _ => ?_
    refine (joinWith_touches result join noBlock (expr_touches ctx no .value)).before fun _ => ?_
    exact .andThen (.start join) fun _ => .pure result
  | .unary _ op operand, _ => by
    rw [expr, Expr.accesses]
    exact (expr_touches ctx operand .value).before fun _ => .define fun _ => rfl
  | .cast _ target operand, _ => by
    rw [expr, Expr.accesses]
    refine (expr_touches ctx operand .value).before fun r => ?_
    split
    · exact .pure r
    · exact .define fun _ => rfl
  | .addr _ operand, _ => by
    rw [expr, Expr.accesses]
    exact expr_touches ctx operand .address
  | .call _ _ args, _ => by
    rw [expr, Expr.accesses]
    exact (arguments_touches ctx args).before fun _ => .define fun _ => rfl
  | .update .., _ => by
    intro b a b' made
    cases made
theorem arguments_touches (ctx : Context) : (args : List Expr) →
    Touches (arguments ctx args) (Access.touches (Expr.allAccesses args))
  | [] => .pure []
  | arg :: args => by
    rw [arguments, Expr.allAccesses, Access.touches_append]
    exact (expr_touches ctx arg .value).bind fun _ => (arguments_touches ctx args).before fun _ => .pure _
end

/-! ## Statements of blocks -/

theorem effect_touches (ctx : Context) (e : Option Expr) :
    Touches (effect ctx e) (Access.touches (Expr.optionalAccesses e)) := by
  cases e with
  | none => exact .pure ()
  | some e => exact (expr_touches ctx e .value).before fun _ => .pure ()

theorem branch_touches (ctx : Context) (e : Expr) (yes no : BlockId) :
    Touches (branch ctx e yes no) (Access.touches (e.accesses .value)) :=
  (expr_touches ctx e .value).before fun _ => .emit rfl

theorem optionalBranch_touches (ctx : Context) (e : Option Expr) (yes no : BlockId) :
    Touches (optionalBranch ctx e yes no) (Access.touches (Expr.optionalAccesses e)) := by
  cases e with
  | none => exact .pure ()
  | some e => exact branch_touches ctx e yes no

theorem leaveTo_touches (target : Option BlockId) : Touches (leaveTo target) [] := by
  cases target with
  | none => exact .pure ()
  | some target => exact .emit rfl

theorem dispatch_touches (value : VReg) (cases : List CaseLabel) : ∀ fallback,
    Touches (dispatch value fallback cases) [] := by
  induction cases with
  | nil => exact fun fallback => .pure fallback
  | cons case rest ih =>
    intro fallback
    rw [dispatch]
    refine .andThen .newBlock fun target => .andThen (.withCase _ _) fun _ => ?_
    split
    · exact ih target
    · refine .andThen (.imm _) fun _ => .andThen (.define fun _ => rfl) fun _ => ?_
      refine .andThen .newBlock fun _ => .andThen (.emit rfl) fun _ => ?_
      exact .andThen (.start _) fun _ => ih fallback

theorem startCase_touches (label : Option Nat) : Touches (startCase label) [] := by
  refine .andThen .get fun b => ?_
  dsimp only
  split
  · exact .start _
  · exact .pure ()

mutual
theorem stmt_touches (ctx : Context) : (s : Stmt) → (targets : Targets) →
    Touches (stmt ctx targets s) (Access.touches s.accesses)
  | .expr _ e, _ => effect_touches ctx (some e)
  | .ret _ none, _ => .emit rfl
  | .ret _ (some e), _ => (expr_touches ctx e .value).before fun _ => .emit rfl
  | .branch _ test yes none, targets => by
    rw [stmt, Stmt.accesses, Access.touches_append, Access.touches_append, append_assoc]
    refine .andThen .newBlock fun yesBlock => .andThen .newBlock fun join => ?_
    refine (branch_touches ctx test _ _).bind fun _ => .andThen (.start _) fun _ => ?_
    exact (stmt_touches ctx yes targets).bind fun _ => .start _
  | .branch _ test yes (some no), targets => by
    rw [stmt, Stmt.accesses, Access.touches_append, Access.touches_append, append_assoc]
    refine .andThen .newBlock fun yesBlock => .andThen .newBlock fun join => ?_
    refine .andThen .newBlock fun noBlock => ?_
    refine (branch_touches ctx test _ _).bind fun _ => .andThen (.start _) fun _ => ?_
    refine (stmt_touches ctx yes targets).bind fun _ => .andThen (.emit rfl) fun _ => ?_
    exact .andThen (.start _) fun _ => (stmt_touches ctx no targets).before fun _ => .start _
  | .whileLoop _ test body, _ => by
    rw [stmt, Stmt.accesses, Access.touches_append]
    refine .andThen .newBlock fun head => .andThen .newBlock fun first => ?_
    refine .andThen .newBlock fun exit => .andThen (.start _) fun _ => ?_
    refine (branch_touches ctx test _ _).bind fun _ => .andThen (.start _) fun _ => ?_
    exact (stmt_touches ctx body _).before fun _ => .andThen (.emit rfl) fun _ => .start _
  | .doLoop _ body test, _ => by
    rw [stmt, Stmt.accesses, Access.touches_append]
    refine .andThen .newBlock fun first => .andThen .newBlock fun next => ?_
    refine .andThen .newBlock fun exit => .andThen (.start _) fun _ => ?_
    refine (stmt_touches ctx body _).bind fun _ => .andThen (.start _) fun _ => ?_
    exact (branch_touches ctx test _ _).before fun _ => .start _
  | .forLoop _ init test step body, targets => by
    rw [stmt_forLoop, Stmt.accesses, Access.touches_append, Access.touches_append,
      Access.touches_append, append_assoc, append_assoc]
    refine (optionalStmt_touches ctx init targets).bind fun _ => ?_
    refine .andThen .newBlock fun head => .andThen .newBlock fun first => ?_
    refine .andThen .newBlock fun next => .andThen .newBlock fun exit => ?_
    refine .andThen (.start _) fun _ => (optionalBranch_touches ctx test _ _).bind fun _ => ?_
    refine .andThen (.start _) fun _ => (stmt_touches ctx body _).bind fun _ => ?_
    refine .andThen (.start _) fun _ => (effect_touches ctx step).before fun _ => ?_
    exact .andThen (.emit rfl) fun _ => .start _
  | .switch _ e body cases, _ => by
    rw [stmt, Stmt.accesses, Access.touches_append]
    refine (expr_touches ctx e .value).bind fun r => .andThen .newBlock fun exit => ?_
    refine (dispatch_touches r cases exit).andThen fun _ => .andThen (.emit rfl) fun _ => ?_
    exact (stmt_touches ctx body _).before fun _ => .start _
  | .case _ _ label body, targets | .default _ label body, targets => by
    rw [stmt, Stmt.accesses]
    exact (startCase_touches label).andThen fun _ => stmt_touches ctx body targets
  | .exit _, targets => leaveTo_touches targets.exit
  | .next _, targets => leaveTo_touches targets.next
  | .null _, _ => .pure ()
  | .block _ body, targets => stmts_touches ctx body targets
theorem optionalStmt_touches (ctx : Context) : (s : Option Stmt) → (targets : Targets) →
    Touches (optionalStmt ctx targets s) (Access.touches (Stmt.optionalAccesses s))
  | none, _ => .pure ()
  | some s, targets => stmt_touches ctx s targets
theorem stmts_touches (ctx : Context) : (body : List Stmt) → (targets : Targets) →
    Touches (stmts ctx targets body) (Access.touches (Stmt.allAccesses body))
  | [], _ => .pure ()
  | s :: rest, targets => by
    rw [stmts, Stmt.allAccesses, Access.touches_append]
    exact (stmt_touches ctx s targets).bind fun _ => stmts_touches ctx rest targets
end

theorem spill_touches (f : MiniC.Function) (params : List Nat) :
    Touches (spill f params) (Access.touches (params.filterMap f.spill?)) := by
  induction params with
  | nil => exact .pure []
  | cons param rest ih =>
    rw [spill]
    intro b a b' made
    obtain ⟨v, c, found, made⟩ := bind_eq_some.mp made
    obtain ⟨listed, rfl⟩ := lift_eq_some.mp found
    have spilled : f.spill? param = some ⟨true, .var ⟨v.ty, v.loc⟩ param⟩ := by
      rw [MiniC.Function.spill?, listed]
      rfl
    rw [filterMap_cons_some spilled]
    have each : Touches (do
        let arrived ← vreg
        let addr ← define (.localAddr · v.offset)
        emit (.store (.ofType v.ty) addr arrived)
        let rest ← spill f rest
        return arrived :: rest) (⟨true, .ofType v.ty⟩ :: Access.touches (rest.filterMap f.spill?)) := by
      refine .andThen .vreg fun arrived => .andThen (.define fun _ => rfl) fun addr => ?_
      exact .bind (.emits rfl) fun _ => ih.before fun _ => .pure _
    exact each made

theorem body_touches (ctx : Context) (code : Stmt) :
    Touches (body ctx code) (Access.touches (ctx.function.accesses code)) := by
  rw [body_eq, MiniC.Function.accesses, Access.touches_append]
  refine .andThen .newBlock fun id => .andThen (.start id) fun _ => ?_
  refine (spill_touches ctx.function ctx.function.params).bind fun params => ?_
  refine (stmt_touches ctx code {}).before fun _ => Touches.andThen ?_ fun _ => .pure params
  refine .andThen .get fun b => ?_
  split
  · exact .andThen (.imm 0) fun _ => .emit rfl
  · exact .pure ()

end Lowering

theorem lowerFunction_touches {σ : Structs} {f : MiniC.Function} {code : Stmt} {g : Function}
    (made : lowerFunction σ f code = some g) :
    touches g.instructions = Access.touches (f.accesses code) := by
  simp only [lowerFunction, do_eq_some, Option.pure_def,
    Option.some.injEq] at made
  obtain ⟨⟨params, built⟩, done, rfl⟩ := made
  exact Lowering.body_touches ⟨σ, f⟩ code done

end Ir

/-! ## Code from blocks -/

namespace Emit.Allocated

open Asm

variable {ctx : Context} {code : Code}

@[simp] theorem touches_copyUnlessSame (dst src : Reg) : touches (copyUnlessSame dst src) = [] := by
  unfold copyUnlessSame
  split <;> rfl

@[simp] theorem touches_binary (op : BinOp) (width : Width) (dst lhs rhs : Reg) :
    touches (binary op width dst lhs rhs) = [] := by
  cases op <;> rfl

@[simp] theorem touches_unary (op : UnOp) (width : Width) (dst src : Reg) :
    touches (unary op width dst src) = [] := by
  cases op <;> rfl

@[simp] theorem touches_call (name : String) (args : List Reg) (width : Width) (dst : Reg) :
    touches (call name args width dst) = [] := by
  have copies : ∀ regs : List Reg, touches (regs.zipWith copy args) = [] := by
    intro regs
    induction regs generalizing args with
    | nil => rfl
    | cons reg rest ih =>
      cases args with
      | nil => rfl
      | cons arg args => rw [zipWith_cons_cons, touches_cons, ih]; rfl
  simp only [call, touches_append, copies]
  rfl

@[simp] theorem touches_jump (ctx : Context) (target : Ir.BlockId) : touches (ctx.jump target) = [] := by
  unfold Context.jump
  split <;> rfl

@[simp] theorem touches_branch (ctx : Context) (reg : Reg) (yes no : Ir.BlockId) :
    touches (branch ctx reg yes no) = [] := by
  unfold branch
  split
  · rfl
  · rw [touches_cons, touches_cons, touches_jump]
    rfl

theorem Coded.touches_eq {i : Ir.Instruction} (h : Coded ctx i code) :
    touches code = i.touch?.toList := by
  cases h with
  | imm | label | localAddr | cast | load | store | ret | retValue => rfl
  | mov | keep => exact touches_copyUnlessSame ..
  | binary => exact touches_binary ..
  | unary => exact touches_unary ..
  | call => exact touches_call ..
  | branch => exact touches_branch ..
  | jump => exact touches_jump ..

theorem instructions_touches {is : List Ir.Instruction} (made : instructions ctx is = .ok code) :
    touches code = Ir.touches is := by
  induction is generalizing code with
  | nil =>
    cases made
    rfl
  | cons i rest ih =>
    obtain ⟨first, hf, made⟩ := bind_eq_ok.mp made
    obtain ⟨others, hr, made⟩ := bind_eq_ok.mp made
    cases made
    rw [touches_append, (instruction_coded hf).touches_eq, ih hr, Ir.touches, Ir.touches]
    cases h : i.touch? <;> simp [h]

theorem blocks_touches {bs : List Ir.Block} (made : blocks ctx bs = .ok code) :
    touches code = Ir.touches (bs.flatMap (·.instructions)) := by
  induction bs generalizing code with
  | nil =>
    cases made
    rfl
  | cons b rest ih =>
    obtain ⟨body, others, hb, hr, rfl⟩ := blocks_cons made
    rw [cons_append, touches_cons, touches_append, instructions_touches hb, ih hr,
      flatMap_cons, Ir.touches, Ir.touches, Ir.touches, filterMap_append]
    rfl

theorem touches_alignment (op : AluOp) (kept : List Reg) : touches (alignment op kept) = [] := by
  unfold alignment
  split <;> rfl

variable {g : Ir.Function}

theorem prologue_touches (made : prologue ctx g = .ok code) : touches code = [] := by
  obtain ⟨params, rfl, copies⟩ := prologue_coded made
  have frame : touches (reserve g) = [] := by
    unfold reserve
    split <;> rfl
  have moves : touches params = [] := by
    refine filterMap_eq_nil_iff.mpr fun line mem => ?_
    obtain ⟨v, r, arg, -, -, rfl⟩ := copies line mem
    rfl
  simp only [touches_append, frame, touches_pushes, touches_alignment, moves]
  rfl

theorem epilogue_touches (ctx : Context) : touches (epilogue ctx) = [] := by
  simp only [epilogue, touches_append, touches_alignment, touches_pops]
  rfl

theorem function_touches (made : function g = .ok code) :
    touches code = Ir.touches g.instructions := by
  obtain ⟨allocation, -, made⟩ := bind_eq_ok.mp made
  obtain ⟨head, body, hh, hb, rfl⟩ := emit_coded made
  have start : touches (functionHead g.name g.isStatic) = [] := by
    unfold functionHead visibility
    split <;> rfl
  rw [touches_append, touches_append, touches_append, start, prologue_touches hh, blocks_touches hb,
    epilogue_touches, append_nil]
  rfl

end Emit.Allocated

end MiniC
