import MiniC.Proofs.Images
import MiniC.Proofs.LinearScan
import MiniC.Proofs.Lowering.Preservation
import MiniC.Proofs.Macro.Rescan

/-!
# Emission succeeds

A program that was parsed and typed has code. By way of the machine stack there always is
some; by way of blocks the one thing that can be missing is a register: when more values are
alive at once than the bank has registers. No parameter finds its register taken, since
parameters are there before anything else and each is pinned to a register of its own; and
every value that the code mentions has a register.
-/

namespace MiniC

open List

/-! ## The machine stack -/

namespace Emit.Stack

open Asm

variable {α β : Type}

def Total (x : Labelled α) : Prop := ∀ id, ∃ a next, x id = some (a, next)

namespace Total

theorem pure (a : α) : Total (Pure.pure a) := fun id => ⟨a, id, rfl⟩

theorem bind {x : Labelled α} {f : α → Labelled β} (first : Total x) (rest : ∀ a, Total (f a)) :
    Total (x >>= f) := by
  intro id
  obtain ⟨a, next, ran⟩ := first id
  obtain ⟨b, last, ran'⟩ := rest a next
  refine ⟨b, last, ?_⟩
  change (x id).bind (fun r => f r.1 r.2) = _
  rw [ran]
  exact ran'

theorem fresh : Total fresh := fun id => ⟨id, id + 1, rfl⟩

theorem lift {a : α} {x : Option α} (h : x = some a) : Total (liftM x) := by
  intro id
  refine ⟨a, id, ?_⟩
  rw [h]
  rfl

end Total

theorem binary_total {op : BinOp} (both : ¬(op = .logAnd ∨ op = .logOr)) (width : Width) :
    ∃ code, binary op width = some code := by
  cases op with
  | logAnd => exact absurd (.inl rfl) both
  | logOr => exact absurd (.inr rfl) both
  | _ => exact ⟨_, rfl⟩

mutual
/-- There is code for every formed expression. -/
theorem expr_total (ctx : Context) : (e : Expr) → e.Formed ctx.function.locals.length →
    ∀ depth want, Total (expr ctx depth want e)
  | .num .., _, _, _ | .str .., _, _, _ | .global .., _, _, _ | .sizeof .., _, _, _ => .pure _
  | .var _ index, h, _, _ =>
    (Total.lift (List.getElem?_eq_getElem h)).bind fun _ => .pure _
  | .deref _ pointer, h, depth, _ => (expr_total ctx pointer h depth .value).bind fun _ => .pure _
  | .member _ base _ _, h, depth, _ => (expr_total ctx base h depth .address).bind fun _ => .pure _
  | .binary note op _ lhs rhs, h, depth, _ => by
    rw [expr]
    split
    · exact Total.fresh.bind fun _ => (expr_total ctx lhs h.1 _ _).bind fun _ =>
        (expr_total ctx rhs h.2 _ _).bind fun _ => .pure _
    · rename_i both
      obtain ⟨code, known⟩ := binary_total both (.ofBinary op note.ty)
      exact (expr_total ctx lhs h.1 _ _).bind fun _ => (expr_total ctx rhs h.2 _ _).bind fun _ =>
        (Total.lift known).bind fun _ => .pure _
  | .assign _ lhs rhs, h, depth, _ =>
    (expr_total ctx lhs h.1 depth .address).bind fun _ =>
      (expr_total ctx rhs h.2 (depth + 1) .value).bind fun _ => .pure _
  | .comma _ lhs rhs, h, depth, want =>
    (expr_total ctx lhs h.1 depth .value).bind fun _ =>
      (expr_total ctx rhs h.2 depth want).bind fun _ => .pure _
  | .cond _ question yes no, h, depth, _ =>
    Total.fresh.bind fun _ => (expr_total ctx question h.1 depth .value).bind fun _ =>
      (expr_total ctx yes h.2.1 depth .value).bind fun _ =>
        (expr_total ctx no h.2.2 depth .value).bind fun _ => .pure _
  | .unary _ _ operand, h, depth, _ => (expr_total ctx operand h depth .value).bind fun _ => .pure _
  | .addr _ operand, h, depth, _ => expr_total ctx operand h depth .address
  | .call _ _ args, h, depth, _ => (arguments_total ctx args h.2 depth).bind fun _ => .pure _
  | .cast _ _ operand, h, depth, _ => (expr_total ctx operand h depth .value).bind fun _ => .pure _
  | .update .., h, _, _ => h.elim
theorem arguments_total (ctx : Context) : (args : List Expr) →
    Expr.AllFormed ctx.function.locals.length args → ∀ depth, Total (arguments ctx depth args)
  | [], _, _ => .pure _
  | arg :: args, h, depth =>
    (expr_total ctx arg h.1 depth .value).bind fun _ =>
      (arguments_total ctx args h.2 (depth + 1)).bind fun _ => .pure _
end

theorem condition_total (ctx : Context) {e : Expr} (h : e.Formed ctx.function.locals.length)
    (spot : Spot) : Total (condition ctx e spot) :=
  (expr_total ctx e h 0 .value).bind fun _ => .pure _

theorem optional_total {emit : Expr → Labelled Code} {n : Nat} {e : Option Expr}
    (each : ∀ e : Expr, e.Formed n → Total (emit e)) (h : Expr.OptionalFormed n e) :
    Total (optional emit e) := by
  cases e with
  | none => exact .pure _
  | some e => exact each e h

mutual
/-- There is code for every formed statement. -/
theorem stmt_total (ctx : Context) : (s : Stmt) → ∀ inside targets,
    s.Formed ctx.function.locals.length inside → Total (stmt ctx targets s)
  | .expr .., _, _, h => expr_total ctx _ h 0 .value
  | .ret .., _, _, h =>
    (optional_total (fun e h => expr_total ctx e h 0 .value) h).bind fun _ => .pure _
  | .branch _ _ yes no, _, _, h =>
    Total.fresh.bind fun _ => (condition_total ctx h.1 _).bind fun _ =>
      (stmt_total ctx yes _ _ h.2.1).bind fun _ =>
        (optionalStmt_total ctx no _ _ h.2.2).bind fun _ => .pure _
  | .whileLoop _ _ body, _, _, h =>
    Total.fresh.bind fun _ => (condition_total ctx h.1 _).bind fun _ =>
      (stmt_total ctx body _ _ h.2).bind fun _ => .pure _
  | .doLoop _ body cond, _, _, h =>
    Total.fresh.bind fun _ => (stmt_total ctx body _ _ h.2).bind fun _ =>
      (expr_total ctx cond h.1 0 .value).bind fun _ => .pure _
  | .forLoop _ init _ _ body, _, _, h =>
    Total.fresh.bind fun _ => (optionalStmt_total ctx init _ _ h.1).bind fun _ =>
      (optional_total (fun _ h => condition_total ctx h _) h.2.1).bind fun _ =>
        (stmt_total ctx body _ _ h.2.2.2).bind fun _ =>
          (optional_total (fun e h => expr_total ctx e h 0 .value) h.2.2.1).bind fun _ => .pure _
  | .switch _ e body _, _, _, h =>
    Total.fresh.bind fun _ => (expr_total ctx e h.1 0 .value).bind fun _ =>
      (stmt_total ctx body _ _ h.2.1).bind fun _ => .pure _
  | .case _ _ _ body, _, _, h => (stmt_total ctx body _ _ h.2).bind fun _ => .pure _
  | .default _ _ body, _, _, h => (stmt_total ctx body _ _ h.2).bind fun _ => .pure _
  | .exit _, _, _, _ | .next _, _, _, _ | .null _, _, _, _ => .pure _
  | .block _ body, _, _, h => stmts_total ctx body _ _ h
theorem optionalStmt_total (ctx : Context) : (s : Option Stmt) → ∀ inside targets,
    Stmt.OptionalFormed ctx.function.locals.length inside s → Total (optionalStmt ctx targets s)
  | none, _, _, _ => .pure _
  | some s, _, _, h => stmt_total ctx s _ _ h
theorem stmts_total (ctx : Context) : (body : List Stmt) → ∀ inside targets,
    Stmt.AllFormed ctx.function.locals.length inside body → Total (stmts ctx targets body)
  | [], _, _, _ => .pure _
  | s :: rest, _, _, h =>
    (stmt_total ctx s _ _ h.1).bind fun _ => (stmts_total ctx rest _ _ h.2).bind fun _ => .pure _
end

theorem mapM_total {f : α → Option β} {l : List α} (h : ∀ a ∈ l, ∃ b, f a = some b) :
    ∃ bs, l.mapM f = some bs := by
  induction l with
  | nil => exact ⟨[], rfl⟩
  | cons a l ih =>
    rw [forall_mem_cons] at h
    obtain ⟨b, first⟩ := h.1
    obtain ⟨bs, rest⟩ := ih h.2
    refine ⟨b :: bs, ?_⟩
    rw [mapM_cons, first, rest]
    rfl

variable {f : Function}

theorem prologue_total (h : ∀ p ∈ f.params, p < f.locals.length) :
    ∃ code, prologue f = some code := by
  have each : ∀ x ∈ f.params.zip Reg.arguments, ∃ line, (do
      let v ← f.locals[x.1]?
      return Line.code (.store (.ofType v.ty) (.frame v.offset) x.2)) = some line := by
    intro x mem
    rw [List.getElem?_eq_getElem (h x.1 (of_mem_zip mem).1)]
    exact ⟨_, rfl⟩
  obtain ⟨spills, spilled⟩ := mapM_total each
  rw [prologue, spilled]
  exact ⟨_, rfl⟩

theorem function_total (σ : Structs) {body : Stmt} (h : f.Formed body) :
    ∃ code, function σ f body = some code := by
  obtain ⟨head, made⟩ := prologue_total h.params
  obtain ⟨code, next, ran⟩ := stmt_total ⟨σ, f⟩ body _ {} h.formed 0
  have emitted : (stmt ⟨σ, f⟩ {} body).run' 0 = some code := by
    rw [StateT.run', ran]
    rfl
  simp only [function, made, emitted]
  exact ⟨_, rfl⟩

theorem functions_total (σ : Structs) {fs : List Function}
    (h : ∀ f ∈ fs, ∀ body, f.body = some body → f.Formed body) :
    ∃ code, functions σ fs = some code := by
  induction fs with
  | nil => exact ⟨[], rfl⟩
  | cons f rest ih =>
    rw [forall_mem_cons] at h
    obtain ⟨others, made⟩ := ih h.2
    cases known : f.body with
    | none =>
      simp only [functions, known, made]
      exact ⟨_, rfl⟩
    | some body =>
      obtain ⟨code, emitted⟩ := function_total σ (h.1 body known)
      simp only [functions, known, made, emitted]
      exact ⟨_, rfl⟩

end Emit.Stack

/-! ## Pins -/

namespace Allocation

open Ir

variable {error : EmitError} {g : Ir.Function}

/-- Parameters come first and find their pins free: at most registers run out. -/
theorem linearScan_unpinned {pin? : VReg → Option Nat} (todo : List Interval) :
    ∀ {ends : List (Option Nat)}, todo.Pairwise (fun a b => a.first ≤ b.first) →
    (∀ i ∈ todo, i.first = 0 ↔ ∃ pin, pin? i.vreg = some pin) →
    (∀ i ∈ todo, ∀ pin, pin? i.vreg = some pin → ends[pin]? = some none) →
    todo.Pairwise (fun a b => ∀ pin, pin? a.vreg = some pin → pin? b.vreg ≠ some pin) →
    linearScan pin? ends todo = .error error → error = .exhausted ends.length := by
  induction todo with
  | nil =>
    intro ends _ _ _ _ failed
    cases failed
  | cons i rest ih =>
    intro ends sorted first free apart failed
    rw [pairwise_cons] at sorted apart
    rw [forall_mem_cons] at first free
    rw [linearScan] at failed
    cases chosen : choose pin? ends i with
    | error other =>
      simp only [chosen, bind, Except.bind, Except.error.injEq] at failed
      subst failed
      cases pinned : pin? i.vreg with
      | none => exact choose_error pinned chosen
      | some pin =>
        simp only [choose, pinned, free.1 pin pinned, Option.any_some, isFree, Option.all_none,
          if_true] at chosen
        cases chosen
    | ok slot =>
      -- the slot is not that of a pin to come: either it is the pin of this interval, or this
      -- interval starts later than all that are pinned
      have other : ∀ j ∈ rest, ∀ pin, pin? j.vreg = some pin → slot ≠ pin := by
        rintro j mem pin pinned rfl
        cases own : pin? i.vreg with
        | some pin' => exact apart.1 j mem pin' own ((choose_ok chosen).2.2 pin' own ▸ pinned)
        | none =>
          have start : j.first = 0 := (first.2 j mem).mpr ⟨_, pinned⟩
          have later : i.first = 0 := Nat.le_zero.mp (start ▸ sorted.1 j mem)
          obtain ⟨pin, pinned⟩ := first.1.mp later
          rw [own] at pinned
          cases pinned
      cases scanned : linearScan pin? (ends.set slot (some i.last)) rest with
      | error other' =>
        simp only [chosen, scanned, bind, Except.bind, Except.error.injEq] at failed
        subst failed
        have few := ih sorted.2 first.2 (fun j mem pin pinned => ?_) apart.2 scanned
        · rwa [length_set] at few
        · rw [List.getElem?_set_ne (other j mem pin pinned)]
          exact free.2 j mem pin pinned
      | ok given =>
        simp only [chosen, scanned, bind, Except.bind, pure, Except.pure, reduceCtorEq] at failed

theorem pin?_zipIdx (pins : g.pins = g.params.zipIdx) (distinct : g.params.Nodup) {v : VReg}
    {pin : Nat} : g.pin? v = some pin ↔ g.params[pin]? = some v := by
  have sound : ∀ {pin}, g.pin? v = some pin → g.params[pin]? = some v := by
    intro pin found
    rw [Function.pin?, pins] at found
    obtain ⟨⟨w, k⟩, here, rfl⟩ := Option.map_eq_some_iff.mp found
    have same := List.find?_some here
    simp only [decide_eq_true_eq] at same
    subst same
    exact mem_zipIdx_iff_getElem?.mp (mem_of_find?_eq_some here)
  refine ⟨sound, fun here => ?_⟩
  have bound := (List.getElem?_eq_some_iff.mp here).1
  cases found : g.pin? v with
  | some other => rw [(List.getElem?_inj bound distinct).mp (here.trans (sound found).symm)]
  | none =>
    rw [Function.pin?, pins, Option.map_eq_none_iff, List.find?_eq_none] at found
    exact absurd (decide_eq_true rfl) (found (v, pin) (mem_zipIdx_iff_getElem?.mpr here))

/-- Only the number of registers stands in the way of an allocation. -/
theorem allocate_error {n : Nat} (pins : g.pins = g.params.zipIdx) (distinct : g.params.Nodup)
    (few : g.params.length ≤ n) (failed : allocate n g = .error error) : error = .exhausted n := by
  have covers := intervals_covers g
  have scanned : linearScan g.pin? (List.replicate n none) (intervals g) = .error error := by
    unfold allocate at failed
    cases scanned : linearScan g.pin? (List.replicate n none) (intervals g) with
    | ok slots => rw [scanned] at failed; cases failed
    | error other => rw [scanned] at failed; cases failed; rfl
  have exhausted := linearScan_unpinned (intervals g) (intervals_sorted g) ?_ ?_ ?_ scanned
  · rwa [length_replicate] at exhausted
  · intro i mem
    have start : i.first = 0 ↔ i.vreg ∈ g.params := by
      constructor
      · intro zero
        have appears := covers.starts i mem
        rwa [zero] at appears
      · intro param
        exact Nat.le_zero.mp (covers.within i mem 0 param).1
    rw [start, mem_iff_getElem?]
    exact exists_congr fun pin => (pin?_zipIdx pins distinct).symm
  · intro i _ pin pinned
    have bound := (List.getElem?_eq_some_iff.mp ((pin?_zipIdx pins distinct).mp pinned)).1
    rw [List.getElem?_replicate, if_pos (Nat.lt_of_lt_of_le bound few)]
  · refine (pairwise_map.mp covers.distinct).imp fun different pin pinned pinned' => ?_
    rw [pin?_zipIdx pins distinct] at pinned pinned'
    exact different (Option.some.inj (pinned.symm.trans pinned'))

end Allocation

theorem Ir.lowerFunction_pins {σ : Structs} {f : MiniC.Function} {code : Stmt} {g : Ir.Function}
    (made : lowerFunction σ f code = some g) : g.pins = g.params.zipIdx ∧ g.loc = f.loc := by
  simp only [lowerFunction, do_eq_some] at made
  obtain ⟨⟨params, built⟩, -, same⟩ := made
  cases same
  exact ⟨rfl, rfl⟩

/-! ## Blocks -/

namespace Emit.Allocated

open Asm Ir

variable {α β : Type}

def Succeeds (x : Except EmitError α) : Prop := ∃ a, x = .ok a

namespace Succeeds

theorem pure (a : α) : Succeeds (Pure.pure a) := ⟨a, rfl⟩

variable {f : α → Except EmitError β}

theorem bind {x : Except EmitError α} (first : Succeeds x)
    (rest : ∀ a, Succeeds (f a)) : Succeeds (x >>= f) := by
  obtain ⟨a, rfl⟩ := first
  exact rest a

theorem mapM {l : List α} (h : ∀ a ∈ l, Succeeds (f a)) :
    Succeeds (l.mapM f) := by
  induction l with
  | nil => exact .pure _
  | cons a l ih =>
    rw [forall_mem_cons] at h
    rw [mapM_cons]
    exact h.1.bind fun _ => (ih h.2).bind fun _ => .pure _

end Succeeds

/-- The registers that an instruction mentions have been given registers of the bank. -/
def Covered (ctx : Context) (i : Ir.Instruction) : Prop :=
  ∀ v, v ∈ i.uses ∨ i.def? = some v → Succeeds (ctx.reg v)

variable {ctx : Context}

/-- There is code for an instruction whose values have registers. -/
theorem instruction_succeeds {i : Ir.Instruction} (h : Covered ctx i) :
    Succeeds (instruction ctx i) := by
  have use : ∀ {v}, v ∈ i.uses → Succeeds (ctx.reg v) := fun mem => h _ (.inl mem)
  have define : ∀ {v}, i.def? = some v → Succeeds (ctx.reg v) := fun written => h _ (.inr written)
  cases i with
  | imm | label | localAddr => exact (define rfl).bind fun _ => .pure _
  | mov dst src | unary _ _ dst src | load _ dst addr =>
    exact (define rfl).bind fun _ => (use mem_cons_self).bind fun _ => .pure _
  | cast width dst src =>
    cases width <;>
      exact (define rfl).bind fun _ => (use mem_cons_self).bind fun _ => .pure _
  | binary op width dst lhs rhs =>
    exact (define rfl).bind fun _ => (use mem_cons_self).bind fun _ =>
      (use (mem_cons_of_mem _ mem_cons_self)).bind fun _ => .pure _
  | store width addr src =>
    exact (use mem_cons_self).bind fun _ =>
      (use (mem_cons_of_mem _ mem_cons_self)).bind fun _ => .pure _
  | call width dst name args =>
    exact (Succeeds.mapM fun v mem => use (mem_of_mem_take mem)).bind fun _ =>
      (define rfl).bind fun _ => .pure _
  | branch test yes no => exact (use mem_cons_self).bind fun _ => .pure _
  | jump target => exact .pure _
  | ret value =>
    cases value with
    | none => exact .pure _
    | some value => exact (use mem_cons_self).bind fun _ => .pure _

theorem instructions_succeeds {is : List Ir.Instruction}
    (h : ∀ i ∈ is, Covered ctx i) : Succeeds (instructions ctx is) := by
  induction is with
  | nil => exact .pure _
  | cons i rest ih =>
    rw [forall_mem_cons] at h
    exact (instruction_succeeds h.1).bind fun _ => (ih h.2).bind fun _ => .pure _

theorem blocks_succeeds {bs : List Block}
    (h : ∀ b ∈ bs, ∀ i ∈ b.instructions, Covered ctx i) : Succeeds (blocks ctx bs) := by
  induction bs generalizing ctx with
  | nil => exact .pure _
  | cons b rest ih =>
    rw [forall_mem_cons] at h
    let here : Context := { ctx with next := rest.head?.map Block.id }
    have first : ∀ i ∈ b.instructions, Covered here i := h.1
    have others : ∀ b ∈ rest, ∀ i ∈ b.instructions, Covered here i := h.2
    exact (instructions_succeeds first).bind fun _ => (ih others).bind fun _ => .pure _

theorem function_succeeds {g : Ir.Function} {a : Allocation}
    (given : Allocation.allocate Reg.bank.length g = .ok a) : Succeeds (function g) := by
  let ctx : Context := { name := g.name, allocation := a }
  -- a register that appears in the text has one of the bank
  have known : ∀ {v k}, g.Appears v k → Succeeds (ctx.reg v) := by
    intro v k appears
    obtain ⟨r, found⟩ := (Allocation.register?_isSome_iff given).mpr ⟨k, appears⟩
    refine ⟨r, ?_⟩
    rw [Context.reg, show (a.slot? v).bind (Reg.bank[·]?) = some r from found]
  have covered : ∀ b ∈ g.blocks, ∀ i ∈ b.instructions, Covered ctx i := by
    intro b hb i hi v mentioned
    have listed : i ∈ g.instructions := mem_flatMap.mpr ⟨b, hb, hi⟩
    obtain ⟨k, here⟩ := mem_iff_getElem?.mp listed
    exact known (k := k + 1) ⟨i, here, mentioned⟩
  have head : Succeeds (prologue ctx g) := by
    refine (Succeeds.mapM fun x mem => ?_).bind fun _ => .pure _
    exact (known (k := 0) (of_mem_zip mem).1).bind fun _ => .pure _
  have code : Succeeds (do
      let head ← prologue ctx g
      let body ← blocks ctx g.blocks
      return functionHead g.name g.isStatic ++ head ++ body ++ epilogue ctx) :=
    head.bind fun _ => (blocks_succeeds covered).bind fun _ => .pure _
  rwa [function, given]

/-- Code is refused at a function that needs too many registers. -/
theorem functions_error {gs : List Ir.Function} {error : Located EmitError}
    (failed : functions gs = .error error) :
    ∃ g ∈ gs, error.loc = g.loc ∧ Allocation.allocate Reg.bank.length g = .error error.value := by
  induction gs with
  | nil => cases failed
  | cons g rest ih =>
    cases given : Allocation.allocate Reg.bank.length g with
    | error e =>
      have made : function g = .error e := by rw [function, given]; rfl
      rw [functions, made] at failed
      cases failed
      exact ⟨g, mem_cons_self, rfl, given⟩
    | ok a =>
      obtain ⟨code, made⟩ := function_succeeds given
      cases others : functions rest with
      | ok code' =>
        rw [functions, made, others] at failed
        cases failed
      | error e =>
        rw [functions, made, others] at failed
        cases failed
        obtain ⟨g', mem, found⟩ := ih others
        exact ⟨g', mem_cons_of_mem _ mem, found⟩

end Emit.Allocated

/-! ## Compilation -/

def Compile.Answers {α : Type} (x : Compile α) (answer : Except CompileError α) : Prop :=
  ∀ shown, (x.run shown).1 = answer

namespace Compile.Answers

variable {α β : Type}

theorem lift (answer : Except CompileError α) : Compile.Answers (liftM answer) answer := by
  intro shown
  cases answer <;> rfl

theorem bind {x : Compile α} {f : α → Compile β} {answer : Except CompileError α}
    {next : α → Except CompileError β} (first : Compile.Answers x answer)
    (rest : ∀ a, Compile.Answers (f a) (next a)) : Compile.Answers (x >>= f) (answer >>= next) := by
  intro shown
  have first := first shown
  change (ExceptT.bindCont f (x.run shown).1 (x.run shown).2).1 = _
  rw [first]
  cases answer with
  | ok a => exact rest a _
  | error e => rfl

theorem shows {wanted : Bool} {text : Unit → String} {f : Unit → Compile β}
    {answer : Except CompileError β} (rest : Compile.Answers (f ()) answer) :
    Compile.Answers (show? wanted text >>= f) answer := by
  have first : Compile.Answers (show? wanted text) (.ok ()) := by
    intro shown
    unfold show?
    split <;> rfl
  exact first.bind (f := f) fun _ => rest

end Compile.Answers

theorem compileSource_answers (options : Options) (includes : Macro.Includes) (source : Source) :
    (compileSource options includes source).Answers (do
      let tokens ← tokenize source
      let tokens ← preprocess includes tokens
      let program ← parse source tokens
      let program ← analyze options.implicitDecls program
      if options.backend = .stack then emitStack program
      else lower program >>= emitAllocated program) := by
  refine .bind (.lift _) fun tokens => .shows (.bind (.lift _) fun tokens => .shows ?_)
  refine .bind (.lift _) fun program => .bind (.lift _) fun program => .shows ?_
  cases options.backend with
  | stack => exact .lift _
  | ir => exact .bind (.lift _) fun functions => .shows (.lift _)

variable {p q : Program} {lines : List Asm.Line}

theorem analyze_data {implicitDecls : Bool} (analyzed : analyze implicitDecls p = .ok q) :
    Emit.data q = Emit.data p := by
  obtain ⟨same, -⟩ := Typing.program_eq (analyze_eq_ok.mp analyzed)
  rw [same]
  rfl

theorem emitStack_formed (written : Emit.data q = some lines)
    (formed : ∀ f ∈ q.functions, ∀ code, f.body = some code → f.Formed code) :
    ∃ lines, emitStack q = .ok lines := by
  obtain ⟨code, made⟩ := Emit.Stack.functions_total q.structs formed
  simp only [emitStack, Emit.Stack.program, written, made]
  exact ⟨_, rfl⟩

theorem emitAllocated_formed {gs : List Ir.Function} (written : Emit.data q = some lines)
    (lowered : lower q = .ok gs)
    (formed : ∀ f ∈ q.functions, ∀ code, f.body = some code → f.Formed code) :
    (∃ lines, emitAllocated q gs = .ok lines) ∨ ∃ f ∈ q.functions, f.body.isSome ∧
      emitAllocated q gs = .error (.emission ⟨.exhausted Asm.Reg.bank.length, f.loc⟩) := by
  simp only [emitAllocated, Emit.Allocated.program, written]
  cases emitted : Emit.Allocated.functions gs with
  | ok code => exact .inl ⟨_, rfl⟩
  | error error =>
    obtain ⟨g, mem, place, failed⟩ := Emit.Allocated.functions_error emitted
    obtain ⟨f, listed, code, body, made⟩ := exists_of_mem_lower lowered mem
    obtain ⟨g', made', length, distinct, -⟩ :=
      Ir.lowerFunction_implements q.structs (formed f listed code body)
    cases made.symm.trans made'
    obtain ⟨pins, sameLoc⟩ := Ir.lowerFunction_pins made
    have few : g.params.length ≤ Asm.Reg.bank.length := by
      rw [length]
      exact Nat.le_trans (formed f listed code body).count (by decide)
    have exhausted := Allocation.allocate_error pins distinct few failed
    refine .inr ⟨f, listed, by rw [body]; rfl, ?_⟩
    obtain ⟨value, loc⟩ := error
    cases exhausted
    cases place.trans sameLoc
    rfl

/-- **Accepted programs are safe for the back ends.** If a source gets through the lexer,
the preprocessor, the parser and typing, and the sizes of its globals fit into a word, then
there is code for it by way of the machine stack; and by way of blocks there is code, or the
registers of the bank are too few for one of its functions. -/
theorem compile_accepted {options : Options} {files : Files} {source : Source}
    {tokens expanded : List Lexed} {p q : Program}
    (tokenized : tokenize source = .ok tokens)
    (preprocessed : preprocess ⟨options.includeDir, files⟩ tokens = .ok expanded)
    (parsed : parse source expanded = .ok p)
    (analyzed : analyze options.implicitDecls p = .ok q)
    (fits : ∀ g ∈ p.globals, p.structs.Fits g.ty) :
    (∃ lines, (compile { options with backend := .stack } files source).1 = .ok lines) ∧
    ((∃ lines, (compile { options with backend := .ir } files source).1 = .ok lines) ∨
      ∃ f ∈ q.functions, f.body.isSome ∧ (compile { options with backend := .ir } files source).1 =
          .error (.emission ⟨.exhausted Asm.Reg.bank.length, f.loc⟩)) := by
  have formed := analyze_formed parsed analyzed
  obtain ⟨lines, written⟩ := Program.parse_data (parse_eq_ok.mp parsed) fits
  rw [← analyze_data analyzed] at written
  obtain ⟨gs, made, -⟩ := Ir.mem_lowerFunctions q.structs formed
  have lowered : lower q = .ok gs := by rw [lower, Ir.lower, made]
  have answers := fun backend => compileSource_answers { options with backend }
    ⟨options.includeDir, files⟩ source ""
  simp only [tokenized, preprocessed, parsed, analyzed, bind, Except.bind] at answers
  constructor
  · rw [compile, answers .stack]
    exact emitStack_formed written formed
  · rw [compile, answers .ir]
    simp only [reduceCtorEq, if_false, lowered]
    exact emitAllocated_formed written lowered formed

/-! ## An example -/

/-- Tokens without directives are left as they are. -/
theorem preprocess_plain (includes : Macro.Includes) {tokens : List Lexed}
    (h : ∀ token ∈ tokens, Macro.isDirective token.value = false) :
    preprocess includes tokens = .ok tokens := by
  have run : ∀ tokens : List Lexed, (∀ token ∈ tokens, Macro.isDirective token.value = false) →
      ∃ left, Macro.run includes Macro.maxDepth {} 0 tokens = .ok (tokens, {}, left) := by
    intro tokens h
    induction tokens with
    | nil => exact ⟨_, by rw [Macro.run]⟩
    | cons token rest ih =>
      rw [forall_mem_cons] at h
      obtain ⟨left, others⟩ := ih h.2
      have unused : Macro.expandUse Macro.maxDepth [] token rest = .ok none := by
        rw [Macro.expandUse, Macro.Env.use?]
        cases token.value.name? <;> rfl
      refine ⟨left, ?_⟩
      rw [Macro.run_eq (Nat.zero_lt_succ _) h.1, unused]
      change (Macro.run includes Macro.maxDepth {} 0 rest >>= _) = _
      rw [others]
      rfl
  obtain ⟨left, ran⟩ := run tokens h
  rw [preprocess, Macro.preprocess, ran]
  rfl

def table : Source := ⟨"t.c", "int x; int *p[2] = {0, &x}; int f(int n) { return n; }"⟩

def table? : Option (List Lexed × Program × Program) := do
  let tokens ← (tokenize table).toOption
  guard (tokens.all (!Macro.isDirective ·.value))
  let p ← (parse table tokens).toOption
  let q ← (analyze false p).toOption
  return (tokens, p, q)

theorem table?_types : table?.map (fun x => x.2.1.globals.map (·.ty)) =
    some [.int, .array (.ptr .int) 2] := by decide +kernel

theorem compile_accepted_table : ∃ tokens p q, tokenize table = .ok tokens ∧
    preprocess ⟨"", fun _ => .error .notFound⟩ tokens = .ok tokens ∧
    parse table tokens = .ok p ∧ analyze false p = .ok q ∧ (∀ g ∈ p.globals, p.structs.Fits g.ty) ∧
    (∃ lines, (compile { includeDir := "", backend := .stack } (fun _ => .error .notFound) table).1 =
      .ok lines) ∧
    ((∃ lines, (compile { includeDir := "", backend := .ir } (fun _ => .error .notFound) table).1 =
        .ok lines) ∨
      ∃ f ∈ q.functions, f.body.isSome ∧
        (compile { includeDir := "", backend := .ir } (fun _ => .error .notFound) table).1 =
          .error (.emission ⟨.exhausted Asm.Reg.bank.length, f.loc⟩)) := by
  obtain ⟨⟨tokens, p, q⟩, found, types⟩ := Option.map_eq_some_iff.mp table?_types
  simp only [table?, do_eq_some] at found
  obtain ⟨tokens', tokenized, _, plain, p', parsed, q', analyzed, same⟩ := found
  cases same
  have ordinary : ∀ token ∈ tokens, Macro.isDirective token.value = false := by
    unfold guard at plain
    split at plain
    · rename_i all
      simpa using all
    · cases plain
  have fits : ∀ g ∈ p.globals, p.structs.Fits g.ty := by
    intro g mem
    have listed : g.ty ∈ p.globals.map (·.ty) := mem_map_of_mem mem
    rw [types] at listed
    rcases mem_cons.mp listed with same | listed
    · rw [same]
      exact .scalar rfl
    · rw [mem_singleton.mp listed]
      exact .array (.scalar rfl) (by simp only [Structs.size, pointerSize]; decide)
  have preprocessed := preprocess_plain ⟨"", fun _ => .error .notFound⟩ ordinary
  exact ⟨tokens, p, q, eq_ok_of_toOption tokenized, preprocessed, eq_ok_of_toOption parsed,
    eq_ok_of_toOption analyzed, fits,
    @compile_accepted { includeDir := "" } (fun _ => .error .notFound) table tokens tokens p q
      (eq_ok_of_toOption tokenized) preprocessed (eq_ok_of_toOption parsed) (eq_ok_of_toOption analyzed) fits⟩

end MiniC
