import MiniC.Proofs.DataSection
import MiniC.Proofs.Grammar.Functions
import MiniC.Proofs.Lowering.Preservation
import MiniC.Proofs.Typing.Canonical

/-!
# The range of registers

A virtual register has the value of an expression, with its sign extended from the width of the type:
comparisons, branches and the dispatch of a `switch` work on all of its bits. The one exception is an
enumeration constant beyond the range of an `int`, which has the type `int` and is in its register as
it is. `narrow_in_range` says this of all expressions in the body of every function.
-/

namespace MiniC

open List

variable {n : Nat}

theorem Expr.Formed.contains {e x : Expr} (formed : e.Formed n) (path : e.Contains x) :
    x.Formed n := by
  have listed : ∀ args : List Expr, Expr.AllFormed n args → ∀ x ∈ args, x.Formed n := by
    intro args formed
    induction args with
    | nil => exact forall_mem_nil _
    | cons e rest ih => exact forall_mem_cons.mpr ⟨formed.1, ih formed.2⟩
  induction path with
  | refl => exact formed
  | @tail y z path mem ih =>
    cases y with
    | num | str | var | global | sizeof => cases mem
    | binary | assign | comma =>
      rcases mem_cons.mp mem with rfl | mem
      · exact ih.1
      · cases mem_singleton.mp mem
        exact ih.2
    | cond =>
      rcases mem_cons.mp mem with rfl | mem
      · exact ih.1
      · rcases mem_cons.mp mem with rfl | mem
        · exact ih.2.1
        · cases mem_singleton.mp mem
          exact ih.2.2
    | unary | addr | deref | member | cast =>
      cases mem_singleton.mp mem
      exact ih
    | call _ _ args => exact listed args ih.2 z mem
    | update => exact ih.elim

open Ir.Lowering (At Computed Within)

def Stmt.HasExpr (code : Stmt) (e : Expr) : Prop := ∃ outer ∈ code.exprs, outer.Contains e

theorem canonical_of_hasExpr {source : Source} {tokens : List Lexed} {p q : Program}
    {implicitDecls : Bool} {f : Function} {code : Stmt} {e : Expr}
    (parsed : Program.parse source tokens = .ok p) (typed : Typing.program implicitDecls p = .ok q)
    (listed : f ∈ q.functions) (defined : f.body = some code) (has : code.HasExpr e)
    (ctx : Tree.Context) :
    Typing.Canonical (Program.constants source tokens) ctx e := by
  have built := Program.parse_built parsed
  obtain ⟨-, -, functions⟩ := Typing.program_typed typed
  obtain ⟨f₀, listed₀, Γ, known⟩ := exists_of_forall₂ functions listed
  obtain ⟨code₀, defined₀, all⟩ := known.body code defined
  obtain ⟨outer, mem, path⟩ := has
  obtain ⟨outer₀, mem₀, typed⟩ := exists_of_forall₂ all mem
  have raw := (built.functions f₀ listed₀).body code₀ defined₀ outer₀ mem₀
  exact Typing.expr_canonical raw typed e path

/-- **Narrow values stay in range.** Lowering puts the value of an expression into a register.
Whenever the machine of blocks gets to the code of the expression it follows its evaluation, and at
the end of the code the register has the value, in the signed range of the type of the expression:
unless the expression passes on an enumeration constant that is beyond the range of an `int`. -/
theorem narrow_in_range {source : Source} {tokens : List Lexed} {p q : Program}
    {implicitDecls : Bool} {f : Function} {code : Stmt}
    (parsed : Program.parse source tokens = .ok p) (typed : Typing.program implicitDecls p = .ok q)
    (listed : f ∈ q.functions) (defined : f.body = some code) :
    ∃ g params built, Ir.lowerFunction q.structs f code = some g ∧
      Ir.Lowering.body ⟨q.structs, f⟩ code {} = some (params, built) ∧ g.blocks = built.blocks ∧
      ∀ e, code.HasExpr e →
        (∀ n ∈ e.passed, n ∈ Program.constants source tokens → Typing.fitsInt n) →
        ∀ r b b', Ir.Lowering.expr ⟨q.structs, f⟩ .value e b = some (r, b') → b'.Grows built →
        ∀ host base c k, b.isOpen → c.pc = b.code.length → (Ir.machine host base g).Follows 0 k c
            (Tree.expr ⟨host, q.structs, f.locals, base⟩ .value e c.world) fun v d =>
              d.pc = b'.code.length ∧ d.regs r = v ∧ Word.fits (.ofType e.ty) (d.regs r).toInt := by
  have formed := Typing.program_formed (Program.parse_scoped parsed) typed f listed code defined
  obtain ⟨params, built, made, -, -, -, paid, -⟩ := Ir.Lowering.body_made ⟨q.structs, f⟩ formed
  obtain ⟨g, lowered, blocks⟩ : ∃ g, Ir.lowerFunction q.structs f code = some g ∧
      g.blocks = built.blocks := ⟨_, by rw [Ir.lowerFunction, made]; rfl, rfl⟩
  refine ⟨g, params, built, lowered, made, blocks, ?_⟩
  intro e has fits r b b' lowered grows host base c k isOpen here
  have inner : e.Formed f.locals.length := by
    obtain ⟨outer, mem, path⟩ := has
    exact (Stmt.formed_exprs code formed.formed outer mem).contains path
  have within := (Ir.Lowering.within_of_owed blocks paid).mono grows
  have extended := canonical_of_hasExpr parsed typed listed defined has
    ⟨host, q.structs, f.locals, base⟩ fits
  have follows : (Ir.machine host base g).Follows 0 k c
      (Tree.expr ⟨host, q.structs, f.locals, base⟩ .value e c.world) (Computed b c b' r) :=
    Ir.Lowering.expr_follows e .value inner lowered within c k ⟨isOpen, here⟩
  cases result : Tree.expr ⟨host, q.structs, f.locals, base⟩ .value e c.world with
  | ok v w =>
    rw [result] at follows
    obtain ⟨n, d, least, steps, shown, computed⟩ := follows
    refine ⟨n, d, least, steps, shown, computed.here.pc, computed.value, ?_⟩
    rw [computed.value]
    exact extended c.world v w result
  | error stop w =>
    rw [result] at follows
    cases stop <;> exact follows

/-! ## Examples -/

/-- A program before and after typing, its first function and the first expression in its body. -/
structure Sample where
  p : Program
  q : Program
  f : Function
  code : Stmt
  e : Expr

def Source.sample? (source : Source) : Option Sample := do
  let p ← (Program.parse source source.tokens).toOption
  let q ← (Typing.program false p).toOption
  let f ← q.functions.head?
  let code ← f.body
  let e ← code.exprs.head?
  return ⟨p, q, f, code, e⟩

theorem Source.sample?_eq_some {source : Source} {x : Sample} (found : source.sample? = some x) :
    Program.parse source source.tokens = .ok x.p ∧ Typing.program false x.p = .ok x.q ∧
      x.f ∈ x.q.functions ∧ x.f.body = some x.code ∧ x.code.HasExpr x.e := by
  simp only [sample?, do_eq_some] at found
  obtain ⟨p, parsed, q, typed, f, first, code, defined, e, mem, same⟩ := found
  cases same
  exact ⟨eq_ok_of_toOption parsed, eq_ok_of_toOption typed, mem_of_mem_head? first, defined, e,
    mem_of_mem_head? mem, .refl⟩

def ranked : Source :=
  ⟨"e.c", "enum \x7b A = 7 \x7d; int f(char c) \x7b return c ? A : c + 1; \x7d"⟩

theorem sample?_ranked : ranked.sample?.map (fun x => (x.e.ty, x.e.passed)) = some (.int, [7]) := by
  decide +kernel

theorem narrow_in_range_ranked : ∃ x g params built, ranked.sample? = some x ∧ x.e.ty = .int ∧
    Ir.lowerFunction x.q.structs x.f x.code = some g ∧
    Ir.Lowering.body ⟨x.q.structs, x.f⟩ x.code {} = some (params, built) ∧
    ∀ r b b', Ir.Lowering.expr ⟨x.q.structs, x.f⟩ .value x.e b = some (r, b') → b'.Grows built →
      ∀ host base c k, b.isOpen → c.pc = b.code.length → (Ir.machine host base g).Follows 0 k c
          (Tree.expr ⟨host, x.q.structs, x.f.locals, base⟩ .value x.e c.world) fun v d =>
            d.pc = b'.code.length ∧ d.regs r = v ∧ Word.fits (.ofType x.e.ty) (d.regs r).toInt := by
  obtain ⟨x, found, same⟩ := Option.map_eq_some_iff.mp sample?_ranked
  obtain ⟨ty, passed⟩ := Prod.mk.inj same
  obtain ⟨parsed, typed, listed, defined, has⟩ := Source.sample?_eq_some found
  obtain ⟨g, params, built, lowered, made, -, all⟩ := narrow_in_range parsed typed listed defined
  refine ⟨x, g, params, built, found, ty, lowered, made, all x.e has fun n mem _ => ?_⟩
  rw [passed, mem_singleton] at mem
  rw [mem]
  decide

def giant : Source :=
  ⟨"e.c", "enum \x7b A = 3000000000 \x7d; int f() \x7b return A; \x7d"⟩

theorem sample?_giant : giant.sample?.map (fun x => (x.e.ty,
    (Ir.lowerFunction x.q.structs x.f x.code).map (·.instructions))) =
      some (.int, some [.imm ⟨0⟩ 3000000000, .ret (some ⟨0⟩)]) := by decide +kernel

/-- The constant is an `int`, and after one step it is in the register that the function returns. -/
theorem giant_out_of_range : ∃ x g, giant.sample? = some x ∧ x.e.ty = .int ∧
    Ir.lowerFunction x.q.structs x.f x.code = some g ∧
    ∀ host base regs w, ∃ d, (Ir.machine host base g).Steps 1 ⟨0, regs, w⟩ d ∧
      Ir.Returns g (some (d.regs ⟨0⟩)) d ∧ ¬ Word.fits (.ofType x.e.ty) (d.regs ⟨0⟩).toInt := by
  obtain ⟨x, found, same⟩ := Option.map_eq_some_iff.mp sample?_giant
  obtain ⟨ty, lowered⟩ := Prod.mk.inj same
  obtain ⟨g, lowered, instructions⟩ := Option.map_eq_some_iff.mp lowered
  refine ⟨x, g, found, ty, lowered, fun host base regs w => ?_⟩
  have fetch : g.instructions[0]? = some (.imm ⟨0⟩ 3000000000) := by rw [instructions]; rfl
  have ends : g.instructions[1]? = some (.ret (some ⟨0⟩)) := by rw [instructions]; rfl
  refine ⟨_, .one (Ir.step_eq_some (c := ⟨0, regs, w⟩) fetch rfl rfl), ⟨_, ends, rfl⟩, ?_⟩
  have beyond : ¬ Word.fits .dword (Int64.toBitVec 3000000000).toInt := by decide
  rw [ty]
  exact beyond

end MiniC
