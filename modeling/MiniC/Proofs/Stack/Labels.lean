import MiniC.Emit.Stack
import MiniC.Proofs.Computations
import MiniC.Proofs.Semantics.Flow
import MiniC.Proofs.Typing.Formed

/-!
# Labels of code on the machine stack

Every statement and expression that jumps takes a number of its own for its labels, and typing
has numbered the case labels. So no label of a function is set twice, and a jump leads to the one
line that it means.
-/

namespace MiniC.Emit

open Asm List

theorem distinct_functionHead {name : String} {isStatic : Bool} {code : List Line}
    (distinct : Distinct code) (inner : ∀ symbol, code.count (.label (.symbol symbol)) = 0) :
    Distinct (functionHead name isStatic ++ code) := by
  intro label
  have head : (functionHead name isStatic).count (.label label) =
      [Line.label (.symbol name)].count (.label label) := by
    unfold functionHead visibility
    split <;> simp
  rw [count_append, head]
  by_cases same : label = .symbol name
  · subst same
    simp [inner name]
  · have other : [Line.label (.symbol name)].count (.label label) = 0 := by
      simp [count_eq_zero, same]
    rw [other, Nat.zero_add]
    exact distinct label

end MiniC.Emit

namespace MiniC.Emit.Stack

open Asm List

@[simp] theorem fresh_eq_some {id i i' : Nat} : fresh i = some (id, i') ↔ i = id ∧ i + 1 = i' := by
  change some (i, i + 1) = some (id, i') ↔ _
  rw [Option.some.injEq, Prod.mk.injEq]

/-! ## Numbers of labels -/

/-- The labels of code are set once each, and all of them are of some kind. -/
structure Marked (ctx : Context) (kind : Spot → Prop) (code : Code) : Prop where
  once : Distinct code
  own : ∀ label, 0 < code.count (.label label) → ∃ spot, label = ctx.label spot ∧ kind spot

def number : Spot → Option Nat
  | .otherwise id | .done id | .start id | .again id | .short id => some id
  | .ret | .case _ | .block _ => none

def Between (lo hi : Nat) (cases : List Nat) (spot : Spot) : Prop :=
  (∃ id, number spot = some id ∧ lo ≤ id ∧ id < hi) ∨ ∃ n ∈ cases, spot = .case n

/-- Code whose labels have the numbers from `lo` to `hi`, apart from its case labels. -/
structure Numbered (ctx : Context) (lo hi : Nat) (cases : List Nat) (code : Code) : Prop where
  le : lo ≤ hi
  marked : Marked ctx (Between lo hi cases) code

variable {ctx : Context} {lo mid hi : Nat} {cases cases' : List Nat} {code code' code'' : Code}
  {kind kind' : Spot → Prop}

theorem Marked.mono (h : Marked ctx kind code) (wider : ∀ spot, kind spot → kind' spot) :
    Marked ctx kind' code := by
  refine ⟨h.once, fun label pos => ?_⟩
  obtain ⟨spot, same, found⟩ := h.own label pos
  exact ⟨spot, same, wider spot found⟩

theorem Marked.join (first : Marked ctx kind code) (rest : Marked ctx kind' code')
    (apart : ∀ spot, kind spot → ¬ kind' spot)
    (count : ∀ label, code''.count (.label label) =
      code.count (.label label) + code'.count (.label label)) :
    Marked ctx (fun spot => kind spot ∨ kind' spot) code'' := by
  refine ⟨fun label => ?_, fun label pos => ?_⟩
  · rw [count]
    by_contra twice
    have h := first.once label
    have h' := rest.once label
    obtain ⟨spot, same, here⟩ := first.own label (by omega)
    obtain ⟨spot', same', there⟩ := rest.own label (by omega)
    cases same.symm.trans same'
    exact apart spot here there
  · rw [count] at pos
    rcases Nat.add_pos_iff_pos_or_pos.mp pos with pos | pos
    · obtain ⟨spot, same, here⟩ := first.own label pos
      exact ⟨spot, same, .inl here⟩
    · obtain ⟨spot, same, there⟩ := rest.own label pos
      exact ⟨spot, same, .inr there⟩

theorem Marked.spots {spots : List Spot} (distinct : spots.Nodup) :
    Marked ctx (· ∈ spots) (spots.map ctx.mark) := by
  have injective : Function.Injective ctx.mark := by
    intro a b h
    cases h
    rfl
  refine ⟨fun label => nodup_iff_count_le_one.mp (distinct.map injective) _, fun label pos => ?_⟩
  obtain ⟨spot, mem, same⟩ := mem_map.mp (count_pos_iff.mp pos)
  cases same
  exact ⟨spot, rfl, mem⟩

namespace Numbered

theorem plain (count : ∀ label, code.count (.label label) = 0) : Numbered ctx lo lo [] code := by
  refine ⟨Nat.le_refl lo, fun label => ?_, fun label pos => ?_⟩
  · rw [count]
    exact Nat.zero_le 1
  · rw [count] at pos
    cases pos

theorem congr (h : Numbered ctx lo hi cases code)
    (same : ∀ label, code'.count (.label label) = code.count (.label label)) :
    Numbered ctx lo hi cases code' := by
  refine ⟨h.le, fun label => ?_, fun label pos => ?_⟩
  · rw [same]
    exact h.marked.once label
  · rw [same] at pos
    exact h.marked.own label pos

theorem append (first : Numbered ctx lo mid cases code) (rest : Numbered ctx mid hi cases' code')
    (distinct : (cases ++ cases').Nodup) : Numbered ctx lo hi (cases ++ cases') (code ++ code') := by
  have le := first.le
  have le' := rest.le
  refine ⟨le.trans le', (first.marked.join rest.marked ?_ fun _ => count_append).mono ?_⟩
  · rintro spot (⟨id, known, -, lt⟩ | ⟨n, mem, rfl⟩) (⟨id', known', above, -⟩ | ⟨n', mem', same⟩)
    · cases known.symm.trans known'
      omega
    · subst same
      cases known
    · cases known'
    · cases same
      exact disjoint_of_nodup_append distinct mem mem'
  · rintro spot ((⟨id, known, above, lt⟩ | ⟨n, mem, rfl⟩) | (⟨id, known, above, lt⟩ | ⟨n, mem, rfl⟩))
    · exact .inl ⟨id, known, above, by omega⟩
    · exact .inr ⟨n, mem_append_left _ mem, rfl⟩
    · exact .inl ⟨id, known, by omega, lt⟩
    · exact .inr ⟨n, mem_append_right _ mem, rfl⟩

theorem fresh (spots : List Spot) (numbered : ∀ spot ∈ spots, number spot = some lo)
    (distinct : spots.Nodup) (h : Numbered ctx (lo + 1) hi cases code)
    (count : ∀ label, code'.count (.label label) =
      (spots.map ctx.mark).count (.label label) + code.count (.label label)) :
    Numbered ctx lo hi cases code' := by
  have le := h.le
  refine ⟨by omega, ((Marked.spots distinct).join h.marked ?_ count).mono ?_⟩
  · rintro spot mem (⟨id, known, above, -⟩ | ⟨n, -, rfl⟩)
    · cases (numbered spot mem).symm.trans known
      omega
    · cases numbered _ mem
  · rintro spot (mem | (⟨id, known, above, lt⟩ | found))
    · exact .inl ⟨lo, numbered spot mem, Nat.le_refl lo, le⟩
    · exact .inl ⟨id, known, by omega, lt⟩
    · exact .inr found

theorem case {n : Nat} (h : Numbered ctx lo hi cases code) (new : n ∉ cases) :
    Numbered ctx lo hi (n :: cases) (ctx.mark (.case n) :: code) := by
  have only : [Spot.case n].Nodup := nodup_singleton _
  refine ⟨h.le, ((Marked.spots only).join h.marked ?_ fun _ => ?_).mono ?_⟩
  · rintro spot mem (⟨id, known, -⟩ | ⟨n', mem', same⟩)
    · cases mem_singleton.mp mem
      cases known
    · cases mem_singleton.mp mem
      cases same
      exact new mem'
  · rw [← count_append]
    rfl
  · rintro spot (mem | (found | ⟨n', mem, rfl⟩))
    · cases mem_singleton.mp mem
      exact .inr ⟨n, mem_cons_self, rfl⟩
    · exact .inl found
    · exact .inr ⟨n', mem_cons_of_mem _ mem, rfl⟩

end Numbered

/-! ## Expressions and statements -/

section Plain

variable (label : Label)

@[simp] theorem count_code (i : Instruction) (code : Code) :
    List.count (.label label) (.code i :: code) = code.count (.label label) := by
  simp

@[simp] theorem count_access (want : Want) (ty : CType) :
    (access want ty).count (.label label) = 0 := by
  unfold access
  split
  · rfl
  · split <;> simp

@[simp] theorem count_extend (width : Width) : (extend width).count (.label label) = 0 := by
  unfold extend
  split <;> simp

theorem count_binary {op : BinOp} {width : Width} {code : Code} (made : binary op width = some code) :
    code.count (.label label) = 0 := by
  cases op <;> cases made <;> simp [alu, divide, shift, compare, boolean]

@[simp] theorem count_unary (op : UnOp) (width : Width) :
    (unary op width).count (.label label) = 0 := by
  cases op <;> simp [unary, test, boolean]

@[simp] theorem count_call (name : String) (count depth : Nat) (ty : CType) :
    (call name count depth ty).count (.label label) = 0 := by
  rw [count_eq_zero]
  intro mem
  unfold call extend at mem
  simp only [mem_append, mem_map] at mem
  split at mem <;> split at mem <;> simp at mem

@[simp] theorem count_dispatch (cases : List CaseLabel) :
    (dispatch ctx cases).count (.label label) = 0 := by
  induction cases with
  | nil => rfl
  | cons case rest ih =>
    obtain ⟨value, n⟩ := case
    cases value <;> simp [dispatch, Context.jumpIf, ih]

@[simp] theorem count_leaveTo (spot : Option Spot) : (leaveTo ctx spot).count (.label label) = 0 := by
  cases spot <;> simp [leaveTo, Context.jump]

end Plain

mutual
/-- The labels of an expression have numbers of its own. -/
theorem expr_numbered : (e : Expr) → ∀ {depth : Nat} {want : Want} {lo hi : Nat} {code : Code},
    expr ctx depth want e lo = some (code, hi) → Numbered ctx lo hi [] code
  | .num .., _, _, _, _, _, made | .sizeof .., _, _, _, _, _, made => by
    obtain ⟨rfl, rfl⟩ := pure_eq_some.mp made
    exact .plain fun _ => by simp [constant]
  | .str .., _, _, _, _, _, made | .global .., _, _, _, _, _, made => by
    obtain ⟨rfl, rfl⟩ := pure_eq_some.mp made
    exact .plain fun _ => by simp
  | .var .., _, _, _, _, _, made => by
    simp only [expr, bind_eq_some, lift_eq_some, pure_eq_some] at made
    obtain ⟨v, _, ⟨-, rfl⟩, rfl, rfl⟩ := made
    exact .plain fun _ => by simp
  | .deref _ operand, _, _, _, _, _, made | .unary _ _ operand, _, _, _, _, _, made
  | .cast _ _ operand, _, _, _, _, _, made => by
    obtain ⟨a, inner, rfl⟩ := map_eq_some.mp made
    exact (expr_numbered operand inner).congr fun _ => by simp [count_append]
  | .member _ base _ offset, _, _, _, _, _, made => by
    obtain ⟨a, inner, rfl⟩ := map_eq_some.mp made
    refine (expr_numbered base inner).congr fun _ => ?_
    split <;> simp [count_append]
  | .binary _ op _ lhs rhs, _, _, lo, _, _, made => by
    rw [expr] at made
    split at made
    · simp only [bind_eq_some, fresh_eq_some, pure_eq_some] at made
      obtain ⟨_, _, ⟨rfl, rfl⟩, a, _, madeL, b, _, madeR, rfl, rfl⟩ := made
      refine .fresh [.short lo, .done lo] (by simp [number]) (by simp)
        ((expr_numbered lhs madeL).append (expr_numbered rhs madeR) nodup_nil) fun _ => ?_
      simp [count_append, count_cons, test, constant, Context.jumpIf, Context.jump]
      omega
    · simp only [bind_eq_some, lift_eq_some, pure_eq_some] at made
      obtain ⟨a, _, madeL, b, _, madeR, c, _, ⟨known, rfl⟩, rfl, rfl⟩ := made
      refine ((expr_numbered lhs madeL).append (expr_numbered rhs madeR) nodup_nil).congr
        fun label => ?_
      simp [count_append, count_binary label known]
  | .assign _ lhs rhs, _, _, _, _, _, made | .comma _ lhs rhs, _, _, _, _, _, made => by
    simp only [expr, bind_eq_some, pure_eq_some] at made
    obtain ⟨a, _, madeL, b, _, madeR, rfl, rfl⟩ := made
    refine ((expr_numbered lhs madeL).append (expr_numbered rhs madeR) nodup_nil).congr
      fun label => ?_
    simp [count_append]
  | .cond _ question yes no, _, _, lo, _, _, made => by
    simp only [expr, bind_eq_some, fresh_eq_some, pure_eq_some] at made
    obtain ⟨_, _, ⟨rfl, rfl⟩, a, _, madeQ, b, _, madeY, c, _, madeN, rfl, rfl⟩ := made
    refine .fresh [.otherwise lo, .done lo] (by simp [number]) (by simp)
      (((expr_numbered question madeQ).append (expr_numbered yes madeY) nodup_nil).append
        (expr_numbered no madeN) nodup_nil) fun _ => ?_
    simp [count_append, count_cons, test, Context.jumpIf, Context.jump]
    omega
  | .addr _ operand, _, _, _, _, _, made => expr_numbered operand made
  | .call _ _ args, _, _, _, _, _, made => by
    obtain ⟨a, inner, rfl⟩ := map_eq_some.mp made
    exact (arguments_numbered args inner).congr fun _ => by simp [count_append]
  | .update .., _, _, _, _, _, made => by cases made
theorem arguments_numbered : (args : List Expr) → ∀ {depth lo hi : Nat} {code : Code},
    arguments ctx depth args lo = some (code, hi) → Numbered ctx lo hi [] code
  | [], _, _, _, _, made => by
    obtain ⟨rfl, rfl⟩ := pure_eq_some.mp made
    exact .plain fun _ => rfl
  | arg :: args, _, _, _, _, made => by
    simp only [arguments, bind_eq_some, pure_eq_some] at made
    obtain ⟨a, _, madeA, b, _, madeR, rfl, rfl⟩ := made
    refine ((expr_numbered arg madeA).append (arguments_numbered args madeR) nodup_nil).congr
      fun label => ?_
    simp [count_append]
end

theorem condition_numbered {e : Expr} {spot : Spot} (made : condition ctx e spot lo = some (code, hi)) :
    Numbered ctx lo hi [] code := by
  obtain ⟨a, inner, rfl⟩ := map_eq_some.mp made
  exact (expr_numbered e inner).congr fun _ => by
    simp [count_append, test, Context.jumpIf]

theorem optional_numbered {emit : Expr → Labelled Code} {e : Option Expr}
    (each : ∀ {e lo hi code}, emit e lo = some (code, hi) → Numbered ctx lo hi [] code)
    (made : optional emit e lo = some (code, hi)) : Numbered ctx lo hi [] code := by
  cases e with
  | none =>
    obtain ⟨rfl, rfl⟩ := pure_eq_some.mp made
    exact .plain fun _ => rfl
  | some e => exact each made

theorem labelled_numbered {label : Option Nat} {numbers : List Nat}
    (distinct : (label.toList ++ numbers).Nodup) (h : Numbered ctx lo hi numbers code) :
    Numbered ctx lo hi (label.toList ++ numbers)
      ((label.map fun label => ctx.mark (.case label)).toList ++ code) := by
  cases label with
  | none => exact h
  | some n => exact h.case (nodup_cons.mp distinct).1

mutual
/-- The labels of a statement have numbers of its own, apart from its cases. -/
theorem stmt_numbered : (s : Stmt) → s.numbers.Nodup → ∀ {targets : Targets} {lo hi : Nat} {code : Code},
    stmt ctx targets s lo = some (code, hi) → Numbered ctx lo hi s.numbers code
  | .expr _ e, _, _, _, _, _, made => expr_numbered e made
  | .ret _ e, _, _, _, _, _, made => by
    obtain ⟨a, inner, rfl⟩ := map_eq_some.mp made
    exact (optional_numbered (fun h => expr_numbered _ h) inner).congr fun _ => by
      simp [count_append, Context.jump]
  | .branch _ test yes no, distinct, _, lo, _, _, made => by
    simp only [stmt, bind_eq_some, fresh_eq_some, pure_eq_some] at made
    obtain ⟨_, _, ⟨rfl, rfl⟩, a, _, madeC, b, _, madeY, c, _, madeN, rfl, rfl⟩ := made
    have parts := nodup_append.mp distinct
    refine .fresh [.otherwise lo, .done lo] (by simp [number]) (by simp)
      (((condition_numbered madeC).append (stmt_numbered yes parts.1 madeY) parts.1).append
        (optionalStmt_numbered no parts.2.1 madeN) distinct) fun _ => ?_
    simp [count_append, count_cons, Context.jump]
    omega
  | .whileLoop _ test body, distinct, _, lo, _, _, made => by
    simp only [stmt, bind_eq_some, fresh_eq_some, pure_eq_some] at made
    obtain ⟨_, _, ⟨rfl, rfl⟩, a, _, madeC, b, _, madeB, rfl, rfl⟩ := made
    refine .fresh [.start lo, .done lo] (by simp [number]) (by simp)
      ((condition_numbered madeC).append (stmt_numbered body distinct madeB) distinct) fun _ => ?_
    simp [count_append, count_cons, Context.jump]
    omega
  | .doLoop _ body test, distinct, _, lo, _, _, made => by
    simp only [stmt, value, bind_eq_some, fresh_eq_some, pure_eq_some] at made
    obtain ⟨_, _, ⟨rfl, rfl⟩, a, _, madeB, b, _, madeC, rfl, rfl⟩ := made
    have inner := (stmt_numbered body distinct madeB).append (expr_numbered test madeC)
      (by rwa [append_nil])
    rw [append_nil] at inner
    refine .fresh [.start lo, .again lo, .done lo] (by simp [number]) (by simp) inner fun _ => ?_
    simp [count_append, count_cons, Stack.test, Context.jumpIf]
    omega
  | .forLoop _ init test step body, distinct, _, lo, _, _, made => by
    simp only [stmt, bind_eq_some, fresh_eq_some, pure_eq_some] at made
    obtain ⟨_, _, ⟨rfl, rfl⟩, a, _, madeI, b, _, madeC, c, _, madeB, d, _, madeS, rfl, rfl⟩ := made
    have parts := nodup_append.mp distinct
    have first := (optionalStmt_numbered init parts.1 madeI).append
      (optional_numbered condition_numbered madeC) (by rw [append_nil]; exact parts.1)
    rw [append_nil] at first
    have inner := (first.append (stmt_numbered body parts.2.1 madeB) distinct).append
      (optional_numbered (fun h => expr_numbered _ h) madeS) (by rwa [append_nil])
    rw [append_nil] at inner
    refine .fresh [.start lo, .again lo, .done lo] (by simp [number]) (by simp) inner fun _ => ?_
    simp [count_append, count_cons, Context.jump]
    omega
  | .switch _ e body labels, distinct, _, lo, _, _, made => by
    simp only [stmt, value, bind_eq_some, fresh_eq_some, pure_eq_some] at made
    obtain ⟨_, _, ⟨rfl, rfl⟩, a, _, madeE, b, _, madeB, rfl, rfl⟩ := made
    refine .fresh [.done lo] (by simp [number]) (by simp)
      ((expr_numbered e madeE).append (stmt_numbered body distinct madeB) distinct) fun _ => ?_
    simp [count_append, count_cons, Context.jump]
    omega
  | .case _ _ label body, distinct, _, _, _, _, made
  | .default _ label body, distinct, _, _, _, _, made => by
    obtain ⟨a, inner, rfl⟩ := map_eq_some.mp made
    exact labelled_numbered distinct (stmt_numbered body (nodup_append.mp distinct).2.1 inner)
  | .exit _, _, _, _, _, _, made | .next _, _, _, _, _, _, made | .null _, _, _, _, _, _, made => by
    obtain ⟨rfl, rfl⟩ := pure_eq_some.mp made
    exact .plain fun _ => by simp
  | .block _ body, distinct, _, _, _, _, made => stmts_numbered body distinct made
theorem optionalStmt_numbered : (s : Option Stmt) → (Stmt.optionalNumbers s).Nodup →
    ∀ {targets : Targets} {lo hi : Nat} {code : Code}, optionalStmt ctx targets s lo = some (code, hi) →
      Numbered ctx lo hi (Stmt.optionalNumbers s) code
  | none, _, _, _, _, _, made => by
    obtain ⟨rfl, rfl⟩ := pure_eq_some.mp made
    exact .plain fun _ => rfl
  | some s, distinct, _, _, _, _, made => stmt_numbered s distinct made
theorem stmts_numbered : (body : List Stmt) → (Stmt.allNumbers body).Nodup →
    ∀ {targets : Targets} {lo hi : Nat} {code : Code}, stmts ctx targets body lo = some (code, hi) →
      Numbered ctx lo hi (Stmt.allNumbers body) code
  | [], _, _, _, _, _, made => by
    obtain ⟨rfl, rfl⟩ := pure_eq_some.mp made
    exact .plain fun _ => rfl
  | s :: rest, distinct, _, _, _, _, made => by
    simp only [stmts, bind_eq_some, pure_eq_some] at made
    obtain ⟨a, _, madeS, b, _, madeR, rfl, rfl⟩ := made
    have parts := nodup_append.mp distinct
    exact (stmt_numbered s parts.1 madeS).append (stmts_numbered rest parts.2.1 madeR) distinct
end

/-! ## Functions -/

def spillLine (f : Function) (x : Nat × Reg) : Option Line := do
  let v ← f.locals[x.1]?
  return .code (.store (.ofType v.ty) (.frame v.offset) x.2)

variable {f : Function} {σ : Structs} {body : Stmt}

theorem prologue_eq_some (made : prologue f = some code) :
    ∃ spills frame, (f.params.zip Reg.arguments).mapM (spillLine f) = some spills ∧
      frame = (if f.stackSize > 0 then
        [.code (.alu .sub .qword .rsp (.imm (.ofNat f.stackSize.toNat)))] else []) ∧
      code = [.code (.push .rbp), .code (.mov .qword .rbp (.reg .rsp))] ++ frame ++ spills := by
  obtain ⟨spills, stored, same⟩ := Option.bind_eq_some_iff.mp made
  cases same
  exact ⟨spills, _, stored, rfl, rfl⟩

theorem exists_of_mem_spills {line : Line} {params : List (Nat × Reg)} :
    ∀ {spills : Code}, params.mapM (spillLine f) = some spills → line ∈ spills →
      ∃ width offset reg, line = .code (.store width (.frame offset) reg) := by
  induction params with
  | nil =>
    intro spills made mem
    cases made
    cases mem
  | cons x rest ih =>
    intro spills made mem
    simp only [mapM_cons, spillLine, do_eq_some] at made
    obtain ⟨_, ⟨v, -, same⟩, others, made, last⟩ := made
    cases same
    cases last
    rcases mem_cons.mp mem with rfl | mem
    · exact ⟨_, _, _, rfl⟩
    · exact ih made mem

theorem count_prologue (made : prologue f = some code) (label : Label) :
    code.count (.label label) = 0 := by
  obtain ⟨spills, frame, stored, rfl, rfl⟩ := prologue_eq_some made
  have spilled : spills.count (.label label) = 0 := by
    refine count_eq_zero.mpr fun mem => ?_
    obtain ⟨_, _, _, same⟩ := exists_of_mem_spills stored mem
    cases same
  split <;> simp [spilled]

theorem function_eq_some (made : function σ f body = some code) :
    ∃ head lines last, prologue f = some head ∧ stmt ⟨σ, f⟩ {} body 0 = some (lines, last) ∧
      code = functionHead f.name f.isStatic ++ head ++ lines ++
        [constant 0, Context.mark ⟨σ, f⟩ .ret, .code .leave, .code .ret] := by
  obtain ⟨head, first, rest⟩ := Option.bind_eq_some_iff.mp made
  obtain ⟨lines, ran, same⟩ := Option.bind_eq_some_iff.mp rest
  obtain ⟨⟨lines', last⟩, emitted, rfl⟩ := Option.map_eq_some_iff.mp ran
  cases same
  exact ⟨head, _, last, first, emitted, rfl⟩

theorem function_marked (made : function σ f body = some code) (distinct : body.numbers.Nodup) :
    ∃ rest, code = functionHead f.name f.isStatic ++ rest ∧ Marked ⟨σ, f⟩ (fun _ => True) rest := by
  obtain ⟨head, lines, last, first, ran, rfl⟩ := function_eq_some made
  have numbered := (stmt_numbered body distinct ran).marked
  have returns : [Spot.ret].Nodup := nodup_singleton _
  have inner : Marked ⟨σ, f⟩ (fun spot => spot ∈ [.ret] ∨ Between 0 last body.numbers spot)
      (head ++ lines ++ [constant 0, Context.mark ⟨σ, f⟩ .ret, .code .leave, .code .ret]) := by
    refine (Marked.spots returns).join numbered ?_ fun label => ?_
    · rintro spot mem (⟨id, known, -⟩ | ⟨n, -, same⟩)
      · cases mem_singleton.mp mem
        cases known
      · cases mem_singleton.mp mem
        cases same
    · simp [count_append, count_prologue first, constant, count_cons]
      omega
  exact ⟨_, by simp only [append_assoc], inner.mono fun _ _ => trivial⟩

theorem function_distinct (made : function σ f body = some code)
    (distinct : body.numbers.Nodup) : Distinct code := by
  obtain ⟨rest, rfl, inner⟩ := function_marked made distinct
  refine distinct_functionHead inner.once fun name => ?_
  by_contra found
  obtain ⟨spot, same, -⟩ := inner.own _ (Nat.pos_of_ne_zero found)
  cases same

end MiniC.Emit.Stack
