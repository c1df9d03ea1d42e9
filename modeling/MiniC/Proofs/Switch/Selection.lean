import MiniC.Proofs.Labels.Jumps
import MiniC.Proofs.Lowering.Preservation
import MiniC.Proofs.Stack.Dispatch

/-!
# A `switch` selects its case

Typing collects the cases of a `switch`, and both kinds of code find the statement of a case again by
its number: blocks through the block that a number has, code on the machine stack through a label
made of the number. The result (`switch_selects`) is about every `switch` of every typed function.
Its list of cases is that of its case and default statements; and from where the value of its
condition has been computed, the comparisons get to the code of the statement that the value
selects, or behind the `switch` if it selects none.

A statement inside a function has its own place in the code. On the way down to it (`child_lowered`,
`child_emitted`) the statements before it do not touch the blocks of its numbers, for numbers are
different everywhere in a function.
-/

namespace MiniC.Ir.Lowering

open Build List

variable {ctx : Context} {f : Function} {built b b' : Build} {u : Unit} {s t : Stmt}
  {targets : Targets} {inside : Typing.Inside}

/-! ## Blocks -/

/-- The code of a case or default statement goes on at an instruction: the block that its label has
in a table begins there, and the statement, lowered on the way to `built`, opens that block. -/
def Starts (ctx : Context) (f : Function) (built : Build) (table : List (Nat × BlockId)) (t : Stmt)
    (pc : Nat) : Prop :=
  ∃ l id, t.label? = some l ∧ table.lookup l.label = some id ∧ f.entry id = some pc ∧
    ∃ targets c c', stmt ctx targets t c = some ((), c') ∧ c'.Grows built ∧
      startCase (some l.label) c = some ((), c.start id) ∧ (c.start id).code.length = pc

/-- The comparisons of a `switch` in blocks get, from the value of its condition, to the statement
that the value selects, in the block that they gave to its label, or behind the `switch`. -/
def Selects (ctx : Context) (f : Function) (built : Build) (loc : Location) (e : Expr) (body : Stmt)
    (cases : List CaseLabel) : Prop :=
  ∃ targets b b' r b₁ target b₂, stmt ctx targets (.switch loc e body cases) b = some ((), b') ∧
    b'.Grows built ∧ value ctx e b = some (r, b₁) ∧
    dispatch r ⟨b₁.nextBlock⟩ cases { b₁ with nextBlock := b₁.nextBlock + 1 } = some (target, b₂) ∧
    ∀ (host : Host) (base : Word) (c : Config), c.pc = b₁.code.length →
      ∃ n d, (machine host base f).Steps n c d ∧ d.world = c.world ∧
        (body.selected (c.regs r)).elim (d.pc = b'.code.length) (Starts ctx f built b₂.cases · d.pc)

theorem cases_enter (b : Build) (label : Option Nat) : (b.enter label).cases = b.cases := by
  unfold Build.enter
  cases label.bind (b.cases.lookup ·) with
  | none => rfl
  | some id => exact cases_start b id

theorem element_lowered (targets : Targets) (body : List Stmt) : ∀ {b : Build},
    Stmt.AllFormed ctx.function.locals.length inside body → (Stmt.allNumbers body).Nodup →
    stmts ctx targets body b = some (u, b') → t ∈ body →
    ∃ c u' c', stmt ctx targets t c = some (u', c') ∧ c'.Grows b' ∧
      ∀ n ∈ t.numbers, c.cases.lookup n = b.cases.lookup n := by
  induction body with
  | nil =>
    intro b _ _ _ mem
    cases mem
  | cons s rest ih =>
    intro b formed distinct made mem
    simp only [stmts, bind_eq_some] at made
    obtain ⟨_, b₁, madeS, madeR⟩ := made
    have parts := nodup_append.mp distinct
    obtain ⟨grows, -⟩ := (stmts_made rest targets formed.2 parts.2.1 b₁).of_eq_some madeR
    rcases mem_cons.mp mem with rfl | mem
    · exact ⟨b, _, b₁, madeS, grows, fun _ _ => rfl⟩
    · obtain ⟨c, u', c', lowered, grows, same⟩ := ih formed.2 parts.2.1 madeR mem
      obtain ⟨-, placed⟩ := (stmt_made s targets formed.1 parts.1 b).of_eq_some madeS
      refine ⟨c, u', c', lowered, grows, fun n numbered => ?_⟩
      rw [same n numbered]
      refine placed.cases n fun earlier => disjoint_of_nodup_append distinct earlier ?_
      exact (Stmt.numbers_sublist_of_mem mem).subset numbered

/-- A part of a statement is lowered on the way, with the blocks of its numbers as before. -/
theorem child_lowered (formed : s.Formed ctx.function.locals.length inside)
    (distinct : s.numbers.Nodup) (made : stmt ctx targets s b = some (u, b'))
    (mem : t ∈ s.children) :
    ∃ targets' c u' c', stmt ctx targets' t c = some (u', c') ∧ c'.Grows b' ∧
      ((∀ note e body cases, s ≠ .switch note e body cases) →
        ∀ n ∈ t.numbers, c.cases.lookup n = b.cases.lookup n) := by
  cases s with
  | expr | ret | exit | next | null => cases mem
  | branch _ test yes no =>
    cases no with
    | none =>
      cases mem_singleton.mp mem
      simp only [stmt, bind_eq_some, newBlock_bind, start_bind, start_eq_some] at made
      obtain ⟨_, b₁, madeB, _, b₂, madeY, rfl⟩ := made
      obtain ⟨-, quiet⟩ := (branch_quiet formed.1 _ _ _).of_eq_some madeB
      exact ⟨_, _, _, b₂, madeY, .single (.start _ _), fun _ n _ => by simp [quiet.cases]⟩
    | some no =>
      simp only [stmt, bind_eq_some, newBlock_bind, start_bind, start_eq_some, emit_bind] at made
      obtain ⟨_, b₁, madeB, _, b₂, madeY, _, b₃, madeN, rfl⟩ := made
      have parts := nodup_append.mp distinct
      obtain ⟨-, quiet⟩ := (branch_quiet formed.1 _ _ _).of_eq_some madeB
      obtain ⟨-, placed⟩ := (stmt_made yes targets formed.2.1 parts.1 _).of_eq_some madeY
      obtain ⟨growsN, -⟩ := (stmt_made no targets formed.2.2 parts.2.1 _).of_eq_some madeN
      rcases mem_cons.mp mem with rfl | mem
      · exact ⟨_, _, _, b₂, madeY, .head (.emit _ (by trivial)) (.head (.start _ _)
          (growsN.tail (.start _ _))),
          fun _ n _ => by simp [quiet.cases]⟩
      · cases mem_singleton.mp mem
        refine ⟨_, _, _, b₃, madeN, .single (.start _ _), fun _ n numbered => ?_⟩
        rw [cases_start, cases_emit, placed.cases n fun earlier =>
          disjoint_of_nodup_append distinct earlier numbered]
        simp [quiet.cases]
  | whileLoop _ test body =>
    cases mem_singleton.mp mem
    simp only [stmt, bind_eq_some, newBlock_bind, start_bind, start_eq_some, emit_bind] at made
    obtain ⟨_, b₁, madeB, _, b₂, madeR, rfl⟩ := made
    obtain ⟨-, quiet⟩ := (branch_quiet formed.1 _ _ _).of_eq_some madeB
    exact ⟨_, _, _, b₂, madeR, .head (.emit _ (by trivial)) (.single (.start _ _)),
      fun _ n _ => by simp [quiet.cases]⟩
  | doLoop _ body test =>
    cases mem_singleton.mp mem
    simp only [stmt, bind_eq_some, newBlock_bind, start_bind, start_eq_some] at made
    obtain ⟨_, b₁, madeR, _, b₂, madeB, rfl⟩ := made
    obtain ⟨growsB, -⟩ := (branch_quiet formed.1 _ _ _).of_eq_some madeB
    exact ⟨_, _, _, b₁, madeR, .head (.start _ _) (growsB.tail (.start _ _)), fun _ n _ => by simp⟩
  | forLoop _ init test step body =>
    simp only [stmt_forLoop, bind_eq_some, newBlock_bind, start_bind, start_eq_some, emit_bind] at made
    obtain ⟨_, b₁, madeI, _, b₂, madeB, _, b₃, madeR, _, b₄, madeS, rfl⟩ := made
    have parts := nodup_append.mp distinct
    obtain ⟨-, placed⟩ := (optionalStmt_made init targets formed.1 parts.1 b).of_eq_some madeI
    obtain ⟨growsB, quiet⟩ := (optionalBranch_quiet formed.2.1 _ _ _).of_eq_some madeB
    obtain ⟨growsR, -⟩ := (stmt_made body _ formed.2.2.2 parts.2.1 _).of_eq_some madeR
    obtain ⟨growsS, -⟩ := (effect_quiet formed.2.2.1 _).of_eq_some madeS
    have ends : ∀ id, b₃.Grows ((b₄.emit (.jump ⟨b₁.nextBlock⟩)).start id) := fun id =>
      .head (.start _ _) ((growsS.tail (.emit _ (by trivial))).tail (.start _ id))
    rcases mem_append.mp mem with mem | mem
    · cases Option.mem_toList.mp mem
      refine ⟨_, b, _, b₁, madeI, ?_, fun _ n _ => rfl⟩
      refine .head (.block _) (.head (.block _) (.head (.block _) (.head (.block _) ?_)))
      exact .head (.start _ _) ((growsB.tail (.start _ _)).trans (growsR.trans (ends _)))
    · cases mem_singleton.mp mem
      refine ⟨_, _, _, b₃, madeR, ends _, fun _ n numbered => ?_⟩
      rw [cases_start, quiet.cases, cases_start]
      exact placed.cases n fun earlier => disjoint_of_nodup_append distinct earlier numbered
  | switch loc e body cases =>
    cases mem_singleton.mp mem
    simp only [stmt, bind_eq_some, newBlock_bind, start_eq_some, emit_bind] at made
    obtain ⟨r, b₁, madeE, target, b₂, madeD, _, b₃, madeR, rfl⟩ := made
    exact ⟨_, _, _, b₃, madeR, .single (.start _ _), fun other => absurd rfl (other _ _ _ _)⟩
  | case _ value label body | default _ label body =>
    cases mem_singleton.mp mem
    simp only [stmt, bind_eq_some, startCase_eq_some] at made
    obtain ⟨_, _, rfl, made⟩ := made
    exact ⟨_, _, _, b', made, .refl, fun _ n _ => by rw [cases_enter]⟩
  | block _ body =>
    obtain ⟨c, u', c', lowered, grows, same⟩ := element_lowered targets body formed distinct made mem
    exact ⟨_, c, u', c', lowered, grows, fun _ => same⟩

theorem contains_lowered (path : s.Contains t) (formed : s.Formed ctx.function.locals.length inside)
    (distinct : s.numbers.Nodup) (made : stmt ctx targets s b = some (u, b')) :
    ∃ targets' c u' c', stmt ctx targets' t c = some (u', c') ∧ c'.Grows b' := by
  induction path with
  | refl => exact ⟨targets, b, u, b', made, .refl⟩
  | tail path mem ih =>
    obtain ⟨targets', c, u', c', lowered, grows⟩ := ih
    obtain ⟨inside', formed'⟩ := formed.contains path
    have distinct' := (Stmt.numbers_sublist_of_contains path).nodup distinct
    obtain ⟨targets'', d, u'', d', lowered', grows', -⟩ := child_lowered formed' distinct' lowered mem
    exact ⟨targets'', d, u'', d', lowered', grows'.trans grows⟩

theorem entry_lowered (mem : t ∈ s.entries) (formed : s.Formed ctx.function.locals.length inside)
    (distinct : s.numbers.Nodup) (made : stmt ctx targets s b = some (u, b')) :
    ∃ targets' c u' c', stmt ctx targets' t c = some (u', c') ∧ c'.Grows b' ∧
      ∀ n ∈ t.numbers, c.cases.lookup n = b.cases.lookup n := by
  have path := Stmt.passes_of_mem_entries s mem
  clear mem
  induction path with
  | refl => exact ⟨targets, b, u, b', made, .refl, fun _ _ => rfl⟩
  | tail path passes ih =>
    obtain ⟨mem, other⟩ := passes
    have path := Stmt.contains_of_passes path
    obtain ⟨targets', c, u', c', lowered, grows, same⟩ := ih
    obtain ⟨inside', formed'⟩ := formed.contains path
    have distinct' := (Stmt.numbers_sublist_of_contains path).nodup distinct
    obtain ⟨targets'', d, u'', d', lowered', grows', same'⟩ :=
      child_lowered formed' distinct' lowered mem
    refine ⟨targets'', d, u'', d', lowered', grows'.trans grows, fun n numbered => ?_⟩
    rw [same' other n numbered]
    exact same n ((Stmt.numbers_sublist_of_mem_children mem).subset numbered)

/-- A case starts where the block of its label is entered. -/
theorem starts_of_entry {l : CaseLabel} {c c' : Build} {id : BlockId} {pc : Nat}
    (formed : t.Formed ctx.function.locals.length inside) (distinct : t.numbers.Nodup)
    (made : stmt ctx targets t c = some (u, c')) (grows : c'.Grows built) (within : Within built f)
    (labelled : t.label? = some l) {table : List (Nat × BlockId)}
    (listed : table.lookup l.label = some id) (kept : c.cases.lookup l.label = table.lookup l.label)
    (entry : f.entry id = some pc) : Starts ctx f built table t pc := by
  have same : c.enter (some l.label) = c.start id := by simp [enter, kept, listed]
  refine ⟨l, id, labelled, listed, entry, targets, c, c', made, grows,
    startCase_eq_some.mpr same, ?_⟩
  have opened : ∀ {n : Nat} {s : Stmt}, l.label = n → s.Formed ctx.function.locals.length inside →
      s.numbers.Nodup → stmt ctx targets s (c.enter (some n)) = some (u, c') →
      (c.start id).code.length = pc := by
    rintro _ s rfl formed distinct made
    rw [same] at made
    obtain ⟨grows', -⟩ := (stmt_made s targets formed distinct _).of_eq_some made
    have started := (within.mono (grows'.trans grows)).entry_start
    exact Option.some.inj (started.symm.trans entry)
  cases t with
  | case _ value label body | default _ label body =>
    obtain ⟨n, rfl, rfl⟩ := Option.map_eq_some_iff.mp labelled
    simp only [stmt, bind_eq_some, startCase_eq_some] at made
    obtain ⟨_, _, rfl, made⟩ := made
    exact opened rfl formed.2 (nodup_append.mp distinct).2.1 made
  | _ => cases labelled

theorem selects_of_contains {s inner : Stmt} {loc : Location} {e : Expr} {cases : List CaseLabel}
    (path : s.Contains (.switch loc e inner cases))
    (formed : s.Formed ctx.function.locals.length inside) (distinct : s.numbers.Nodup)
    (made : stmt ctx targets s b = some (u, b')) (grows : b'.Grows built) (within : Within built f) :
    Selects ctx f built loc e inner cases := by
  obtain ⟨targets, b, _, b', made, grows'⟩ := contains_lowered path formed distinct made
  obtain ⟨_, first, second, rfl, values⟩ := formed.contains path
  have distinct : inner.numbers.Nodup := (Stmt.numbers_sublist_of_contains path).nodup distinct
  have grows := grows'.trans grows
  have lowered := made
  simp only [stmt, bind_eq_some, newBlock_bind, start_eq_some, emit_bind] at made
  obtain ⟨r, b₁, madeE, target, b₂, madeD, _, b₃, madeR, rfl⟩ := made
  have numbered := inner.labels_sublist.nodup distinct
  obtain ⟨-, computed⟩ := (expr_made e .value first b).of_eq_some madeE
  obtain ⟨growsR, -⟩ := (stmt_made inner _ second distinct _).of_eq_some madeR
  have endWithin := within.mono grows
  refine ⟨targets, b, _, r, b₁, target, b₂, lowered, grows, madeE, madeD,
    fun host base c here => ?_⟩
  obtain ⟨n, d, steps, world, reached⟩ := dispatch_leads (v := c.regs r) numbered madeD
    (endWithin.of_start.mono growsR) computed.lt endWithin c c.world rfl
    ⟨⟨computed.isOpen, here⟩, rfl⟩
  refine ⟨n, d, steps, world, ?_⟩
  rcases Stmt.select_labels second (c.regs r) with
    ⟨selected, none⟩ | ⟨t, mem, l, listed, selected, labelled, value⟩
  · rw [none] at reached
    rw [selected]
    exact reached.pc
  · rw [value] at reached
    rw [selected]
    obtain ⟨l', listed', same, id, found, there⟩ := reached
    cases inj_on_of_nodup_map values listed' listed same
    obtain ⟨_, c', _, c'', madeT, growsT, kept⟩ := entry_lowered mem second distinct madeR
    have path := Stmt.contains_of_passes (Stmt.passes_of_mem_entries inner mem)
    obtain ⟨_, formedT⟩ := second.contains path
    have distinctT := (Stmt.numbers_sublist_of_contains path).nodup distinct
    refine starts_of_entry formedT distinctT madeT
      (growsT.trans (.head (.start _ _) grows)) within labelled found ?_ there
    rw [kept _ (label_mem_numbers l (Stmt.mem_labels_of_label? labelled)), cases_emit]

end MiniC.Ir.Lowering

namespace MiniC.Emit.Stack

open Asm List

variable {ctx : Context} {targets : Targets} {s t : Stmt} {lo hi k : Nat} {code : Code}
  {text : List Line} {inside : Typing.Inside}

/-! ## Lines -/

def Stands (ctx : Context) (text : List Line) (t : Stmt) (k : Nat) : Prop :=
  ∃ targets lo hi code, stmt ctx targets t lo = some (code, hi) ∧ Sits text k code

/-- The comparisons of a `switch` in a text get, from the value of its condition in `rax`, to the
statement that the value selects, or behind the `switch`. -/
def Selects (ctx : Context) (text : List Line) (loc : Location) (e : Expr) (body : Stmt)
    (cases : List CaseLabel) : Prop :=
  ∃ targets lo hi code k first last, stmt ctx targets (.switch loc e body cases) lo = some (code, hi) ∧
    Sits text k code ∧ value ctx e (lo + 1) = some (first, last) ∧
    ∀ (host : Host) (scratch : State → Reg → Word) (hidden : Word → Prop) (s : State),
      ∃ n d, (machine host scratch hidden text).Steps n ⟨k + first.length, s⟩ d ∧
        Keeps [.rdi] s d.state ∧
        (body.selected (s.regs .rax)).elim (d.pc = k + code.length) (Stands ctx text · d.pc)

theorem element_emitted (body : List Stmt) : ∀ {lo : Nat} {code : Code},
    stmts ctx targets body lo = some (code, hi) → t ∈ body →
    ∃ lo' hi' code', stmt ctx targets t lo' = some (code', hi') ∧ code' <:+: code := by
  induction body with
  | nil =>
    intro lo code _ mem
    cases mem
  | cons s rest ih =>
    intro lo code made mem
    simp only [stmts, bind_eq_some, pure_eq_some] at made
    obtain ⟨a, _, madeS, b, _, madeR, rfl, rfl⟩ := made
    rcases mem_cons.mp mem with rfl | mem
    · exact ⟨_, _, a, madeS, (prefix_append a b).isInfix⟩
    · obtain ⟨lo', hi', code', emitted, part⟩ := ih madeR mem
      exact ⟨lo', hi', code', emitted, part.trans (suffix_append a b).isInfix⟩

theorem child_emitted (made : stmt ctx targets s lo = some (code, hi)) (mem : t ∈ s.children) :
    ∃ targets' lo' hi' code', stmt ctx targets' t lo' = some (code', hi') ∧ code' <:+: code := by
  have middle : ∀ first code rest : Code, code <:+: first ++ code ++ rest :=
    fun first code rest => ⟨first, rest, rfl⟩
  cases s with
  | expr | ret | exit | next | null => cases mem
  | branch _ test yes no =>
    simp only [stmt, bind_eq_some, pure_eq_some] at made
    obtain ⟨id, _, -, a, _, madeA, b, _, madeY, c, _, madeN, rfl, rfl⟩ := made
    rcases mem_cons.mp mem with rfl | mem
    · refine ⟨_, _, _, b, madeY, ?_⟩
      simpa only [append_assoc] using middle a b _
    · cases Option.mem_toList.mp mem
      exact ⟨_, _, _, c, madeN, middle _ c _⟩
  | whileLoop _ test body =>
    cases mem_singleton.mp mem
    simp only [stmt, bind_eq_some, pure_eq_some] at made
    obtain ⟨id, _, -, a, _, madeA, b, _, madeB, rfl, rfl⟩ := made
    exact ⟨_, _, _, b, madeB, middle _ b _⟩
  | doLoop _ body test =>
    cases mem_singleton.mp mem
    simp only [stmt, bind_eq_some, pure_eq_some] at made
    obtain ⟨id, _, -, a, _, madeA, b, _, madeB, rfl, rfl⟩ := made
    refine ⟨_, _, _, a, madeA, ?_⟩
    simpa only [append_assoc] using middle [ctx.mark (.start id)] a _
  | forLoop _ init test step body =>
    simp only [stmt, bind_eq_some, pure_eq_some] at made
    obtain ⟨id, _, -, a, _, madeI, b, _, madeT, c, _, madeB, d, _, madeS, rfl, rfl⟩ := made
    rcases mem_append.mp mem with mem | mem
    · cases Option.mem_toList.mp mem
      refine ⟨_, _, _, a, madeI, ?_⟩
      simpa only [append_assoc, nil_append] using middle [] a _
    · cases mem_singleton.mp mem
      refine ⟨_, _, _, c, madeB, ?_⟩
      simpa only [append_assoc] using middle (a ++ [ctx.mark (.start id)] ++ b) c _
  | switch loc e body cases =>
    cases mem_singleton.mp mem
    simp only [stmt, bind_eq_some, pure_eq_some] at made
    obtain ⟨id, _, -, a, _, madeE, b, _, madeB, rfl, rfl⟩ := made
    exact ⟨_, _, _, b, madeB, middle _ b _⟩
  | case _ value label body | default _ label body =>
    cases mem_singleton.mp mem
    simp only [stmt, bind_eq_some, pure_eq_some] at made
    obtain ⟨a, _, made, rfl, rfl⟩ := made
    exact ⟨_, _, _, a, made, (suffix_append _ a).isInfix⟩
  | block _ body =>
    obtain ⟨lo', hi', code', emitted, part⟩ := element_emitted body made mem
    exact ⟨targets, lo', hi', code', emitted, part⟩

theorem contains_emitted (path : s.Contains t) (made : stmt ctx targets s lo = some (code, hi)) :
    ∃ targets' lo' hi' code', stmt ctx targets' t lo' = some (code', hi') ∧ code' <:+: code := by
  induction path with
  | refl => exact ⟨targets, lo, hi, code, made, infix_rfl⟩
  | tail _ mem ih =>
    obtain ⟨targets', lo', hi', code', emitted, part⟩ := ih
    obtain ⟨targets'', lo'', hi'', code'', emitted', part'⟩ := child_emitted emitted mem
    exact ⟨targets'', lo'', hi'', code'', emitted', part'.trans part⟩

theorem sits_of_infix {part : Code} (sits : Sits text k code) (h : part <:+: code) :
    ∃ j, Sits text j part := by
  obtain ⟨first, rest, rfl⟩ := h
  rw [sits_append, sits_append] at sits
  exact ⟨_, sits.1.2⟩

theorem stands_of_position {l : CaseLabel} {j : Nat} (distinct : Distinct text)
    (made : stmt ctx targets t lo = some (code, hi)) (sits : Sits text k code)
    (labelled : t.label? = some l) (found : position text (ctx.label (.case l.label)) = some j) :
    Stands ctx text t j := by
  refine ⟨targets, lo, hi, code, made, ?_⟩
  cases t with
  | case _ value label body | default _ label body =>
    obtain ⟨n, rfl, rfl⟩ := Option.map_eq_some_iff.mp labelled
    simp only [stmt, bind_eq_some, pure_eq_some] at made
    obtain ⟨a, _, made, rfl, rfl⟩ := made
    cases (distinct.position (sits_cons.mp sits).1).symm.trans found
    exact sits
  | _ => cases labelled

theorem selects_of_contains {inner : Stmt} {loc : Location} {e : Expr} {cases : List CaseLabel}
    (path : s.Contains (.switch loc e inner cases))
    (formed : s.Formed ctx.function.locals.length inside)
    (made : stmt ctx targets s lo = some (code, hi)) (sits : Sits text k code)
    (distinct : Distinct text) : Selects ctx text loc e inner cases := by
  obtain ⟨targets, lo, hi, code, made, part⟩ := contains_emitted path made
  obtain ⟨k, sits⟩ := sits_of_infix sits part
  obtain ⟨_, first, second, rfl, values⟩ := formed.contains path
  have emitted := made
  have whole := sits
  simp only [stmt, bind_eq_some, fresh_eq_some, pure_eq_some] at made
  obtain ⟨id, _, ⟨rfl, rfl⟩, a, _, madeE, b, _, madeB, rfl, rfl⟩ := made
  simp only [sits_append, sits_cons, length_append, length_cons, length_nil,
    ← Nat.add_assoc, Nat.add_zero] at sits
  obtain ⟨⟨⟨⟨-, sitsD⟩, jump, -⟩, sitsB⟩, done, -⟩ := sits
  have known : ∀ l ∈ inner.labels, ∃ j, position text (ctx.label (.case l.label)) = some j := by
    intro l mem
    obtain ⟨j, line⟩ := sitsB.getElem? (mark_mem inner madeB l mem)
    exact ⟨j, distinct.position line⟩
  refine ⟨targets, lo, _, _, k, a, _, emitted, whole, madeE, fun host scratch hidden s => ?_⟩
  obtain ⟨n, ⟨pc, s'⟩, steps, kept, reached⟩ := dispatch_reaches (v := s.regs .rax) known
    ⟨_, distinct.position done⟩ sitsD jump rfl
  rcases Stmt.select_labels second (s.regs .rax) with
    ⟨selected, none⟩ | ⟨t, mem, l, listed, selected, labelled, value⟩
  · rw [none] at reached
    rw [selected]
    have atEnd : _ = pc := Option.some.inj ((distinct.position done).symm.trans reached)
    subst atEnd
    -- the last line of the code is the label of its end
    refine ⟨_, ⟨_ + 1, s'⟩, steps.trans (.one (step_label done)), kept, ?_⟩
    simp only [Option.elim, length_append, length_cons, length_nil, ← Nat.add_assoc, Nat.add_zero]
  · rw [value] at reached
    rw [selected]
    obtain ⟨l', listed', same, found⟩ := reached
    cases inj_on_of_nodup_map values listed' listed same
    have path := Stmt.contains_of_passes (Stmt.passes_of_mem_entries inner mem)
    obtain ⟨_, _, _, _, madeT, part⟩ := contains_emitted path madeB
    obtain ⟨_, sitsT⟩ := sits_of_infix sitsB part
    exact ⟨n, _, steps, kept, stands_of_position distinct madeT sitsT labelled found⟩

end MiniC.Emit.Stack

namespace MiniC

open List

/-! ## Programs -/

/-- **A `switch` selects its case.** In a function of a program that was parsed and typed all case
labels have different numbers, and the list of cases of every `switch` is that of its case and
default statements, in order; they have different values, and at most one is a default. In the
blocks of the function and in its code on the machine stack, comparisons get from every value of the
condition to the statement of that case, or else to the default statement, or else behind the
`switch`. -/
theorem switch_selects {source : Source} {tokens : List Lexed} {implicitDecls : Bool}
    {p q : Program} {f : Function} {body : Stmt} (parsed : parse source tokens = .ok p)
    (analyzed : analyze implicitDecls p = .ok q) (listed : f ∈ q.functions)
    (defined : f.body = some body) :
    body.numbers.Nodup ∧ ∃ g params built text, Ir.lowerFunction q.structs f body = some g ∧
      Ir.Lowering.body ⟨q.structs, f⟩ body {} = some (params, built) ∧ g.blocks = built.blocks ∧
      Emit.Stack.function q.structs f body = some text ∧
      ∀ loc e inner cases, body.Contains (.switch loc e inner cases) →
        inner.entries.map (·.label?) = cases.map some ∧ (cases.map (·.value)).Nodup ∧
        Ir.Lowering.Selects ⟨q.structs, f⟩ g built loc e inner cases ∧
        Emit.Stack.Selects ⟨q.structs, f⟩ text loc e inner cases := by
  have formed := analyze_formed parsed analyzed f listed body defined
  obtain ⟨params, built, made, -, -, -, paid, -⟩ := Ir.Lowering.body_made ⟨q.structs, f⟩ formed
  obtain ⟨text, emitted⟩ := Emit.Stack.function_total q.structs formed
  refine ⟨formed.numbers, _, params, built, text, by rw [Ir.lowerFunction, made]; rfl, made, rfl,
    emitted, fun loc e inner cases path => ?_⟩
  obtain ⟨_, -, inside, same, values⟩ := formed.formed.contains path
  have labels := Stmt.map_label?_entries inner inside
  rw [← same] at labels
  refine ⟨labels, values, ?_, ?_⟩
  · rw [Ir.Lowering.body_eq] at made
    simp only [bind_eq_some, pure_eq_some] at made
    obtain ⟨_, _, -, _, _, -, _, b, -, _, b', madeC, _, _, madeF, -, rfl⟩ := made
    obtain ⟨grows, -⟩ := (Ir.Lowering.makes_finish b').of_eq_some madeF
    exact Ir.Lowering.selects_of_contains path formed.formed formed.numbers madeC grows
      (Ir.Lowering.within_of_owed rfl paid)
  · obtain ⟨head, lines, last, -, madeC, rfl⟩ := Emit.Stack.function_eq_some emitted
    refine Emit.Stack.selects_of_contains path formed.formed madeC
      (k := (Emit.functionHead f.name f.isStatic ++ head).length) ?_
      (Emit.Stack.function_distinct emitted formed.numbers)
    simp [Asm.Sits]

/-! ## An example -/

def grades : Source := ⟨"s.c", "int f(int n) \x7b switch (n) \x7b case 1: n = 2;
default: switch (n) \x7b case 1: n = 3; \x7d case 4: return n; \x7d return 0; \x7d"⟩

/-- A function whose body starts with a `switch`. -/
structure Switching where
  function : Function
  body : Stmt
  loc : Location
  condition : Expr
  inner : Stmt
  cases : List CaseLabel

def Program.switching? (q : Program) : Option Switching := do
  let f ← q.functions.head?
  match f.body with
  | some (.block loc (.switch loc' e inner cases :: rest)) =>
    some ⟨f, .block loc (.switch loc' e inner cases :: rest), loc', e, inner, cases⟩
  | _ => none

theorem Program.switching?_eq_some {q : Program} {x : Switching} (found : q.switching? = some x) :
    x.function ∈ q.functions ∧ x.function.body = some x.body ∧
      x.body.Contains (.switch x.loc x.condition x.inner x.cases) := by
  obtain ⟨f, head, found⟩ := Option.bind_eq_some_iff.mp found
  split at found
  next loc loc' e inner cases rest body =>
    cases found
    exact ⟨mem_of_mem_head? head, body, .single mem_cons_self⟩
  next => cases found

theorem switching?_grades : (grades.typed?.bind fun x => x.2.2.switching?).map
    (fun x => x.cases.map fun l => (l.value, l.label)) = some [(some 1, 0), (none, 1), (some 4, 3)] := by
  decide +kernel

theorem switch_selects_grades : ∃ tokens p q x g params built text,
    parse grades tokens = .ok p ∧ analyze false p = .ok q ∧ q.switching? = some x ∧
    x.cases.map (fun l => (l.value, l.label)) = [(some 1, 0), (none, 1), (some 4, 3)] ∧
    Ir.lowerFunction q.structs x.function x.body = some g ∧
    Ir.Lowering.body ⟨q.structs, x.function⟩ x.body {} = some (params, built) ∧
    Emit.Stack.function q.structs x.function x.body = some text ∧
    x.inner.entries.map (·.label?) = x.cases.map some ∧
    Ir.Lowering.Selects ⟨q.structs, x.function⟩ g built x.loc x.condition x.inner x.cases ∧
    Emit.Stack.Selects ⟨q.structs, x.function⟩ text x.loc x.condition x.inner x.cases := by
  obtain ⟨x, found, cases⟩ := Option.map_eq_some_iff.mp switching?_grades
  obtain ⟨⟨tokens, p, q⟩, typed, first⟩ := Option.bind_eq_some_iff.mp found
  obtain ⟨-, -, parsed, analyzed⟩ := Source.stages_of_typed? typed ⟨"", fun _ => .error .notFound⟩
  obtain ⟨listed, defined, path⟩ := Program.switching?_eq_some first
  obtain ⟨-, g, params, built, text, lowered, made, -, emitted, selects⟩ :=
    switch_selects parsed analyzed listed defined
  obtain ⟨labels, -, blocks, lines⟩ := selects _ _ _ _ path
  exact ⟨tokens, p, q, x, g, params, built, text, parsed, analyzed, first, cases, lowered, made,
    emitted, labels, blocks, lines⟩

end MiniC
