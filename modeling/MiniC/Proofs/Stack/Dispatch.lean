import MiniC.Proofs.Semantics.Assembly
import MiniC.Proofs.Stack.Labels
import MiniC.Proofs.Switch.Statements

/-!
# The comparisons of a `switch`

A `switch` compares the value in `rax` with its cases, one after the other, and jumps to the label
of the first that is equal; a jump behind the comparisons leads to the default label, or to the end.
So the machine gets to the label that `Tree.select` gives for the value (`dispatch_reaches`). The
comparisons change no register but `rdi`.
-/

namespace MiniC.Emit.Stack

open Asm MiniC.Tree List

variable {ctx : Context} {code : Code}

/-! ## Case labels -/

theorem mark_mem_labelled {key : Option Int64} {label : Option Nat} {own : List CaseLabel}
    (inner : ∀ l ∈ own, ctx.mark (.case l.label) ∈ code) :
    ∀ l ∈ (label.map (⟨key, ·⟩)).toList ++ own,
      ctx.mark (.case l.label) ∈ (label.map fun label => ctx.mark (.case label)).toList ++ code := by
  intro l mem
  rcases mem_append.mp mem with here | mem
  · cases label with
    | none => cases here
    | some n =>
      cases mem_singleton.mp here
      exact mem_append_left _ (mem_singleton_self _)
  · exact mem_append_right _ (inner l mem)

mutual
theorem mark_mem : (s : Stmt) → ∀ {targets : Targets} {lo hi : Nat} {code : Code},
    stmt ctx targets s lo = some (code, hi) → ∀ l ∈ s.labels, ctx.mark (.case l.label) ∈ code
  | .branch _ _ yes no, _, _, _, _, made => by
    simp only [stmt, bind_eq_some, pure_eq_some] at made
    obtain ⟨_, _, -, a, _, -, b, _, madeY, c, _, madeN, rfl, rfl⟩ := made
    intro l mem
    rcases mem_append.mp mem with mem | mem
    · simp [mark_mem yes madeY l mem]
    · simp [optionalMark_mem no madeN l mem]
  | .whileLoop _ _ body, _, _, _, _, made => by
    simp only [stmt, bind_eq_some, pure_eq_some] at made
    obtain ⟨_, _, -, _, _, -, a, _, madeB, rfl, rfl⟩ := made
    intro l mem
    simp [mark_mem body madeB l mem]
  | .doLoop _ body _, _, _, _, _, made => by
    simp only [stmt, bind_eq_some, pure_eq_some] at made
    obtain ⟨_, _, -, a, _, madeB, b, _, -, rfl, rfl⟩ := made
    intro l mem
    simp [mark_mem body madeB l mem]
  | .forLoop _ init _ _ body, _, _, _, _, made => by
    simp only [stmt, bind_eq_some, pure_eq_some] at made
    obtain ⟨_, _, -, a, _, madeI, b, _, -, c, _, madeB, d, _, -, rfl, rfl⟩ := made
    intro l mem
    rcases mem_append.mp mem with mem | mem
    · simp [optionalMark_mem init madeI l mem]
    · simp [mark_mem body madeB l mem]
  | .case _ _ label body, _, _, _, _, made | .default _ label body, _, _, _, _, made => by
    obtain ⟨a, inner, rfl⟩ := map_eq_some.mp made
    exact mark_mem_labelled (mark_mem body inner)
  | .block _ body, _, _, _, _, made => allMarks_mem body made
  | .expr .., _, _, _, _, _ | .ret .., _, _, _, _, _ | .switch .., _, _, _, _, _
  | .exit _, _, _, _, _, _ | .next _, _, _, _, _, _ | .null _, _, _, _, _, _ => by
    intro l mem
    cases mem
theorem optionalMark_mem : (s : Option Stmt) → ∀ {targets : Targets} {lo hi : Nat} {code : Code},
    optionalStmt ctx targets s lo = some (code, hi) →
    ∀ l ∈ Stmt.optionalLabels s, ctx.mark (.case l.label) ∈ code
  | none, _, _, _, _, _ => by
    intro l mem
    cases mem
  | some s, _, _, _, _, made => mark_mem s made
theorem allMarks_mem : (body : List Stmt) → ∀ {targets : Targets} {lo hi : Nat} {code : Code},
    stmts ctx targets body lo = some (code, hi) →
    ∀ l ∈ Stmt.allLabels body, ctx.mark (.case l.label) ∈ code
  | [], _, _, _, _, _ => by
    intro l mem
    cases mem
  | s :: rest, _, _, _, _, made => by
    simp only [stmts, bind_eq_some, pure_eq_some] at made
    obtain ⟨a, _, madeS, b, _, madeR, rfl, rfl⟩ := made
    intro l mem
    rcases mem_append.mp mem with mem | mem
    · exact mem_append_left _ (mark_mem s madeS l mem)
    · exact mem_append_right _ (allMarks_mem rest madeR l mem)
end

theorem fallback_cases (cases : List CaseLabel) : ∀ spot,
    (fallback spot cases = spot ∧ ∀ l ∈ cases, l.value ≠ none) ∨
      ∃ l ∈ cases, l.value = none ∧ fallback spot cases = .case l.label := by
  induction cases with
  | nil => exact fun spot => .inl ⟨rfl, fun l mem => absurd mem not_mem_nil⟩
  | cons l rest ih =>
    intro spot
    have unfolded : fallback spot (l :: rest) =
        fallback (if l.value.isNone then .case l.label else spot) rest := rfl
    rw [unfolded]
    rcases ih (if l.value.isNone then .case l.label else spot) with ⟨same, others⟩ | found
    · cases value : l.value with
      | none =>
        refine .inr ⟨l, mem_cons_self, value, ?_⟩
        rw [value] at same
        exact same
      | some n =>
        rw [value] at same
        refine .inl ⟨same, forall_mem_cons.mpr ⟨?_, others⟩⟩
        rw [value]
        exact Option.some_ne_none n
    · obtain ⟨l', mem, value, same⟩ := found
      exact .inr ⟨l', mem_cons_of_mem _ mem, value, same⟩

/-! ## Comparisons -/

section

variable {host : Host} {scratch : State → Reg → Word} {hidden : Word → Prop} {text : List Line}
  {v : Word} {cases : List CaseLabel}

variable (host scratch hidden) in
theorem steps_case {k j : Nat} {s : State} {value : Int64} {spot : Spot} (rax : s.regs .rax = v)
    (sits : Sits text k [.code (.mov .qword .rdi (.imm value)), .code (.cmp .qword .rax (.reg .rdi)),
      ctx.jumpIf .eq spot]) (found : position text (ctx.label spot) = some j) :
    ∃ s', Keeps [.rdi] s s' ∧ (machine host scratch hidden text).Steps 3 ⟨k, s⟩
      ⟨if value = .ofBitVec v then j else k + 3, s'⟩ := by
  obtain ⟨line, sits⟩ := sits_cons.mp sits
  let t := s.setPart .qword .rdi value.toBitVec
  have loaded : (machine host scratch hidden text).step ⟨k, s⟩ = some ⟨k + 1, t⟩ :=
    step_code line rfl rfl
  obtain ⟨s', kept, steps⟩ : ∃ s', Keeps [] t s' ∧
      (machine host scratch hidden text).Steps 2 ⟨k + 1, t⟩ _ := steps_compare sits found
  have compared : Cond.holds .eq (t.regs .rax).toInt (operand t (.reg .rdi)).toInt =
      decide (value = .ofBitVec v) := by
    have lhs : t.regs .rax = v := by simp [t, rax]
    have rhs : operand t (.reg .rdi) = value.toBitVec := by simp [t, operand]
    rw [lhs, rhs]
    refine decide_eq_decide.mpr (BitVec.toInt_inj.trans ⟨fun same => ?_, fun same => ?_⟩)
    · rw [same, Int64.ofBitVec_toBitVec]
    · rw [same, Int64.toBitVec_ofBitVec]
  rw [compared] at steps
  refine ⟨s', ⟨fun r other => ?_, kept.world⟩, .next loaded (by simpa using steps)⟩
  rw [kept.regs r not_mem_nil]
  exact Function.update_of_ne (ne_of_not_mem_cons other) _ _

/-- Comparisons jump to the case that matches, or go on behind them all. -/
theorem dispatch_steps
    (known : ∀ l ∈ cases, ∃ j, position text (ctx.label (.case l.label)) = some j) :
    ∀ ⦃k : Nat⦄ ⦃s : State⦄, s.regs .rax = v → Sits text k (dispatch ctx cases) →
    ∃ n d, (machine host scratch hidden text).Steps n ⟨k, s⟩ d ∧ Keeps [.rdi] s d.state ∧
      ((∃ l ∈ cases, l.value = some (.ofBitVec v) ∧
          position text (ctx.label (.case l.label)) = some d.pc) ∨
        (∀ l ∈ cases, l.value ≠ some (.ofBitVec v)) ∧ d.pc = k + (dispatch ctx cases).length) := by
  induction cases with
  | nil =>
    intro k s _ _
    exact ⟨0, _, .refl _, .refl s, .inr ⟨fun l mem => absurd mem not_mem_nil, rfl⟩⟩
  | cons l rest ih =>
    intro k s rax sits
    have ih := ih fun l mem => known l (mem_cons_of_mem _ mem)
    obtain ⟨value, label⟩ := l
    cases value with
    | none =>
      obtain ⟨n, d, steps, kept, reached⟩ := ih rax sits
      refine ⟨n, d, steps, kept, reached.imp ?_ ?_⟩
      · rintro ⟨l, mem, matched, entered⟩
        exact ⟨l, mem_cons_of_mem _ mem, matched, entered⟩
      · rintro ⟨others, there⟩
        refine ⟨forall_mem_cons.mpr ⟨?_, others⟩, there⟩
        intro same
        cases same
    | some value =>
      rw [dispatch, sits_append] at sits
      obtain ⟨j, found⟩ := known _ mem_cons_self
      obtain ⟨s', kept, steps⟩ := steps_case host scratch hidden rax sits.1 found
      by_cases matched : value = .ofBitVec v
      · rw [if_pos matched] at steps
        exact ⟨3, _, steps, kept, .inl ⟨_, mem_cons_self, congrArg some matched, found⟩⟩
      · rw [if_neg matched] at steps
        obtain ⟨n, d, more, kept', reached⟩ := ih ((kept.regs .rax (by decide)).trans rax) sits.2
        refine ⟨_, d, steps.trans more, kept.trans kept', reached.imp ?_ ?_⟩
        · rintro ⟨l, mem, matched, entered⟩
          exact ⟨l, mem_cons_of_mem _ mem, matched, entered⟩
        · rintro ⟨others, behind⟩
          refine ⟨forall_mem_cons.mpr ⟨fun same => matched (Option.some.inj same), others⟩, ?_⟩
          rw [behind, dispatch, length_append, Nat.add_assoc]

theorem dispatch_reaches {exit : Spot} {k : Nat} {s : State}
    (known : ∀ l ∈ cases, ∃ j, position text (ctx.label (.case l.label)) = some j)
    (leaves : ∃ j, position text (ctx.label exit) = some j)
    (sits : Sits text k (dispatch ctx cases))
    (line : text[k + (dispatch ctx cases).length]? = some (ctx.jump (fallback exit cases)))
    (rax : s.regs .rax = v) :
    ∃ n d, (machine host scratch hidden text).Steps n ⟨k, s⟩ d ∧ Keeps [.rdi] s d.state ∧
      (select cases v).elim (position text (ctx.label exit) = some d.pc) fun value =>
        ∃ l ∈ cases, l.value = value ∧ position text (ctx.label (.case l.label)) = some d.pc := by
  obtain ⟨n, ⟨pc, s'⟩, steps, kept, reached⟩ := dispatch_steps known rax sits
  rcases reached with ⟨l, mem, matched, entered⟩ | ⟨others, behind⟩
  · rw [select_of_value mem matched]
    exact ⟨n, _, steps, kept, l, mem, matched, entered⟩
  · have behind : pc = k + (dispatch ctx cases).length := behind
    subst behind
    rcases fallback_cases cases exit with ⟨same, valued⟩ | ⟨l, mem, isDefault, same⟩
    · rw [select_of_none others valued]
      obtain ⟨j, found⟩ := leaves
      rw [same] at line
      exact ⟨_, _, steps.trans (.one (step_jmp line found)), kept, found⟩
    · rw [select_of_default others mem isDefault]
      obtain ⟨j, found⟩ := known l mem
      rw [same] at line
      exact ⟨_, _, steps.trans (.one (step_jmp line found)), kept, l, mem, isDefault, found⟩

end

end MiniC.Emit.Stack
