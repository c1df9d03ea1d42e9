import MiniC.Proofs.Lowering.Build
import MiniC.Proofs.Typing.Formed

/-!
# Lowering succeeds and starts its blocks

Every well-formed tree has blocks. An expression starts all the blocks that it names. A
statement starts all of those as well, and the blocks of its own case labels, which the
`switch` around it has named; so a function owes no block in the end.
-/

namespace MiniC.Ir.Lowering

open Build List

/-! ## Expressions -/

/-- What the construction of an expression leaves: no block is owed for it, and its result
is a new register. -/
structure Made (b : Build) (r : VReg) (b' : Build) : Prop where
  owed : ∀ id, b'.owed id = b.owed id
  cases : b'.cases = b.cases
  fresh : b.nextVReg ≤ r.index
  lt : r.index < b'.nextVReg
  isOpen : b'.isOpen

theorem ofBinary_ne_byte (op : BinOp) (ty : CType) : Width.ofBinary op ty ≠ .byte := by
  unfold Width.ofBinary Width.arithmetic
  split
  · exact nofun
  · split <;> simp_all

theorem arithmetic_ne_byte (ty : CType) : Width.arithmetic ty ≠ .byte := by
  unfold Width.arithmetic
  split <;> simp_all

theorem unaryWidth_ne_byte (op : UnOp) (ty : CType) : unaryWidth op ty ≠ .byte := by
  unfold unaryWidth
  split
  · exact nofun
  · exact arithmetic_ne_byte ty

variable {b b' c d : Build} {r : VReg} {labels : List CaseLabel} {e : Option Expr}
  {numbers : List Nat} {targets : Targets} {code : Stmt}

theorem define_made {i : VReg → Instruction} (legal : (i ⟨b.nextVReg⟩).Legal)
    (straight : (i ⟨b.nextVReg⟩).isTerminator = false) : Makes (define i) b (Made b) := by
  refine (makes_define legal).mono ?_
  rintro _ _ ⟨rfl, rfl⟩
  exact ⟨fun id => by simp, by simp, Nat.le_refl _, by simp, by simp [straight]⟩

theorem Made.trans {b'' : Build} {s : VReg} (first : Made b r b') (grows : b.Grows b')
    (rest : Made b' s b'') : Made b s b'' :=
  ⟨fun id => by rw [rest.owed, first.owed], by rw [rest.cases, first.cases],
    grows.nextVReg_le.trans rest.fresh, rest.lt, rest.isOpen⟩

theorem access_made (want : Want) (ty : CType) (h : Made b r b')
    (grows : b.Grows b') : Makes (access want ty r) b' (Made b) := by
  unfold access
  split
  · exact .pure h
  · split
    · exact .pure h
    · exact (define_made (by trivial) (by rfl)).mono fun _ _ => h.trans grows

theorem displace_made (offset : UInt32) (h : Made b r b')
    (grows : b.Grows b') : Makes (displace r offset) b' (Made b) := by
  unfold displace
  split
  · exact .pure h
  · refine (define_made (by trivial) (by rfl)).bind fun distance c grows' made => ?_
    refine (define_made (by simp [Instruction.Legal]) (by rfl)).mono fun _ _ made' => ?_
    exact h.trans grows (made.trans grows' made')

theorem joinWith_made {result : VReg} {join block : BlockId} {value : Lower VReg}
    (made : Makes value (b.start block) (Made (b.start block))) :
    Makes (joinWith result join block value) b fun _ b' =>
      (∀ id, b'.owed id = b.owed id - one block id) ∧ b'.cases = b.cases := by
  unfold joinWith
  refine .start ?_
  refine made.bind fun r c grows h => ?_
  refine .emit (by trivial) ?_
  refine (makes_emit (by trivial)).mono ?_
  rintro _ _ rfl
  exact ⟨fun id => by simp [h.owed], by simp [h.cases]⟩

variable {ctx : Context}

theorem expr_logical {want : Want} {note : Note} {op : BinOp} {scaled : Bool} {lhs rhs : Expr}
    (skips : op = .logAnd ∨ op = .logOr) :
    expr ctx want (.binary note op scaled lhs rhs) = (do
      let result ← vreg
      let right ← newBlock
      let short ← newBlock
      let join ← newBlock
      let l ← expr ctx .value lhs
      emit (if op = .logAnd then .branch l right short else .branch l short right)
      start right
      let r ← expr ctx .value rhs
      let zero ← imm 0
      emit (.binary .ne .qword result r zero)
      emit (.jump join)
      start short
      emit (.imm result (if op = .logAnd then 0 else 1))
      start join
      return result) := by
  rw [expr, if_pos skips]
  rcases skips with rfl | rfl <;> rfl

mutual
/-- Lowering a formed expression succeeds, by induction over the tree. -/
theorem expr_made : (e : Expr) → (want : Want) → e.Formed ctx.function.locals.length →
    ∀ b, Makes (expr ctx want e) b (Made b)
  | .num _ value, want, formed
  | .sizeof _ operand, want, formed => fun b => define_made (by trivial) (by rfl)
  | .str note index, want, formed | .global note name, want, formed => fun b => by
    rw [expr]
    refine (define_made (by trivial) (by rfl)).bind fun r c grows made => ?_
    exact access_made want note.ty made grows
  | .var note index, want, formed => fun b => by
    rw [expr]
    refine (makes_lift (List.getElem?_eq_getElem formed)).bind ?_
    rintro _ _ grows ⟨rfl, rfl⟩
    refine (define_made (by trivial) (by rfl)).bind fun r c grows made => ?_
    exact access_made want note.ty made grows
  | .deref note pointer, want, formed => fun b => by
    rw [expr]
    refine (expr_made pointer .value formed b).bind fun r c grows made => ?_
    exact access_made want note.ty made grows
  | .member note base _ offset, want, formed => fun b => by
    rw [expr]
    refine (expr_made base .address formed b).bind fun r c grows made => ?_
    refine (displace_made offset made grows).bind fun r' c' grows' made' => ?_
    exact access_made want note.ty made' (grows.trans grows')
  | .binary note op _ lhs rhs, want, ⟨left, right⟩ => fun b => by
    by_cases skips : op = .logAnd ∨ op = .logOr
    · rw [expr_logical skips]
      refine .vreg (.newBlock (.newBlock (.newBlock ?_)))
      refine (expr_made lhs .value left _).bind fun l c grows madeL => ?_
      refine .emit (by split <;> trivial) ?_
      refine .start ?_
      refine (expr_made rhs .value right _).bind fun r d grows' madeR => ?_
      refine .define (by trivial) ?_
      refine .emit (by simp [Instruction.Legal]) ?_
      refine .emit (by trivial) (.start (.emit (by trivial) (.start ?_)))
      have vregsL := grows.nextVReg_le
      have vregsR := grows'.nextVReg_le
      simp only [nextVReg_start, nextVReg_emit, nextVReg_withBlock, nextVReg_withVReg] at *
      refine .pure ⟨fun id => ?_, ?_, Nat.le_refl _, ?_, rfl⟩
      · have owedL := madeL.owed id
        have owedR := madeR.owed id
        simp only [owed_start, owed_emit, owed_define, owed_withBlock, owed_withVReg] at *
        omega
      · have casesL := madeL.cases
        have casesR := madeR.cases
        simp_all
      · simp only [nextVReg_start, nextVReg_emit, nextVReg_define]
        omega
    · rw [expr, if_neg skips]
      refine (expr_made lhs .value left b).bind fun l c grows madeL => ?_
      refine (expr_made rhs .value right c).bind fun r d grows' madeR => ?_
      refine (define_made (by exact ofBinary_ne_byte op note.ty) (by rfl)).mono fun _ _ made => ?_
      exact madeL.trans grows (madeR.trans grows' made)
  | .assign _ lhs rhs, want, ⟨left, right⟩ => fun b => by
    rw [expr]
    refine (expr_made lhs .address left b).bind fun a c grows madeA => ?_
    refine (expr_made rhs .value right c).bind fun v d grows' madeV => ?_
    have both := madeA.trans grows madeV
    refine (makes_emit (by trivial)).bind ?_
    rintro _ _ grows'' rfl
    have stored : Made b v (d.emit (.store (.ofType lhs.ty) a v)) :=
      ⟨fun id => by rw [owed_emit, both.owed], by rw [cases_emit, both.cases], both.fresh,
        by rw [nextVReg_emit]; exact both.lt, by simp [Instruction.isTerminator]⟩
    split
    · exact .pure stored
    · refine (define_made (by trivial) (by rfl)).mono fun _ _ made => ?_
      exact stored.trans ((grows.trans grows').trans grows'') made
  | .comma _ lhs rhs, want, ⟨left, right⟩ => fun b => by
    rw [expr]
    refine (expr_made lhs .value left b).bind fun l c grows madeL => ?_
    exact (expr_made rhs want right c).mono fun _ _ made => madeL.trans grows made
  | .cond _ test yes no, want, ⟨first, second, third⟩ => fun b => by
    rw [expr]
    refine .vreg (.newBlock (.newBlock (.newBlock ?_)))
    refine (expr_made test .value first _).bind fun q c grows madeQ => ?_
    refine .emit (by trivial) ?_
    refine (joinWith_made (expr_made yes .value second _)).bind fun _ d grows' madeY => ?_
    refine (joinWith_made (expr_made no .value third _)).bind fun _ e grows'' madeN => ?_
    refine .start ?_
    have vregsQ := grows.nextVReg_le
    have vregsY := grows'.nextVReg_le
    have vregsN := grows''.nextVReg_le
    refine .pure ⟨fun id => ?_, ?_, Nat.le_refl _, ?_, rfl⟩
    · have owedQ := madeQ.owed id
      have owedY := madeY.1 id
      have owedN := madeN.1 id
      simp only [owed_start, owed_emit, owed_withBlock, owed_withVReg] at *
      omega
    · have casesQ := madeQ.cases
      have casesY := madeY.2
      have casesN := madeN.2
      simp_all
    · simp only [nextVReg_start, nextVReg_emit, nextVReg_withBlock, nextVReg_withVReg] at *
      omega
  | .unary note op operand, want, formed => fun b => by
    rw [expr]
    refine (expr_made operand .value formed b).bind fun r c grows made => ?_
    refine (define_made (by exact unaryWidth_ne_byte op note.ty) (by rfl)).mono fun _ _ made' => ?_
    exact made.trans grows made'
  | .addr _ operand, want, formed => fun b => expr_made operand .address formed b
  | .call note callee args, want, ⟨count, formed⟩ => fun b => by
    rw [expr]
    refine (arguments_made args formed b).bind fun rs c grows ⟨length, owed, cases, _⟩ => ?_
    refine (define_made (by rw [Instruction.Legal, length]; exact count) (by rfl)).mono ?_
    exact fun _ _ made => ⟨fun id => by rw [made.owed, owed], by rw [made.cases, cases],
      grows.nextVReg_le.trans made.fresh, made.lt, made.isOpen⟩
  | .cast _ target operand, want, formed => fun b => by
    rw [expr]
    refine (expr_made operand .value formed b).bind fun r c grows made => ?_
    split
    · exact .pure made
    · exact (define_made (by trivial) (by rfl)).mono fun _ _ made' => made.trans grows made'
theorem arguments_made : (args : List Expr) → Expr.AllFormed ctx.function.locals.length args →
    ∀ b, Makes (arguments ctx args) b fun rs b' =>
      rs.length = args.length ∧ (∀ id, b'.owed id = b.owed id) ∧ b'.cases = b.cases ∧
        ∀ r ∈ rs, b.nextVReg ≤ r.index ∧ r.index < b'.nextVReg
  | [], _ => fun b => .pure ⟨rfl, fun _ => rfl, rfl, nofun⟩
  | arg :: args, ⟨first, rest⟩ => fun b => by
    rw [arguments]
    refine (expr_made arg .value first b).bind fun r c grows made => ?_
    refine (arguments_made args rest c).bind fun rs d grows' ⟨length, owed, cases, bounds⟩ => ?_
    refine .pure ⟨by simp [length], fun id => by rw [owed, made.owed], by rw [cases, made.cases],
      fun v hv => ?_⟩
    rcases mem_cons.mp hv with rfl | hv
    · exact ⟨made.fresh, Nat.lt_of_lt_of_le made.lt grows'.nextVReg_le⟩
    · exact ⟨grows.nextVReg_le.trans (bounds v hv).1, (bounds v hv).2⟩
end

/-! ## Statements -/

def dues (cases : List (Nat × BlockId)) (labels : List CaseLabel) (id : BlockId) : Int :=
  (labels.map fun l => (cases.lookup l.label).elim 0 (one · id)).sum

@[simp] theorem dues_nil (cases : List (Nat × BlockId)) (id : BlockId) : dues cases [] id = 0 := rfl

@[simp] theorem dues_cons (cases : List (Nat × BlockId)) (l : CaseLabel) (labels : List CaseLabel)
    (id : BlockId) : dues cases (l :: labels) id =
      (cases.lookup l.label).elim 0 (one · id) + dues cases labels id := by
  simp [dues]

@[simp] theorem dues_append (cases : List (Nat × BlockId)) (first rest : List CaseLabel)
    (id : BlockId) : dues cases (first ++ rest) id = dues cases first id + dues cases rest id := by
  simp [dues]

theorem dues_congr {cases cases' : List (Nat × BlockId)}
    (same : ∀ l ∈ labels, cases'.lookup l.label = cases.lookup l.label) (id : BlockId) :
    dues cases' labels id = dues cases labels id := by
  unfold dues
  congr 1
  exact map_congr_left fun l hl => by rw [same l hl]

/-- What the construction of statements leaves: the blocks of their labels have started,
and the blocks of other labels than the numbered ones are as before. -/
structure Placed (labels : List CaseLabel) (numbers : List Nat) (b b' : Build) : Prop where
  owed : ∀ id, b'.owed id = b.owed id - dues b.cases labels id
  cases : ∀ number, number ∉ numbers → b'.cases.lookup number = b.cases.lookup number

theorem Placed.refl (b : Build) : Placed [] [] b b := ⟨fun _ => by simp, fun _ _ => rfl⟩

theorem Made.placed (h : Made b r b') : Placed [] [] b b' :=
  ⟨fun id => by rw [h.owed]; simp, fun _ _ => by rw [h.cases]⟩

/-- Comparisons owe a block for every case. -/
theorem dispatch_made (value : VReg) (cases : List CaseLabel) :
    (cases.map (·.label)).Nodup → ∀ (fallback : BlockId) (b : Build),
    Makes (dispatch value fallback cases) b fun _ b' =>
      (∀ id, b'.owed id = b.owed id + dues b'.cases cases id) ∧
      ∀ number, number ∉ cases.map (·.label) → b'.cases.lookup number = b.cases.lookup number := by
  induction cases with
  | nil =>
    intro _ fallback b
    rw [dispatch]
    exact .pure ⟨fun id => by simp, fun _ _ => rfl⟩
  | cons case rest ih =>
    intro distinct fallback b
    rw [map_cons, nodup_cons] at distinct
    have settle : ∀ {c b' : Build}, (∀ id, c.owed id = b.owed id + one ⟨b.nextBlock⟩ id) →
        c.cases = (case.label, ⟨b.nextBlock⟩) :: b.cases →
        ((∀ id, b'.owed id = c.owed id + dues b'.cases rest id) ∧ ∀ number,
          number ∉ rest.map (·.label) → b'.cases.lookup number = c.cases.lookup number) →
        (∀ id, b'.owed id = b.owed id + dues b'.cases (case :: rest) id) ∧ ∀ number,
          number ∉ (case :: rest).map (·.label) →
            b'.cases.lookup number = b.cases.lookup number := by
      intro c b' owed cases ⟨owed', cases'⟩
      refine ⟨fun id => ?_, fun number other => ?_⟩
      · rw [dues_cons, cases' _ distinct.1, cases, lookup_cons_self, owed', owed]
        simp only [Option.elim]
        omega
      · rw [map_cons, mem_cons, not_or] at other
        rw [cases' _ other.2, cases, lookup_cons, beq_eq_false_iff_ne.mpr other.1]
    rw [dispatch]
    refine .newBlock ?_
    refine (makes_case _ _).bind ?_
    rintro _ _ - rfl
    split
    next =>
      refine (ih distinct.2 _ _).mono fun _ _ h => ?_
      exact settle (by simp) (by simp) h
    next constant _ =>
      refine .define (by trivial) ?_
      refine .define (by simp [Instruction.Legal]) ?_
      refine .newBlock (.emit (by trivial) (.start ?_))
      refine (ih distinct.2 _ _).mono fun _ _ h => ?_
      exact settle (fun id => by simp) (by simp) h

/-- A construction without labels and without blocks that are left to others. -/
structure Quiet (b b' : Build) : Prop where
  owed : ∀ id, b'.owed id = b.owed id
  cases : b'.cases = b.cases

theorem Made.quiet (h : Made b r b') : Quiet b b' := ⟨h.owed, h.cases⟩

theorem emit_quiet {i : Instruction} (legal : i.Legal) :
    Makes (emit i) b fun _ => Quiet b := by
  refine (makes_emit legal).mono ?_
  rintro _ _ rfl
  exact ⟨fun id => by simp, by simp⟩

theorem branch_quiet {e : Expr} (formed : e.Formed ctx.function.locals.length) (yes no : BlockId)
    (b : Build) : Makes (branch ctx e yes no) b fun _ => Quiet b := by
  unfold branch value
  refine (expr_made e .value formed b).bind fun r c _ made => ?_
  refine (emit_quiet (by trivial)).mono fun _ _ h => ?_
  exact ⟨fun id => by rw [h.owed, made.owed], by rw [h.cases, made.cases]⟩

theorem effect_quiet (formed : Expr.OptionalFormed ctx.function.locals.length e)
    (b : Build) : Makes (effect ctx e) b fun _ => Quiet b := by
  cases e with
  | none => exact .pure ⟨fun _ => rfl, rfl⟩
  | some e =>
    unfold effect value
    exact (expr_made e .value formed b).bind fun r c _ made => .pure made.quiet

theorem leaveTo_quiet (target : Option BlockId) (b : Build) :
    Makes (leaveTo target) b fun _ => Quiet b := by
  cases target with
  | none => exact .pure ⟨fun _ => rfl, rfl⟩
  | some target => exact emit_quiet (by trivial)

theorem Placed.around (middle : Placed labels numbers c d) (before : c.cases = b.cases)
    (after : b'.cases = d.cases)
    (owed : ∀ id, c.owed id - b.owed id = d.owed id - b'.owed id) : Placed labels numbers b b' := by
  refine ⟨fun id => ?_, fun number other => ?_⟩
  · have := middle.owed id
    have := owed id
    rw [← before]
    omega
  · rw [after, middle.cases number other, before]

theorem Quiet.placed (h : Quiet b b') : Placed [] [] b b' :=
  (Placed.refl b).around rfl h.cases fun id => by rw [h.owed]

theorem Placed.append {first rest : List CaseLabel} {numbers' : List Nat} {e f : Build}
    (h : Placed first numbers c d) (h' : Placed rest numbers' e f)
    (numbered : ∀ l ∈ rest, l.label ∈ numbers') (distinct : (numbers ++ numbers').Nodup)
    (before : c.cases = b.cases) (between : e.cases = d.cases) (after : b'.cases = f.cases)
    (owed : ∀ id, c.owed id - b.owed id + (e.owed id - d.owed id) = f.owed id - b'.owed id) :
    Placed (first ++ rest) (numbers ++ numbers') b b' := by
  refine ⟨fun id => ?_, fun number other => ?_⟩
  · have same : dues e.cases rest id = dues b.cases rest id :=
      dues_congr (fun l hl => by
        rw [between, h.cases _ fun mem =>
          disjoint_of_nodup_append distinct mem (numbered l hl), before]) id
    have := h.owed id
    have := h'.owed id
    have := owed id
    rw [dues_append, ← before]
    rw [← before] at same
    omega
  · rw [mem_append, not_or] at other
    rw [after, h'.cases _ other.2, between, h.cases _ other.1, before]

theorem label_mem_numbers {s : Stmt} : ∀ l ∈ s.labels, l.label ∈ s.numbers :=
  fun _ hl => s.labels_sublist.subset (mem_map_of_mem hl)

def optionalBranch (ctx : Context) (test : Option Expr) (yes no : BlockId) : Lower Unit :=
  match test with
  | some e => branch ctx e yes no
  | none => return ()

theorem stmt_forLoop {loc : Location} {init : Option Stmt} {test step : Option Expr} {body : Stmt} :
    stmt ctx targets (.forLoop loc init test step body) = (do
      optionalStmt ctx targets init
      let head ← newBlock
      let first ← newBlock
      let next ← newBlock
      let exit ← newBlock
      start head
      optionalBranch ctx test first exit
      start first
      stmt ctx ⟨some exit, some next⟩ body
      start next
      effect ctx step
      emit (.jump head)
      start exit) := by
  rw [stmt]
  cases test <;> rfl

theorem optionalBranch_quiet (formed : Expr.OptionalFormed ctx.function.locals.length e)
    (yes no : BlockId) (b : Build) :
    Makes (optionalBranch ctx e yes no) b fun _ => Quiet b := by
  cases e with
  | none => exact .pure ⟨fun _ => rfl, rfl⟩
  | some e => exact branch_quiet formed yes no b

theorem labelled_made {body : Stmt} (value : Option Int64) (label : Option Nat)
    (rest : Makes (stmt ctx targets body) (b.enter label)
      fun _ => Placed body.labels body.numbers (b.enter label))
    (distinct : (label.toList ++ body.numbers).Nodup) :
    Makes (do startCase label; stmt ctx targets body) b fun _ =>
      Placed ((label.map (⟨value, ·⟩)).toList ++ body.labels) (label.toList ++ body.numbers) b := by
  refine (makes_startCase label).bind ?_
  rintro _ _ - rfl
  refine rest.mono fun _ c placed => ?_
  have entered : Placed (label.map (⟨value, ·⟩)).toList label.toList b (b.enter label) := by
    cases label with
    | none => exact .refl b
    | some label =>
      cases found : b.cases.lookup label <;>
        exact ⟨fun id => by simp [Build.enter, found], fun _ _ => by simp [Build.enter, found]⟩
  exact entered.append placed label_mem_numbers distinct rfl rfl rfl fun id => by omega

mutual
/-- Lowering a formed statement succeeds, and starts the blocks of its labels. -/
theorem stmt_made : (s : Stmt) → (targets : Targets) → {inside : Typing.Inside} →
    s.Formed ctx.function.locals.length inside → s.numbers.Nodup →
    ∀ b, Makes (stmt ctx targets s) b fun _ => Placed s.labels s.numbers b
  | .expr _ e, targets, _, formed, _ => fun b => by
    rw [stmt]
    exact (effect_quiet (e := some e) formed b).mono fun _ _ => Quiet.placed
  | .ret _ none, targets, _, _, _ => fun b => by
    rw [stmt]
    exact (emit_quiet (by trivial)).mono fun _ _ => Quiet.placed
  | .ret _ (some e), targets, _, formed, _ => fun b => by
    rw [stmt]
    unfold value
    refine (expr_made e .value formed b).bind fun r c _ made => ?_
    refine (emit_quiet (by trivial)).mono fun _ _ h => ?_
    exact made.placed.around rfl h.cases fun id => by rw [h.owed]; omega
  | .branch _ test yes none, targets, _, ⟨first, second, _⟩, distinct => fun b => by
    rw [stmt]
    refine .newBlock (.newBlock ?_)
    refine (branch_quiet first _ _ _).bind fun _ c _ quiet => ?_
    refine .start ?_
    rw [Stmt.numbers, Stmt.optionalNumbers, append_nil] at distinct
    refine (stmt_made yes targets second distinct _).bind fun _ d _ placed => ?_
    refine makes_start ?_
    rw [Stmt.labels, Stmt.numbers, Stmt.optionalLabels, Stmt.optionalNumbers, append_nil,
      append_nil]
    refine placed.around (by simp [quiet.cases]) (by simp) fun id => ?_
    simp only [owed_start, quiet.owed, owed_withBlock]
    omega
  | .branch _ test yes (some no), targets, _, ⟨first, second, third⟩, distinct => fun b => by
    rw [stmt]
    refine .newBlock (.newBlock (.newBlock ?_))
    refine (branch_quiet first _ _ _).bind fun _ c _ quiet => ?_
    refine .start ?_
    have parts := nodup_append.mp distinct
    refine (stmt_made yes targets second parts.1 _).bind fun _ d _ placed => ?_
    refine .emit (by trivial) (.start ?_)
    refine (stmt_made no targets third parts.2.1 _).bind fun _ e _ placed' => ?_
    refine makes_start ?_
    refine placed.append placed' label_mem_numbers distinct (by simp [quiet.cases]) (by simp)
      (by simp) fun id => ?_
    simp only [owed_start, owed_emit, quiet.owed, owed_withBlock]
    omega
  | .whileLoop _ test body, targets, _, ⟨first, second⟩, distinct => fun b => by
    rw [stmt]
    refine .newBlock (.newBlock (.newBlock (.start ?_)))
    refine (branch_quiet first _ _ _).bind fun _ c _ quiet => ?_
    refine .start ?_
    refine (stmt_made body _ second distinct _).bind fun _ d _ placed => ?_
    refine .emit (by trivial) ?_
    refine makes_start ?_
    refine placed.around (by simp [quiet.cases]) (by simp) fun id => ?_
    simp only [owed_start, owed_emit, quiet.owed, owed_withBlock]
    omega
  | .doLoop _ body test, targets, _, ⟨first, second⟩, distinct => fun b => by
    rw [stmt]
    refine .newBlock (.newBlock (.newBlock (.start ?_)))
    refine (stmt_made body _ second distinct _).bind fun _ d _ placed => ?_
    refine .start ?_
    refine (branch_quiet first _ _ _).bind fun _ c _ quiet => ?_
    refine makes_start ?_
    refine placed.around (by simp) (by simp [quiet.cases]) fun id => ?_
    simp only [owed_start, quiet.owed, owed_withBlock]
    omega
  | .forLoop _ init test step body, targets, _, ⟨first, second, third, fourth⟩, distinct =>
    fun b => by
    have parts := nodup_append.mp distinct
    rw [stmt_forLoop]
    refine (optionalStmt_made init targets first parts.1 b).bind fun _ c _ placed => ?_
    refine .newBlock (.newBlock (.newBlock (.newBlock (.start ?_))))
    refine (optionalBranch_quiet second _ _ _).bind fun _ d _ quiet => ?_
    refine .start ?_
    refine (stmt_made body _ fourth parts.2.1 _).bind fun _ e _ placed' => ?_
    refine .start ?_
    refine (effect_quiet third _).bind fun _ f _ quiet' => ?_
    refine .emit (by trivial) ?_
    refine makes_start ?_
    refine placed.append placed' label_mem_numbers distinct rfl (by simp [quiet.cases])
      (by simp [quiet'.cases]) fun id => ?_
    simp only [owed_start, owed_emit, quiet.owed, quiet'.owed, owed_withBlock]
    omega
  | .switch _ e body cases, targets, _, ⟨first, second, same, _⟩, distinct => fun b => by
    rw [stmt]
    unfold value
    refine (expr_made e .value first b).bind fun r c _ made => ?_
    refine .newBlock ?_
    subst same
    refine (dispatch_made r body.labels (body.labels_sublist.nodup distinct) _ _).bind ?_
    rintro t d - ⟨owed, cases⟩
    refine .emit (by trivial) ?_
    refine (stmt_made body _ second distinct _).bind fun _ f _ placed => ?_
    refine makes_start ?_
    refine ⟨fun id => ?_, fun number other => ?_⟩
    · have := owed id
      have := placed.owed id
      have := made.owed id
      simp only [owed_start, owed_emit, cases_emit, owed_withBlock] at *
      rw [Stmt.labels, dues_nil]
      omega
    · rw [cases_start, placed.cases number other, cases_emit, cases, cases_withBlock, made.cases]
      exact fun mem => other (body.labels_sublist.subset mem)
  | .case _ value label body, targets, _, ⟨_, formed⟩, distinct => fun b => by
    rw [stmt]
    exact labelled_made (some value) label (stmt_made body targets formed
      (nodup_append.mp distinct).2.1 _) distinct
  | .default _ label body, targets, _, ⟨_, formed⟩, distinct => fun b => by
    rw [stmt]
    exact labelled_made none label (stmt_made body targets formed
      (nodup_append.mp distinct).2.1 _) distinct
  | .exit _, targets, _, _, _ => fun b => by
    rw [stmt]
    exact (leaveTo_quiet targets.exit b).mono fun _ _ => Quiet.placed
  | .next _, targets, _, _, _ => fun b => by
    rw [stmt]
    exact (leaveTo_quiet targets.next b).mono fun _ _ => Quiet.placed
  | .block _ body, targets, _, formed, distinct => fun b => stmts_made body targets formed distinct b
  | .null _, targets, _, _, _ => fun b => .pure (.refl b)
theorem optionalStmt_made : (s : Option Stmt) → (targets : Targets) → {inside : Typing.Inside} →
    Stmt.OptionalFormed ctx.function.locals.length inside s → (Stmt.optionalNumbers s).Nodup →
    ∀ b, Makes (optionalStmt ctx targets s) b
      fun _ => Placed (Stmt.optionalLabels s) (Stmt.optionalNumbers s) b
  | none, _, _, _, _ => fun b => .pure (.refl b)
  | some s, targets, _, formed, distinct => fun b => stmt_made s targets formed distinct b
theorem stmts_made : (body : List Stmt) → (targets : Targets) → {inside : Typing.Inside} →
    Stmt.AllFormed ctx.function.locals.length inside body → (Stmt.allNumbers body).Nodup →
    ∀ b, Makes (stmts ctx targets body) b
      fun _ => Placed (Stmt.allLabels body) (Stmt.allNumbers body) b
  | [], targets, _, _, _ => fun b => .pure (.refl b)
  | s :: body, targets, _, ⟨first, rest⟩, distinct => fun b => by
    have parts := nodup_append.mp distinct
    rw [stmts]
    refine (stmt_made s targets first parts.1 b).bind fun _ c _ placed => ?_
    refine (stmts_made body targets rest parts.2.1 c).mono fun _ d placed' => ?_
    exact placed.append placed' (fun l hl =>
      (Stmt.allLabels_sublist body).subset (mem_map_of_mem hl)) distinct rfl rfl rfl
      fun id => by omega
end

/-! ## Functions -/

/-- What storing the parameters leaves: they arrive in new registers, one after the other. -/
structure Spilled (params : List Nat) (b : Build) (arrived : List VReg) (b' : Build) : Prop where
  length : arrived.length = params.length
  fresh : ∀ r ∈ arrived, b.nextVReg ≤ r.index
  distinct : arrived.Nodup
  quiet : Quiet b b'

theorem spill_made {f : MiniC.Function} (params : List Nat) :
    (∀ p ∈ params, p < f.locals.length) → ∀ b, Makes (spill f params) b (Spilled params b) := by
  induction params with
  | nil =>
    intro _ b
    rw [spill]
    exact .pure ⟨rfl, nofun, .nil, fun _ => rfl, rfl⟩
  | cons param rest ih =>
    intro known b
    rw [spill]
    refine (makes_lift (List.getElem?_eq_getElem (known param mem_cons_self))).bind ?_
    rintro _ b - ⟨rfl, rfl⟩
    refine .vreg (.define (by trivial) (.emit (by trivial) ?_))
    refine (ih (fun p hp => known p (mem_cons_of_mem _ hp)) _).bind fun rs c _ h => ?_
    have later : ∀ r ∈ rs, b.nextVReg + 2 ≤ r.index := fun r mem => by
      simpa only [nextVReg_emit, nextVReg_define, nextVReg_withVReg] using h.fresh r mem
    refine .pure ⟨by simp [h.length], fun r mem => ?_, ?_, fun id => by simp [h.quiet.owed],
      by simp [h.quiet.cases]⟩
    · rcases mem_cons.mp mem with rfl | mem
      · exact Nat.le_refl _
      · exact Nat.le_of_add_right_le (later r mem)
    · refine nodup_cons.mpr ⟨fun mem => ?_, h.distinct⟩
      exact absurd (later _ mem) (by simp)

def finish : Lower Unit := do
  if (← get).current.isSome then
    let zero ← imm 0
    emit (.ret (some zero))

theorem body_eq : body ctx code = (do
    start (← newBlock)
    let params ← spill ctx.function ctx.function.params
    stmt ctx {} code
    finish
    return params) := by
  unfold body finish
  simp only [bind_assoc]
  refine congrArg _ (funext fun _ => congrArg _ (funext fun _ => congrArg _ (funext fun params =>
    congrArg _ (funext fun _ => congrArg _ (funext fun b => ?_)))))
  cases b.current.isSome <;> simp

def Build.finish (b : Build) : Build :=
  if b.isOpen then (b.define (.imm · 0)).emit (.ret (some ⟨b.nextVReg⟩)) else b

theorem makes_finish (b : Build) : Makes finish b fun _ c => c = b.finish := by
  unfold Lowering.finish Build.finish
  refine ⟨(), _, ?_, ?_, rfl⟩
  · rw [bind_eq_some]
    refine ⟨b, b, rfl, ?_⟩
    unfold Build.isOpen
    cases b.current.isSome <;> rfl
  · split
    · exact (((Relation.ReflTransGen.single (.vreg b)).tail (.emit _ (by trivial))).tail
        (.emit _ (by trivial)))
    · exact .refl

variable (ctx) in
/-- In the end no block is owed. -/
theorem body_made (h : ctx.function.Formed code) :
    Makes (body ctx code) {} fun params b =>
      params.length = ctx.function.params.length ∧ params.Nodup ∧ (∀ id, b.owed id = 0) ∧
        b.isOpen = false := by
  rw [body_eq]
  refine .newBlock (.start ?_)
  refine (spill_made _ h.params _).bind fun params b _ spilled => ?_
  refine (stmt_made code {} h.formed h.numbers b).bind fun _ c _ placed => ?_
  refine (makes_finish c).bind ?_
  rintro _ _ - rfl
  have owed : ∀ id, c.owed id = 0 := by
    intro id
    have empty : Build.owed {} id = 0 := rfl
    rw [placed.owed, spilled.quiet.owed, h.labels, owed_start, owed_withBlock, empty, dues_nil]
    omega
  refine .pure ⟨spilled.length, spilled.distinct, fun id => ?_, ?_⟩
  · unfold Build.finish
    split <;> simp [owed]
  · unfold Build.finish
    split
    · simp [Instruction.isTerminator]
    · simp_all

end MiniC.Ir.Lowering
