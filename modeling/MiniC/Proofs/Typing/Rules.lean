import MiniC.Proofs.Computations
import MiniC.Proofs.Typing.Formed

/-!
# Typing as a relation

Typing an expression succeeds exactly if each node of it has a rule, and so does the walk over a
statement. What holds of every typed tree is proved by induction on these rules.
-/

namespace MiniC

namespace Typing

mutual
/-- What typing makes of an expression. -/
inductive Makes (Γ : Context) : Expr → Expr → Prop
  | num : Makes Γ (.num note value) (num note value)
  | str : Makes Γ (.str note index) (str Γ note.loc index)
  | var : Makes Γ (.var note index) (var Γ note.loc index)
  | global (rule : global Γ note.loc name = .ok (.global ⟨ty, note.loc⟩ name)) :
    Makes Γ (.global note name) (.global ⟨ty, note.loc⟩ name)
  | binary (left : Makes Γ lhs l) (right : Makes Γ rhs r)
      (rule : binary Γ note.loc op scaled l r = .ok e) : Makes Γ (.binary note op scaled lhs rhs) e
  | assign (left : Makes Γ lhs l) (right : Makes Γ rhs r)
      (rule : assign note.loc l r = .ok (.assign ⟨l.ty, note.loc⟩ l r)) :
    Makes Γ (.assign note lhs rhs) (.assign ⟨l.ty, note.loc⟩ l r)
  | comma (left : Makes Γ lhs l) (right : Makes Γ rhs r) :
    Makes Γ (.comma note lhs rhs) (comma note.loc l r)
  | cond (first : Makes Γ test t) (truth : operand t = .ok ()) (second : Makes Γ yes y)
      (third : Makes Γ no n) (rule : branchType Γ note.loc y.ty n.ty = .ok ty) :
    Makes Γ (.cond note test yes no) (.cond ⟨ty, note.loc⟩ t y n)
  | unary (inner : Makes Γ e e') (rule : unary note.loc op e' = .ok (.unary ⟨ty, note.loc⟩ op e')) :
    Makes Γ (.unary note op e) (.unary ⟨ty, note.loc⟩ op e')
  | addr (inner : Makes Γ e e') (rule : addr note.loc e' = .ok (.addr ⟨.ptr e'.ty, note.loc⟩ e')) :
    Makes Γ (.addr note e) (.addr ⟨.ptr e'.ty, note.loc⟩ e')
  | deref (inner : Makes Γ e e') (rule : deref note.loc e' = .ok (.deref ⟨ty, note.loc⟩ e')) :
    Makes Γ (.deref note e) (.deref ⟨ty, note.loc⟩ e')
  | member (inner : Makes Γ e e')
      (rule : member Γ note.loc e' name = .ok (.member ⟨ty, note.loc⟩ e' name offset)) :
    Makes Γ (.member note e name old) (.member ⟨ty, note.loc⟩ e' name offset)
  | call (inner : MakesAll Γ args args') (few : args'.length ≤ maxArguments)
      (rule : call Γ note.loc callee args' = .ok (.call ⟨ty, note.loc⟩ callee args')) :
    Makes Γ (.call note callee args) (.call ⟨ty, note.loc⟩ callee args')
  | cast (inner : Makes Γ e e')
      (rule : cast note.loc target e' = .ok (.cast ⟨target, note.loc⟩ target e')) :
    Makes Γ (.cast note target e) (.cast ⟨target, note.loc⟩ target e')
  | sizeof (inner : Makes Γ e e') (known : Γ.structs.isComplete e'.ty) :
    Makes Γ (.sizeof note e) (sizeAt note.loc (Γ.structs.size e'.ty))
  | update (inner : Makes Γ e e') (rule : update Γ note.loc dir e' = .ok made) :
    Makes Γ (.update note dir e) made
inductive MakesAll (Γ : Context) : List Expr → List Expr → Prop
  | nil : MakesAll Γ [] []
  | cons (first : Makes Γ e e') (passed : argument e' = .ok ()) (rest : MakesAll Γ es es') :
    MakesAll Γ (e :: es) (e' :: es')
end

mutual
/-- What the walk over a statement makes of it, and of the labels. -/
inductive Walks (Γ : Context) : Inside → Stmt → Labels → Stmt → Labels → Prop
  | expr (typed : expr Γ e = .ok e') : Walks Γ inside (.expr loc e) l (.expr loc e') l
  | ret (typed : optional (returned Γ) v = .ok v') : Walks Γ inside (.ret loc v) l (.ret loc v') l
  | branch (test : condition Γ e = .ok e') (yes : Walks Γ inside s l s' m)
      (no : WalksOptional Γ inside o m o' r) :
    Walks Γ inside (.branch loc e s o) l (.branch loc e' s' o') r
  | whileLoop (test : condition Γ e = .ok e') (body : Walks Γ ⟨true, true⟩ s l s' r) :
    Walks Γ inside (.whileLoop loc e s) l (.whileLoop loc e' s') r
  | doLoop (test : condition Γ e = .ok e') (body : Walks Γ ⟨true, true⟩ s l s' r) :
    Walks Γ inside (.doLoop loc s e) l (.doLoop loc s' e') r
  | forLoop (init : WalksOptional Γ inside o l o' m) (test : optional (condition Γ) t = .ok t')
      (step : optional (expr Γ) p = .ok p') (body : Walks Γ ⟨true, true⟩ s m s' r) :
    Walks Γ inside (.forLoop loc o t p s) l (.forLoop loc o' t' p' s') r
  | switch (value : condition Γ e = .ok e')
      (body : Walks Γ { inside with breakable := true } s ⟨l.next, some []⟩ s' m) :
    Walks Γ inside (.switch loc e s old) l (.switch loc e' s' (m.cases.getD []))
      { m with cases := l.cases }
  | case (numbered : number label l = .ok (k, m))
      (listed : register loc ⟨some value, k⟩ m = .ok ((), r)) (body : Walks Γ inside s r s' l') :
    Walks Γ inside (.case loc value label s) l (.case loc value (some k) s') l'
  | default (numbered : number label l = .ok (k, m))
      (listed : register loc ⟨none, k⟩ m = .ok ((), r)) (body : Walks Γ inside s r s' l') :
    Walks Γ inside (.default loc label s) l (.default loc (some k) s') l'
  | exit (allowed : inside.breakable) : Walks Γ inside (.exit loc) l (.exit loc) l
  | next (allowed : inside.loop) : Walks Γ inside (.next loc) l (.next loc) l
  | block (body : WalksAll Γ inside ss l ss' r) : Walks Γ inside (.block loc ss) l (.block loc ss') r
  | null : Walks Γ inside (.null loc) l (.null loc) l
inductive WalksOptional (Γ : Context) : Inside → Option Stmt → Labels → Option Stmt → Labels → Prop
  | none : WalksOptional Γ inside none l none l
  | some (body : Walks Γ inside s l s' r) : WalksOptional Γ inside (some s) l (some s') r
inductive WalksAll (Γ : Context) : Inside → List Stmt → Labels → List Stmt → Labels → Prop
  | nil : WalksAll Γ inside [] l [] l
  | cons (first : Walks Γ inside s l s' m) (rest : WalksAll Γ inside ss m ss' r) :
    WalksAll Γ inside (s :: ss) l (s' :: ss') r
end

/-! ## Expressions -/

variable {α β : Type} {Γ : Context} {loc : Location} {e e' lhs rhs : Expr}

theorem assign_eq_ok (h : assign loc lhs rhs = .ok e) : e = .assign ⟨lhs.ty, loc⟩ lhs rhs := by
  unfold assign at h
  split at h
  · cases h
  · split at h
    · cases h
    · split at h <;> cases h
      rfl

theorem assign_target (h : assign loc lhs rhs = .ok e) :
    lhs.isLvalue = true ∧ lhs.ty.isAggregate = false := by
  unfold assign at h
  split at h
  · cases h
  next free => simpa using free

theorem unary_eq_ok {op : UnOp} (h : unary loc op e = .ok e') : ∃ ty, e' = .unary ⟨ty, loc⟩ op e := by
  unfold unary at h
  split at h
  · simp only [bind_eq_ok, pure_eq_ok] at h
    obtain ⟨-, -, rfl⟩ := h
    exact ⟨_, rfl⟩
  all_goals
    split at h <;> cases h
    exact ⟨_, rfl⟩

theorem call_eq_ok {callee : String} {args : List Expr} (h : call Γ loc callee args = .ok e) :
    args.length ≤ maxArguments ∧ ∃ ty, e = .call ⟨ty, loc⟩ callee args := by
  simp only [call] at h
  split at h
  · cases h
  · refine ⟨Nat.le_of_not_lt ‹_›, ?_⟩
    split at h
    all_goals
      split at h <;> cases h
      exact ⟨_, rfl⟩

theorem cast_eq_ok {target : CType} (h : cast loc target e = .ok e') :
    e' = .cast ⟨target, loc⟩ target e := by
  unfold cast at h
  split at h <;> cases h
  rfl

mutual
/-- Typing an expression goes by the rules. -/
theorem expr_makes : (e : Expr) → ∀ ⦃e' : Expr⦄, expr Γ e = .ok e' → Makes Γ e e'
  | .num .., _, rfl => .num
  | .str .., _, rfl => .str
  | .var .., _, rfl => .var
  | .global note name, e', h => by
    have rule : global Γ note.loc name = .ok e' := h
    rw [expr, global] at h
    split at h <;> cases h
    exact .global rule
  | .binary _ _ _ lhs rhs, _, h => by
    simp only [expr, bind_eq_ok] at h
    obtain ⟨_, hl, _, hr, rule⟩ := h
    exact .binary (expr_makes lhs hl) (expr_makes rhs hr) rule
  | .assign _ lhs rhs, _, h => by
    simp only [expr, bind_eq_ok] at h
    obtain ⟨_, hl, _, hr, rule⟩ := h
    obtain rfl := assign_eq_ok rule
    exact .assign (expr_makes lhs hl) (expr_makes rhs hr) rule
  | .comma _ lhs rhs, _, h => by
    simp only [expr, bind_eq_ok, pure_eq_ok] at h
    obtain ⟨_, hl, _, hr, rfl⟩ := h
    exact .comma (expr_makes lhs hl) (expr_makes rhs hr)
  | .cond _ test yes no, _, h => by
    simp only [expr, cond, bind_eq_ok, pure_eq_ok] at h
    obtain ⟨_, ht, _, truth, _, hy, _, hz, _, rule, rfl⟩ := h
    exact .cond (expr_makes test ht) truth (expr_makes yes hy) (expr_makes no hz) rule
  | .unary _ _ operand, _, h => by
    obtain ⟨_, he, rule⟩ := bind_eq_ok.mp h
    obtain ⟨_, rfl⟩ := unary_eq_ok rule
    exact .unary (expr_makes operand he) rule
  | .addr _ operand, _, h => by
    obtain ⟨_, he, rule⟩ := bind_eq_ok.mp h
    have made := rule
    unfold addr at made
    split at made <;> cases made
    exact .addr (expr_makes operand he) rule
  | .deref _ operand, _, h => by
    obtain ⟨_, he, rule⟩ := bind_eq_ok.mp h
    have made := rule
    unfold deref at made
    split at made
    · split at made <;> cases made
      exact .deref (expr_makes operand he) rule
    · cases made
  | .member _ base _ _, _, h => by
    obtain ⟨_, he, rule⟩ := bind_eq_ok.mp h
    have made := rule
    simp only [member] at made
    split at made <;> cases made
    exact .member (expr_makes base he) rule
  | .call _ _ args, _, h => by
    obtain ⟨_, ha, rule⟩ := bind_eq_ok.mp h
    obtain ⟨few, _, rfl⟩ := call_eq_ok rule
    exact .call (arguments_makes args ha) few rule
  | .cast _ _ operand, _, h => by
    obtain ⟨_, he, rule⟩ := bind_eq_ok.mp h
    obtain rfl := cast_eq_ok rule
    exact .cast (expr_makes operand he) rule
  | .sizeof _ operand, _, h => by
    simp only [expr, bind_eq_ok, sizeof] at h
    obtain ⟨_, he, h⟩ := h
    split at h <;> cases h
    exact .sizeof (expr_makes operand he) ‹_›
  | .update _ _ target, _, h => by
    obtain ⟨_, he, rule⟩ := bind_eq_ok.mp h
    exact .update (expr_makes target he) rule
theorem arguments_makes : (args : List Expr) →
    ∀ ⦃args' : List Expr⦄, arguments Γ args = .ok args' → MakesAll Γ args args'
  | [], _, rfl => .nil
  | arg :: args, _, h => by
    simp only [arguments, bind_eq_ok, pure_eq_ok] at h
    obtain ⟨_, ha, _, passed, _, has, rfl⟩ := h
    exact .cons (expr_makes arg ha) passed (arguments_makes args has)
end

mutual
theorem Makes.eq_ok {e e' : Expr} : Makes Γ e e' → expr Γ e = .ok e'
  | .num | .str | .var => rfl
  | .global rule => rule
  | .binary left right rule | .assign left right rule =>
    bind_eq_ok.mpr ⟨_, left.eq_ok, bind_eq_ok.mpr ⟨_, right.eq_ok, rule⟩⟩
  | .comma left right => bind_eq_ok.mpr ⟨_, left.eq_ok, bind_eq_ok.mpr ⟨_, right.eq_ok, rfl⟩⟩
  | .cond first truth second third rule => by
    simp only [expr, cond, bind_eq_ok]
    exact ⟨_, first.eq_ok, (), truth, _, second.eq_ok, _, third.eq_ok, _, rule, rfl⟩
  | .unary inner rule | .addr inner rule | .deref inner rule | .member inner rule | .cast inner rule
  | .update inner rule | .call inner _ rule => bind_eq_ok.mpr ⟨_, inner.eq_ok, rule⟩
  | .sizeof inner known => bind_eq_ok.mpr ⟨_, inner.eq_ok, if_pos known⟩
theorem MakesAll.eq_ok {es es' : List Expr} : MakesAll Γ es es' → arguments Γ es = .ok es'
  | .nil => rfl
  | .cons first passed rest => by
    simp only [arguments, bind_eq_ok]
    exact ⟨_, first.eq_ok, (), passed, _, rest.eq_ok, rfl⟩
end

/-! ## Statements -/

variable {l l' : Labels}

theorem walk_bind_eq_ok {x : Walk α} {f : α → Walk β} {b : β} :
    (x >>= f) l = .ok (b, l') ↔ ∃ a m, x l = .ok (a, m) ∧ f a m = .ok (b, l') :=
  bind_eq_ok.trans ⟨fun ⟨(a, m), first, rest⟩ => ⟨a, m, first, rest⟩,
    fun ⟨a, m, first, rest⟩ => ⟨(a, m), first, rest⟩⟩

theorem walk_pure_eq_ok {a b : α} :
    (pure a : Walk α) l = .ok (b, l') ↔ a = b ∧ l = l' :=
  pure_eq_ok.trans Prod.mk_inj

theorem lift_eq_ok {x : Result α} {a : α} :
    (liftM x : Walk α) l = .ok (a, l') ↔ x = .ok a ∧ l = l' := by
  refine bind_eq_ok.trans ⟨?_, ?_⟩
  · rintro ⟨b, hb, same⟩
    cases same
    exact ⟨hb, rfl⟩
  · rintro ⟨ha, rfl⟩
    exact ⟨a, ha, rfl⟩

theorem inSwitch_eq_ok {step : Walk α} {a : α} {cases : List CaseLabel} :
    inSwitch step l = .ok ((a, cases), l') ↔ ∃ m, step ⟨l.next, some []⟩ = .ok (a, m) ∧
      cases = m.cases.getD [] ∧ l' = { m with cases := l.cases } := by
  simp only [inSwitch, walk_bind_eq_ok, walk_pure_eq_ok]
  constructor
  · rintro ⟨_, _, first, _, _, second, a', m, run, _, _, third, _, _, fourth, same, rfl⟩
    cases first
    cases second
    cases third
    cases fourth
    cases same
    exact ⟨m, run, rfl, rfl⟩
  · rintro ⟨m, run, rfl, rfl⟩
    exact ⟨_, _, rfl, _, _, rfl, a, m, run, _, _, rfl, _, _, rfl, rfl, rfl⟩

mutual
/-- Typing a statement goes by the rules. -/
theorem stmt_walks : (s : Stmt) → {inside : Inside} → ∀ ⦃l l' : Labels⦄ ⦃s' : Stmt⦄,
    stmt Γ inside s l = .ok (s', l') → Walks Γ inside s l s' l'
  | .expr .., _, l, l', s', h | .ret .., _, l, l', s', h => by
    simp only [stmt, walk_bind_eq_ok, walk_pure_eq_ok, lift_eq_ok] at h
    obtain ⟨_, _, ⟨typed, rfl⟩, rfl, rfl⟩ := h
    constructor
    exact typed
  | .branch _ _ yes no, _, l, l', s', h => by
    simp only [stmt, walk_bind_eq_ok, walk_pure_eq_ok, lift_eq_ok] at h
    obtain ⟨_, _, ⟨test, rfl⟩, _, _, first, _, _, second, rfl, rfl⟩ := h
    exact .branch test (stmt_walks yes first) (optionalStmt_walks no second)
  | .whileLoop _ _ body, _, l, l', s', h | .doLoop _ body _, _, l, l', s', h => by
    simp only [stmt, walk_bind_eq_ok, walk_pure_eq_ok, lift_eq_ok] at h
    obtain ⟨_, _, ⟨test, rfl⟩, _, _, typed, rfl, rfl⟩ := h
    constructor
    exacts [test, stmt_walks body typed]
  | .forLoop _ init _ _ body, _, l, l', s', h => by
    simp only [stmt, walk_bind_eq_ok, walk_pure_eq_ok, lift_eq_ok] at h
    obtain ⟨_, _, first, _, _, ⟨test, rfl⟩, _, _, ⟨step, rfl⟩, _, _, typed, rfl, rfl⟩ := h
    exact .forLoop (optionalStmt_walks init first) test step (stmt_walks body typed)
  | .switch _ _ body _, _, l, l', s', h => by
    simp only [stmt, walk_bind_eq_ok, walk_pure_eq_ok, lift_eq_ok] at h
    obtain ⟨_, _, ⟨value, rfl⟩, _, _, inner, rfl, rfl⟩ := h
    obtain ⟨_, typed, same, rfl⟩ := inSwitch_eq_ok.mp inner
    rw [same]
    exact .switch value (stmt_walks body typed)
  | .case _ _ _ body, _, l, l', s', h | .default _ _ body, _, l, l', s', h => by
    simp only [stmt, walk_bind_eq_ok, walk_pure_eq_ok] at h
    obtain ⟨_, _, numbered, _, _, listed, _, _, typed, rfl, rfl⟩ := h
    constructor
    exacts [numbered, listed, stmt_walks body typed]
  | .exit _, _, l, l', s', h | .next _, _, l, l', s', h => by
    rw [stmt] at h
    split at h <;> cases h
    constructor
    assumption
  | .block _ body, _, l, l', s', h => by
    simp only [stmt, walk_bind_eq_ok, walk_pure_eq_ok] at h
    obtain ⟨_, _, typed, rfl, rfl⟩ := h
    exact .block (stmts_walks body typed)
  | .null _, _, _, _, _, rfl => .null
theorem optionalStmt_walks : (s : Option Stmt) → {inside : Inside} → ∀ ⦃l l' : Labels⦄
    ⦃s' : Option Stmt⦄, optionalStmt Γ inside s l = .ok (s', l') → WalksOptional Γ inside s l s' l'
  | none, _, _, _, _, rfl => .none
  | some s, _, l, l', s', h => by
    simp only [optionalStmt, walk_bind_eq_ok, walk_pure_eq_ok] at h
    obtain ⟨_, _, typed, rfl, rfl⟩ := h
    exact .some (stmt_walks s typed)
theorem stmts_walks : (ss : List Stmt) → {inside : Inside} → ∀ ⦃l l' : Labels⦄
    ⦃ss' : List Stmt⦄, stmts Γ inside ss l = .ok (ss', l') → WalksAll Γ inside ss l ss' l'
  | [], _, _, _, _, rfl => .nil
  | s :: rest, _, l, l', ss', h => by
    simp only [stmts, walk_bind_eq_ok, walk_pure_eq_ok] at h
    obtain ⟨_, _, first, _, _, typed, rfl, rfl⟩ := h
    exact .cons (stmt_walks s first) (stmts_walks rest typed)
end

mutual
/-- What the rules give is the result of typing. -/
theorem Walks.eq_ok {inside : Inside} {s s' : Stmt} {l l' : Labels} :
    Walks Γ inside s l s' l' → stmt Γ inside s l = .ok (s', l')
  | .expr typed | .ret typed => by
    simp only [stmt, walk_bind_eq_ok, walk_pure_eq_ok, lift_eq_ok]
    exact ⟨_, _, ⟨typed, rfl⟩, rfl, rfl⟩
  | .branch test yes no => by
    simp only [stmt, walk_bind_eq_ok, walk_pure_eq_ok, lift_eq_ok]
    exact ⟨_, _, ⟨test, rfl⟩, _, _, yes.eq_ok, _, _, no.eq_ok, rfl, rfl⟩
  | .whileLoop test body | .doLoop test body => by
    simp only [stmt, walk_bind_eq_ok, walk_pure_eq_ok, lift_eq_ok]
    exact ⟨_, _, ⟨test, rfl⟩, _, _, body.eq_ok, rfl, rfl⟩
  | .forLoop init test step body => by
    simp only [stmt, walk_bind_eq_ok, walk_pure_eq_ok, lift_eq_ok]
    exact ⟨_, _, init.eq_ok, _, _, ⟨test, rfl⟩, _, _, ⟨step, rfl⟩, _, _, body.eq_ok, rfl, rfl⟩
  | .switch value body => by
    simp only [stmt, walk_bind_eq_ok, walk_pure_eq_ok, lift_eq_ok]
    exact ⟨_, _, ⟨value, rfl⟩, (_, _), _, inSwitch_eq_ok.mpr ⟨_, body.eq_ok, rfl, rfl⟩, rfl, rfl⟩
  | .case numbered listed body | .default numbered listed body => by
    simp only [stmt, walk_bind_eq_ok, walk_pure_eq_ok]
    exact ⟨_, _, numbered, (), _, listed, _, _, body.eq_ok, rfl, rfl⟩
  | .exit allowed | .next allowed => by
    rw [stmt, if_pos allowed]
    rfl
  | .block body => by
    simp only [stmt, walk_bind_eq_ok, walk_pure_eq_ok]
    exact ⟨_, _, body.eq_ok, rfl, rfl⟩
  | .null => rfl
theorem WalksOptional.eq_ok {inside : Inside} {s s' : Option Stmt} {l l' : Labels} :
    WalksOptional Γ inside s l s' l' → optionalStmt Γ inside s l = .ok (s', l')
  | .none => rfl
  | .some body => by
    simp only [optionalStmt, walk_bind_eq_ok, walk_pure_eq_ok]
    exact ⟨_, _, body.eq_ok, rfl, rfl⟩
theorem WalksAll.eq_ok {inside : Inside} {ss ss' : List Stmt} {l l' : Labels} :
    WalksAll Γ inside ss l ss' l' → stmts Γ inside ss l = .ok (ss', l')
  | .nil => rfl
  | .cons first rest => by
    simp only [stmts, walk_bind_eq_ok, walk_pure_eq_ok]
    exact ⟨_, _, first.eq_ok, _, _, rest.eq_ok, rfl, rfl⟩
end

end Typing

end MiniC
