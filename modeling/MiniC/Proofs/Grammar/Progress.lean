import Mathlib.Logic.Function.Iterate
import MiniC.Proofs.Grammar.Alike

/-!
# Parsing needs no bound

The rules of the grammar are written over bounds: on the rounds of a loop, on the depth of
initializers and statements, and on the rules for nested phrases. None of them matters. Every
round of every loop takes a token, and so does every rule before it uses the rules for nested
phrases; a bound that is at least the number of tokens is therefore never used up, and whatever
would be done if it were makes no difference.
-/

namespace MiniC

open Parse (Alike AlikeNext Costs Free)

/-- Two records of rules that are made for at least `n` tokens, and that are alike on fewer. -/
structure Below.Alike (b : Below) (n : Nat) (b' : Below) : Prop where
  enough : n ≤ b.limit
  enough' : n ≤ b'.limit
  expr : 1 ≤ n → Costs (n - 1) b.expr b'.expr
  assign : 1 ≤ n → Costs (n - 1) b.assign b'.assign
  conditional : 1 ≤ n → Costs (n - 1) b.conditional b'.conditional
  cast : 1 ≤ n → Costs (n - 1) b.cast b'.cast
  unary : 1 ≤ n → Costs (n - 1) b.unary b'.unary
  declSpec : 1 ≤ n → Costs (n - 1) b.declSpec b'.declSpec

/-! ## Types -/

namespace Grammar

open Parse

variable {α β : Type} {n : Nat} {b b' : Below} (h : b.Alike n b')
include h

variable {m : Nat} {step step' : α → Parse (Round α β)} {a : α} {item item' : CType → Parse Init}

theorem loop_alike (le : m ≤ n) (round : ∀ a, Alike m (step a) (step' a) Round.IsMore) :
    Free m (loop b step a) (loop b' step' a) := by
  have enough := h.enough
  have enough' := h.enough'
  exact iterate_alike round (Nat.le_refl m) (by omega) (by omega) a

theorem loop_alikeAt {P : Round α β → Prop} {R : β → Prop} {s : ParseState}
    (le : s.tokens.length ≤ n) (round : ∀ a, Alike n (step a) (step' a) Round.IsMore)
    (first : AlikeAt s (step a) (step' a) P) (goesOn : ∀ a, P (.more a))
    (ends : ∀ b, R b → P (.done b)) :
    AlikeAt s (loop b step a) (loop b' step' a) R := by
  refine AlikeAt.bind first fun r t _ lt => ?_
  cases r with
  | more a =>
    have fewer := lt (goesOn a)
    have enough := h.enough
    have enough' := h.enough'
    refine (iterate_alike round (Nat.sub_le n 1) (by omega) (by omega) a t (by omega)).weaken ?_
    exact fun _ free => free.2 (goesOn a)
  | done b => exact (Alike.pure fun free => free.2 (ends b free.1)) t (Nat.le_refl _)

omit h in
theorem starPart_alike (ty : CType) : Alike n (starPart ty) (starPart ty) Round.IsMore :=
  .eat (fun _ => .pure id) (.pure id)

theorem pointers_alike (ty : CType) : Free n (pointers b ty) (pointers b' ty) :=
  loop_alike h (Nat.le_refl n) starPart_alike

theorem arrayLength_alike (pos : 1 ≤ n) : Free (n - 1) (arrayLength b) (arrayLength b') := by
  refine (isAt_alike _).andThen fun _ => .ite (.pure id) ?_
  refine (h.conditional pos).andThen fun e => (ofExcept_alike _).andThen fun _ => ?_
  exact .ite (.pure id) .fail

theorem suffixPart_alike (lengths : List (Location × UInt32)) :
    Alike n (suffixPart b lengths) (suffixPart b' lengths) Round.IsMore := by
  refine .eat (fun pos => ?_) (.pure id)
  refine here_alike.andThen fun start => (arrayLength_alike h pos).andThen fun length => ?_
  exact (expect_alike _).map

omit h in
theorem arrayType_alike (element : CType) (start : Location) (length : UInt32) :
    Free n (arrayType element start length) (arrayType element start length) := by
  refine Alike.get.andThen fun s => ?_
  cases s.structs.checkedArray element length with
  | none => exact (spanFrom_alike start).andThen fun _ => .fail
  | some ty => exact .pure id

theorem typeSuffix_alike (ty : CType) : Free n (typeSuffix b ty) (typeSuffix b' ty) := by
  refine (loop_alike h (Nat.le_refl n) (suffixPart_alike h)).andThen fun lengths => ?_
  induction lengths generalizing ty with
  | nil => exact .pure id
  | cons length rest ih => exact (arrayType_alike ty _ _).andThen fun ty => ih ty

theorem declarator_alike (base : CType) : Costs n (declarator b base) (declarator b' base) := by
  refine (pointers_alike h base).andThen fun ty => identifier_alike.after fun name _ => ?_
  exact (typeSuffix_alike h ty).pred.map

omit h in
theorem structTarget_alike (tag : Option (Located String)) :
    Free n (structTarget tag) (structTarget tag) := by
  refine .of_same fun s ref t run => ?_
  rcases structTarget_target tag s with ⟨e, failed, -⟩ | ⟨ref', t', chosen, target⟩
  · rw [failed] at run
    cases run
  · rw [chosen] at run
    cases run
    cases target <;> rfl

theorem memberDeclarator_alike (ty : CType) (members : List (String × CType)) :
    Costs n (memberDeclarator b ty members) (memberDeclarator b' ty members) := by
  refine (declarator_alike h ty).after fun (name, ty) _ => Alike.get.andThen fun s => .check ?_
  exact .eat (fun _ => .pure id) (.pure id)

theorem memberDeclarators_alike (ty : CType) (members : List (String × CType)) :
    Free n (memberDeclarators b ty members) (memberDeclarators b' ty members) :=
  loop_alike h (Nat.le_refl n) fun members =>
    (memberDeclarator_alike h ty members).weaken fun _ _ => trivial

theorem memberLine_alike (pos : 1 ≤ n) (members : List (String × CType)) :
    Alike (n - 1) (memberLine b members) (memberLine b' members) Round.IsMore := by
  refine .eat (fun _ => .pure id) ((h.declSpec pos).after fun spec _ => ?_)
  refine ((memberDeclarators_alike h _ _).le (by omega)).andThen fun members => ?_
  exact (expect_alike _).map

theorem structBody_alike (pos : 1 ≤ n) (tag : Option (Located String)) (start : Location) :
    Free (n - 1) (structBody b tag start) (structBody b' tag start) := by
  refine (structTarget_alike tag).andThen fun ref => ?_
  refine (loop_alike h (Nat.sub_le n 1) (memberLine_alike h pos)).andThen fun members => ?_
  refine Alike.get.andThen fun s => ?_
  cases Layout.compute s.structs members with
  | none => exact (spanFrom_alike start).andThen fun _ => .fail
  | some layout => exact .andThen (.modified fun _ => rfl) fun _ => .pure id

theorem structType_alike (pos : 1 ≤ n) : Free (n - 1) (structType b) (structType b') := by
  refine Alike.get.andThen fun s => identifier?_alike.andThen fun tag => .eat (fun _ => ?_) ?_
  · exact (structBody_alike h pos tag _).pred
  · cases tag with
    | none => exact unexpected_alike _
    | some name =>
      refine Alike.get.andThen fun s => ?_
      cases s.scope.tag? name.value with
      | some ty => exact .pure id
      | none => exact .andThen (.modifyGet fun _ => rfl) fun _ => .pure id

theorem enumerator_alike (next : Int64) :
    Alike n (enumerator b next) (enumerator b' next) Round.IsMore := by
  refine identifier_alike.after fun name pos => ?_
  extract_lets goesOn
  have rest : ∀ value, Free (n - 1) (goesOn value) (goesOn value) := by
    intro value
    refine .andThen (.modified fun _ => rfl) fun _ => .eat (fun _ => ?_) ?_
    · exact .eat (fun _ => .pure id) (.pure id)
    · exact (expect_alike _).map
  refine .eat (fun _ => ?_) (rest next)
  refine (h.conditional pos).pred.andThen fun e => ?_
  exact (ofExcept_alike _).andThen fun value => (rest value).pred

theorem enumType_alike : Free n (enumType b) (enumType b') := by
  refine identifier?_alike.andThen fun tag => .eat (fun _ => ?_) ?_
  · refine (loop_alike h (Nat.sub_le n 1) fun next =>
      (enumerator_alike h next).pred).andThen fun _ => ?_
    cases tag with
    | none => exact .pure id
    | some name => exact .andThen (.modified fun _ => rfl) fun _ => .pure id
  · cases tag with
    | some name => exact .pure id
    | none => exact unexpected_alike _

theorem specWord_alike (words : SpecWords) :
    Alike n (specWord b words) (specWord b' words) (· ≠ .done words) := by
  have one : ∀ {words' : SpecWords} {kind : TokenKind},
      AlikeNext kind n (do advance; return Round.more words') (do advance; return Round.more words')
        (· ≠ .done words) :=
    .advance fun _ => .pure id
  have none : ∀ {kind : TokenKind}, AlikeNext kind n (pure (Round.done words))
      (pure (Round.done words)) (fun r : Round SpecWords SpecWords => r ≠ .done words) :=
    (Alike.pure fun other => other rfl).next
  refine .peek (.pure fun other => other rfl) fun kind => ?_
  cases kind with
  | keyword word =>
    cases base : words.base with
    | none =>
      cases word with
      | struct => exact .advance fun pos => (structType_alike h pos).map
      | enum =>
        exact .advance fun _ => (enumType_alike h).pred.map
      | typedef | external | static | long | int | char | void => exact one
      | _ => exact none
    | some ty =>
      cases word with
      | typedef | external | static | long | int => exact one
      | _ => exact none
  | id name =>
    refine .ite (.get fun s => ?_) none
    cases s.scope.typedef? name with
    | some ty => exact one
    | none => exact none
  | _ => exact none

theorem specWord_progress (words : SpecWords) :
    Alike n (specWord b words) (specWord b' words) Round.IsMore :=
  (specWord_alike h words).weaken fun _ more same => by rw [same] at more; exact more

theorem specWords_alike : Alike n (loop b (specWord b) {}) (loop b' (specWord b') {})
    fun words => words.type? ≠ none := by
  intro s le
  refine loop_alikeAt h le (specWord_progress h) (specWord_alike h {} s le) (fun _ => nofun) ?_
  intro words named same
  cases same
  exact named rfl

theorem declSpec_alike : Costs n (declSpec b) (declSpec b') := by
  refine here_alike.andThen fun start => (specWords_alike h).bind fun words => ?_
  cases named : words.type? with
  | none => exact .fail
  | some ty => exact .pure fun free => free.2 (Option.some_ne_none ty)

/-! ## Expressions -/

theorem typeName_alike : Costs n (typeName b) (typeName b') := by
  refine (declSpec_alike h).after fun spec _ => ?_
  refine (pointers_alike h _).pred.andThen fun ty => ?_
  exact (typeSuffix_alike h ty).pred

omit h in
theorem stringPart_alike (bytes : List UInt8) :
    Alike n (stringPart bytes) (stringPart bytes) Round.IsMore := by
  refine .peek (.pure id) fun kind => ?_
  cases kind with
  | str text => exact .advance fun _ => .pure id
  | _ => exact (Alike.pure id).next

theorem stringLiteral_next (text : String) :
    AlikeNext (.str text) n (stringLiteral b) (stringLiteral b') fun _ => True := by
  intro s next le
  have taken : AlikeNext (.str text) n
      (do advance; return Round.more ([] ++ literalBytes text))
      (do advance; return Round.more ([] ++ literalBytes text))
      fun _ : Round (List UInt8) (List UInt8) => True := .advance fun _ => .pure id
  have first : AlikeAt s (stringPart []) (stringPart []) fun _ => True :=
    .peek next (taken s next le)
  have literal : AlikeAt s (loop b stringPart []) (loop b' stringPart []) fun _ => True :=
    loop_alikeAt h le stringPart_alike first (fun _ => trivial) fun _ _ => trivial
  have rest : ∀ bytes : List UInt8, Free n
      (do return (← spanFrom s.here, bytes)) (do return (← spanFrom s.here, bytes)) :=
    fun bytes => (spanFrom_alike _).map
  exact literal.bind fun bytes t le' _ =>
    (rest bytes t (Nat.le_trans le' le)).weaken fun _ free => free.2 trivial

theorem argumentPart_alike (pos : 1 ≤ n) (args : List Expr) :
    Alike (n - 1) (argumentPart b args) (argumentPart b' args) Round.IsMore := by
  refine (h.assign pos).after fun arg _ => .eat (fun _ => .pure id) ?_
  exact (expect_alike _).map

theorem arguments_alike (pos : 1 ≤ n) : Free (n - 1) (arguments b) (arguments b') :=
  .eat (fun _ => .pure id) (loop_alike h (Nat.sub_le n 1) (argumentPart_alike h pos))

theorem primaryToken_alike (pos : 1 ≤ n) (token : Lexed) :
    Free (n - 1) (primaryToken b token) (primaryToken b' token) := by
  unfold primaryToken
  cases token.value.kind with
  | punct mark =>
    cases mark with
    | openParen => exact (h.expr pos).andThen fun _ => (expect_alike _).map
    | _ => exact .fail
  | int value => exact .pure id
  | id name =>
    refine .eat (fun _ => ?_) (Alike.get.andThen fun s => ?_)
    · refine (arguments_alike h pos).pred.andThen fun args => ?_
      exact (spanFrom_alike _).map
    · cases s.lookup? name token.loc with
      | some e => exact .pure id
      | none => exact .fail
  | _ => exact .fail

theorem primary_alike : Costs n (primary b) (primary b') := by
  have other : Costs n (next >>= primaryToken b) (next >>= primaryToken b') :=
    next_alike.after fun token pos => primaryToken_alike h pos token
  refine .peek other fun kind => ?_
  cases kind with
  | str text =>
    intro s known le
    have rest : ∀ literal : Location × List UInt8, Free n
        (do
          let index ← modifyGet (·.intern literal.2)
          return Expr.str ⟨.void, literal.1⟩ index)
        (do
          let index ← modifyGet (·.intern literal.2)
          return Expr.str ⟨.void, literal.1⟩ index) := by
      refine fun literal => .andThen (.modifyGet fun s => ?_) fun _ => .pure id
      unfold ParseState.intern
      split <;> rfl
    exact (stringLiteral_next h text s known le).bind fun literal t le' _ =>
      (rest literal t (Nat.le_trans le' le)).weaken fun _ free => free.2 trivial
  | _ => exact other.next

theorem postfixPart_alike (e : Expr) :
    Alike n (postfixPart b e) (postfixPart b' e) Round.IsMore := by
  refine .eat (fun pos => ?_) (.eat (fun _ => ?_) (.eat (fun _ => ?_)
    (.eat (fun _ => ?_) (.eat (fun _ => ?_) (.pure id)))))
  · exact (h.expr pos).andThen fun _ => (expect_alike _).andThen fun _ =>
      (spanFrom_alike _).map
  · exact identifier_alike.andThen fun _ => (spanFrom_alike _).map
  · exact identifier_alike.andThen fun _ => (spanFrom_alike _).map
  · exact (spanFrom_alike _).map
  · exact (spanFrom_alike _).map

theorem loopAfter_alike {x y : Parse α} (first : Costs n x y)
    (round : ∀ a, Alike n (step a) (step' a) Round.IsMore) :
    Costs n (x >>= loop b step) (y >>= loop b' step') :=
  first.after fun _ _ => (loop_alike h (Nat.le_refl n) round).pred

theorem postfixExpr_alike : Costs n (postfixExpr b) (postfixExpr b') :=
  loopAfter_alike h (primary_alike h) (postfixPart_alike h)

theorem prefixNode_alike (pos : 1 ≤ n) (start : Location) (node : Note → Expr → Expr) :
    Free (n - 1) (prefixNode b start node) (prefixNode b' start node) :=
  (h.cast pos).andThen fun _ => (spanFrom_alike start).map

theorem prefixUpdate_alike (pos : 1 ≤ n) (op : BinOp) :
    Free (n - 1) (prefixUpdate b op) (prefixUpdate b' op) :=
  (h.unary pos).map

theorem sizeofExpr_alike (pos : 1 ≤ n) (start : Location) :
    Free (n - 1) (sizeofExpr b start) (sizeofExpr b' start) := by
  refine (isAt_alike _).andThen fun _ => Alike.get.andThen fun s => .ite ?_ ?_
  · refine advance_alike.andThen fun _ => (typeName_alike h).pred.andThen fun ty => ?_
    refine (expect_alike _).andThen fun _ => Alike.get.andThen fun s => .ite ?_ .fail
    exact (spanFrom_alike start).map
  · exact (h.unary pos).andThen fun e => (spanFrom_alike start).map

theorem alignofExpr_alike (start : Location) : Free n (alignofExpr b start) (alignofExpr b' start) := by
  refine (expect_alike _).andThen fun _ => (typeName_alike h).andThen fun ty => ?_
  refine (expect_alike _).andThen fun _ => (spanFrom_alike start).andThen fun _ => ?_
  exact Alike.get.map

theorem unary_alike : Costs n (unary b) (unary b') := by
  refine here_alike.andThen fun start => .peek (postfixExpr_alike h) fun kind => ?_
  cases kind with
  | keyword word =>
    cases word with
    | sizeof => exact .advance fun pos => sizeofExpr_alike h pos start
    | alignof => exact .advance fun _ => (alignofExpr_alike h start).pred
    | _ => exact (postfixExpr_alike h).next
  | punct mark =>
    cases mark with
    | plus => exact .advance fun pos => (h.cast pos).free
    | minus | bang | tilde | amp | star => exact .advance fun pos => prefixNode_alike h pos start _
    | inc | dec => exact .advance fun pos => prefixUpdate_alike h pos _
    | _ => exact (postfixExpr_alike h).next
  | _ => exact (postfixExpr_alike h).next

theorem cast_alike : Costs n (cast b) (cast b') := by
  refine (isAt_alike _).andThen fun _ => Alike.get.andThen fun s => .ite ?_ (unary_alike h)
  refine here_alike.andThen fun start => advance_alike.andThen fun _ => ?_
  refine (typeName_alike h).after fun target pos => (expect_alike _).andThen fun _ => ?_
  exact (h.cast pos).map

omit h in
theorem operator?_alike (level : List Operator) :
    Alike n (operator? level) (operator? level) (· ≠ none) := by
  refine .peek (.pure fun other => other rfl) fun kind => ?_
  have none : ∀ {kind : TokenKind}, AlikeNext kind n (pure none) (pure none)
      fun operator : Option Operator => operator ≠ none :=
    (Alike.pure fun other => other rfl).next
  cases kind with
  | punct mark =>
    dsimp only
    cases level.find? (·.mark == mark) with
    | some operator => exact .advance fun _ => .pure id
    | none => exact none
  | _ => exact none

omit h in
theorem operandPart_alike (level : List Operator) {operand operand' : Parse Expr}
    (right : Costs n operand operand') (lhs : Expr) :
    Alike n (operandPart level operand lhs) (operandPart level operand' lhs) Round.IsMore := by
  refine (operator?_alike level).andThen fun operator => ?_
  cases operator with
  | none => exact .pure id
  | some operator => exact right.after fun rhs _ => .ite (.pure id) (.pure id)

theorem binary_alike (levels : List (List Operator)) : Costs n (binary b levels) (binary b' levels) := by
  induction levels with
  | nil => exact cast_alike h
  | cons level tighter ih => exact loopAfter_alike h ih (operandPart_alike level ih)

theorem conditional_alike : Costs n (conditional b) (conditional b') := by
  refine (binary_alike h precedence).after fun test pos => .eat (fun _ => ?_) (.pure id)
  refine (h.expr pos).pred.andThen fun yes => (expect_alike _).andThen fun _ => ?_
  exact (h.conditional pos).pred.map

theorem assign_alike : Costs n (assign b) (assign b') := by
  refine (conditional_alike h).after fun lhs pos => .peek (.pure id) fun kind => ?_
  cases kind with
  | punct mark =>
    dsimp only
    cases assignment? mark with
    | none => exact (Alike.pure id).next
    | some op =>
      refine .advance fun _ => (h.assign pos).pred.andThen fun rhs => ?_
      cases op <;> exact .pure id
  | _ => exact (Alike.pure id).next

theorem commaPart_alike (e : Expr) : Alike n (commaPart b e) (commaPart b' e) Round.IsMore :=
  .eat (fun _ => (assign_alike h).pred.map) (.pure id)

theorem expr_alike : Costs n (expr b) (expr b') :=
  loopAfter_alike h (assign_alike h) (commaPart_alike h)

omit h in
theorem deeper_alike (h : b.Alike n b') : b.deeper.Alike (n + 1) b'.deeper where
  enough := Nat.succ_le_succ h.enough
  enough' := Nat.succ_le_succ h.enough'
  expr := fun _ => expr_alike h
  assign := fun _ => assign_alike h
  conditional := fun _ => conditional_alike h
  cast := fun _ => cast_alike h
  unary := fun _ => unary_alike h
  declSpec := fun _ => declSpec_alike h

/-! ## Initializers -/

omit h in
theorem initializerItem_alike (one : ∀ ty, Costs n (item ty) (item' ty)) (ty : CType)
    (items : List Init) :
    Alike n (initializerItem item ty items) (initializerItem item' ty items) Round.IsMore := by
  refine .eat (fun _ => .pure id) (Alike.get.andThen fun s => (one _).after fun init _ => ?_)
  exact .eat (fun _ => .pure id) ((expect_alike _).map)

theorem initializerOver_alike (le : m ≤ n) (one : 1 ≤ m → ∀ ty, Costs (m - 1) (item ty) (item' ty))
    (ty : CType) :
    Costs m (initializerOver b item ty) (initializerOver b' item' ty) := by
  have value : Costs m (do return Init.expr (← assign b)) (do return Init.expr (← assign b')) :=
    ((assign_alike h).le le).after fun _ _ => .pure id
  refine .eat (fun pos => Alike.get.andThen fun s => ?_) (.peek value fun kind => ?_)
  · refine (loop_alike h (by omega) (initializerItem_alike (one pos) ty)).andThen fun items => ?_
    exact (spanFrom_alike _).map
  · cases kind with
    | str text =>
      refine .ite (fun s next few => ?_) value.next
      refine (stringLiteral_next h text s next (Nat.le_trans few le)).bind fun literal t le' _ => ?_
      exact (Alike.pure fun free => free.2 trivial) t (Nat.le_trans le' few)
    | _ => exact value.next

theorem initializer_alike : ∀ {depth depth' m : Nat}, m ≤ n → m < depth → m < depth' → ∀ ty,
    Costs m (initializer b depth ty) (initializer b' depth' ty)
  | 0, _, _, _, lt, _, _ | _, 0, _, _, _, lt, _ => absurd lt (Nat.not_lt_zero _)
  | _ + 1, _ + 1, _, le, lt, lt', ty =>
    initializerOver_alike h le (fun _ => initializer_alike (by omega) (by omega) (by omega)) ty

theorem initializer?_alike (ty : CType) : Free n (initializer? b ty) (initializer? b' ty) := by
  have enough := h.enough
  have enough' := h.enough'
  refine .eat (fun _ => ?_) (.pure id)
  refine (initializer_alike h (Nat.le_refl n) ?_ ?_ ty).pred.map
  · omega
  · omega

/-! ## Statements -/

theorem typedefPart_alike (base : CType) (u : Unit) :
    Alike n (typedefPart b base u) (typedefPart b' base u) Round.IsMore := by
  refine (declarator_alike h base).after fun (name, ty) _ => ?_
  refine .andThen (.modified fun _ => rfl) fun _ => .eat (fun _ => .pure id) ?_
  exact (expect_alike _).map

theorem typedefNames_alike (base : CType) : Free n (typedefNames b base) (typedefNames b' base) :=
  .eat (fun _ => .pure id) (loop_alike h (Nat.le_refl n) (typedefPart_alike h base))

theorem localVariable_alike (base : CType) :
    Costs n (localVariable b base) (localVariable b' base) := by
  refine (declarator_alike h base).after fun (name, ty) _ => ?_
  refine (initializer?_alike h ty).pred.andThen fun init => ?_
  refine Alike.get.andThen fun s => (ofExcept_alike _).andThen fun ty => .check ?_
  refine .andThen (.modifyGet fun _ => rfl) fun index => ?_
  cases init with
  | none => exact .pure id
  | some init => exact (ofExcept_alike _).map

theorem variablePart_alike (base : CType) (stmts : List Stmt) :
    Alike n (variablePart b base stmts) (variablePart b' base stmts) Round.IsMore := by
  refine (localVariable_alike h base).after fun stmt _ => .eat (fun _ => .pure id) ?_
  exact (expect_alike _).map

theorem declaration_alike : Costs n (declaration b) (declaration b') := by
  refine here_alike.andThen fun start => (declSpec_alike h).after fun spec _ => .ite ?_ (.ite .fail ?_)
  · exact (typedefNames_alike h _).pred.map
  · refine .eat (fun _ => .pure id) ?_
    exact (loop_alike h (Nat.le_refl n) (variablePart_alike h spec.ty)).pred

theorem parenthesized_alike : Costs n (parenthesized b) (parenthesized b') := by
  refine (expect_alike _).after fun _ _ => (expr_alike h).pred.andThen fun e => ?_
  exact (expect_alike _).map

theorem exprBefore?_alike (mark : Punct) : Free n (exprBefore? b mark) (exprBefore? b' mark) := by
  refine (isAt_alike mark).andThen fun _ => .ite (.pure id) ?_
  exact (expr_alike h).map

theorem forInit_alike : Costs n (forInit b) (forInit b') := by
  refine here_alike.andThen fun start => Alike.get.andThen fun s => .ite ?_ (.eat (fun _ => .pure id) ?_)
  · exact (declaration_alike h).after fun _ _ => .pure id
  · exact (expr_alike h).after fun e _ => (expect_alike _).map

theorem plainStatement_alike : Costs n (plainStatement b) (plainStatement b') := by
  refine .eat (fun _ => .pure id) ((expr_alike h).after fun e _ => ?_)
  exact (expect_alike _).map

section Nested

variable {m : Nat} (le : m ≤ n) {nested nested' : Parse Stmt}
include le

theorem blockPart_alike (inner : Costs m nested nested') (stmts : List Stmt) :
    Alike m (blockPart b nested stmts) (blockPart b' nested' stmts) Round.IsMore := by
  refine .eat (fun _ => .pure id) (Alike.get.andThen fun s => .ite ?_ ?_)
  · exact ((declaration_alike h).le le).after fun _ _ => .pure id
  · exact inner.after fun _ _ => .pure id

theorem blockRest_alike (inner : Costs m nested nested') (start : Location) :
    Free m (blockRest b nested start) (blockRest b' nested' start) := by
  refine (loop_alike h le (blockPart_alike h le inner)).andThen fun stmts => ?_
  exact (spanFrom_alike start).map

theorem forRest_alike (inner : Costs m nested nested') (start : Location) :
    Free m (forRest b nested start) (forRest b' nested' start) := by
  refine ((forInit_alike h).le le).andThen fun init => ?_
  refine ((exprBefore?_alike h _).le le).andThen fun test => (expect_alike _).andThen fun _ => ?_
  refine ((exprBefore?_alike h _).le le).andThen fun step => (expect_alike _).andThen fun _ => ?_
  exact inner.andThen fun body => (spanFrom_alike start).map

variable (inner : 1 ≤ m → Costs (m - 1) nested nested')
include inner

theorem compound_alike : Costs m (compound b nested) (compound b' nested') := by
  refine (expect_alike _).after fun _ pos => Alike.get.andThen fun s => inBlock_alike ?_
  exact blockRest_alike h (by omega) (inner pos) _

theorem forStatement_alike : Costs m (forStatement b nested) (forStatement b' nested') := by
  refine here_alike.andThen fun start => advance_alike.andThen fun _ => ?_
  refine (expect_alike _).after fun _ pos => inBlock_alike ?_
  exact forRest_alike h (by omega) (inner pos) start

theorem keywordStatement?_alike (word : Keyword) :
    (keywordStatement? b nested word = none ∧ keywordStatement? b' nested' word = none) ∨
      ∃ rest rest', keywordStatement? b nested word = some rest ∧
        keywordStatement? b' nested' word = some rest' ∧ (1 ≤ m → Free (m - 1) rest rest') := by
  have small : m - 1 ≤ n := by omega
  have paren : Free (m - 1) (parenthesized b) (parenthesized b') :=
    ((parenthesized_alike h).le small).free
  cases word with
  | returnWord =>
    refine .inr ⟨_, _, rfl, rfl, fun pos => .eat (fun _ => .pure id) ?_⟩
    exact ((expr_alike h).le small).andThen fun e => (expect_alike _).map
  | ifWord =>
    refine .inr ⟨_, _, rfl, rfl, fun pos => paren.andThen fun test => (inner pos).andThen fun yes => ?_⟩
    refine .eatKind (fun _ => ?_) (.pure id)
    exact (inner pos).pred.map
  | whileWord | switch =>
    exact .inr ⟨_, _, rfl, rfl, fun pos => paren.andThen fun test =>
      (inner pos).map⟩
  | doWord =>
    refine .inr ⟨_, _, rfl, rfl, fun pos => (inner pos).andThen fun body => ?_⟩
    refine (expectKeyword_alike _).andThen fun _ => paren.andThen fun test => ?_
    exact (expect_alike _).map
  | case =>
    refine .inr ⟨_, _, rfl, rfl, fun pos => ((conditional_alike h).le small).andThen fun e => ?_⟩
    refine (ofExcept_alike _).andThen fun value => (expect_alike _).andThen fun _ => ?_
    exact (inner pos).map
  | default =>
    exact .inr ⟨_, _, rfl, rfl, fun pos => (expect_alike _).andThen fun _ =>
      (inner pos).map⟩
  | breakWord | continueWord =>
    exact .inr ⟨_, _, rfl, rfl, fun pos => (expect_alike _).map⟩
  | _ => exact .inl ⟨rfl, rfl⟩

theorem statementOver_alike : Costs m (statementOver b nested) (statementOver b' nested') := by
  refine here_alike.andThen fun start => ?_
  have plain : Costs m (do let node ← plainStatement b; return node (← spanFrom start))
      (do let node ← plainStatement b'; return node (← spanFrom start)) :=
    ((plainStatement_alike h).le le).after fun node _ =>
      (spanFrom_alike start).map
  refine .peek plain fun kind => ?_
  cases kind with
  | punct mark =>
    cases mark with
    | openCurly => exact (compound_alike h le inner).next
    | _ => exact plain.next
  | keyword word =>
    rcases keywordStatement?_alike h le inner word with
      ⟨absent, absent'⟩ | ⟨rest, rest', found, found', free⟩
    · cases word with
      | forWord => exact (forStatement_alike h le inner).next
      | _ =>
        dsimp only
        rw [absent, absent']
        exact plain.next
    · cases word with
      | forWord => exact (forStatement_alike h le inner).next
      | _ =>
        dsimp only
        rw [found, found']
        refine .advance fun pos => (free pos).andThen fun node => ?_
        exact (spanFrom_alike start).map
  | _ => exact plain.next

end Nested

theorem statement_alike : ∀ {depth depth' m : Nat}, m ≤ n → m < depth → m < depth' →
    Costs m (statement b depth) (statement b' depth')
  | 0, _, _, _, lt, _ | _, 0, _, _, _, lt => absurd lt (Nat.not_lt_zero _)
  | _ + 1, _ + 1, _, le, lt, lt' =>
    statementOver_alike h le fun _ => statement_alike (by omega) (by omega) (by omega)

/-! ## Programs -/

theorem parameterPart_alike (params : List Nat) :
    Alike n (parameterPart b params) (parameterPart b' params) Round.IsMore := by
  refine .eat (fun _ => (expect_alike _).map) ?_
  refine (declSpec_alike h).after fun spec _ => ?_
  refine (pointers_alike h _).pred.andThen fun ty => ?_
  refine identifier?_alike.andThen fun name => here_alike.andThen fun start => ?_
  refine (typeSuffix_alike h ty).pred.andThen fun ty => ?_
  refine .andThen (.modifyGet fun _ => rfl) fun index => .eat (fun _ => .pure id) ?_
  exact (expect_alike _).map

theorem parameters_alike : Free n (parameters b) (parameters b') := by
  have rest : Free n (do if ← eat .closeParen then return ([], false) else loop b (parameterPart b) [])
      (do if ← eat .closeParen then return ([], false) else loop b' (parameterPart b') []) :=
    .eat (fun _ => .pure id) (loop_alike h (Nat.le_refl n) (parameterPart_alike h))
  refine .peek (Alike.get.andThen fun s => .ite ?_ rest) fun kind =>
    (Alike.get.andThen fun s => .ite ?_ rest).next
  all_goals exact advance_alike.andThen fun _ => advance_alike.map

theorem functionBody_alike (name : Located String) :
    Free n (functionBody b name) (functionBody b' name) := by
  have enough := h.enough
  have enough' := h.enough'
  refine .eat (fun _ => .pure id) (Alike.get.andThen fun s => .ite .fail ?_)
  refine (compound_alike h (Nat.le_refl n) fun _ => ?_).map
  exact statement_alike h (Nat.sub_le n 1) (by omega) (by omega)

theorem functionRest_alike (spec : DeclSpec) (ret : CType) (name : Located String) :
    Free n (functionRest b spec ret name) (functionRest b' spec ret name) := by
  refine (expect_alike _).andThen fun _ => (parameters_alike h).andThen fun (params, variadic) => ?_
  exact (functionBody_alike h name).andThen fun body => .modified fun _ => rfl

theorem function_alike (spec : DeclSpec) (ret : CType) (name : Located String) :
    Free n (function b spec ret name) (function b' spec ret name) :=
  .andThen (.modified fun _ => rfl) fun _ => inBlock_alike (functionRest_alike h spec ret name)

theorem globalVariable_alike (spec : DeclSpec) (name : Located String) (ty : CType) :
    Free n (globalVariable b spec name ty) (globalVariable b' spec name ty) := by
  refine (initializer?_alike h ty).andThen fun init => Alike.get.andThen fun s => ?_
  refine (ofExcept_alike _).andThen fun ty => .check ?_
  extract_lets goesOn
  have rest : ∀ image, Free n (goesOn image) (goesOn image) := by
    intro image
    refine .of_same fun s u t run => ?_
    dsimp only [goesOn] at run
    rw [get_bind] at run
    cases defined : s.defineGlobal _ with
    | none =>
      rw [defined] at run
      cases run
    | some s' =>
      rw [defined] at run
      cases run
      obtain ⟨globals, rfl⟩ := ParseState.defineGlobal_eq defined
      rfl
  cases init with
  | none => exact rest none
  | some init => exact (ofExcept_alike _).andThen fun image => rest (some image)

theorem globalPart_alike (spec : DeclSpec) (start : Located String × CType) :
    Alike n (globalPart b spec start) (globalPart b' spec start) Round.IsMore := by
  refine (typeSuffix_alike h _).andThen fun ty => (globalVariable_alike h spec _ ty).andThen fun _ => ?_
  refine .eat (fun _ => ?_) ((expect_alike _).andThen fun _ => .pure id)
  refine (pointers_alike h _).pred.andThen fun ty => ?_
  exact identifier_alike.map

theorem topLevel_alike : Costs n (topLevel b) (topLevel b') := by
  refine (declSpec_alike h).after fun spec _ => .ite ?_ (.eat (fun _ => .pure id) ?_)
  · exact (typedefNames_alike h _).pred
  · refine (pointers_alike h _).pred.andThen fun ty => ?_
    refine identifier_alike.andThen fun name => (isAt_alike _).andThen fun _ => .ite ?_ ?_
    · exact (function_alike h spec ty name).pred
    · exact (loop_alike h (Nat.le_refl n) (globalPart_alike h spec)).pred

theorem topLevelPart_alike (u : Unit) :
    Alike n (topLevelPart b u) (topLevelPart b' u) Round.IsMore := by
  refine .peek (.pure id) fun kind => Alike.next ?_
  exact (topLevel_alike h).after fun _ _ => .pure id

theorem topLevels_alike : Free n (topLevels b) (topLevels b') :=
  loop_alike h (Nat.le_refl n) (topLevelPart_alike h)

/-! ## Bounds -/

omit h in
theorem statement_costs (h : b.Alike n b) (depth : Nat) (le : m ≤ n) :
    Costs m (statement b depth) (statement b depth) := by
  induction depth generalizing m with
  | zero => exact stop_alike _
  | succ depth ih => exact statementOver_alike h le fun _ => ih (by omega)

omit h in
theorem initializer_costs (h : b.Alike n b) (depth : Nat) (le : m ≤ n) (ty : CType) :
    Costs m (initializer b depth ty) (initializer b depth ty) := by
  induction depth generalizing m ty with
  | zero => exact stop_alike _
  | succ depth ih => exact initializerOver_alike h le (fun _ => ih (by omega)) ty

end Grammar

namespace Below

theorem alike_zero (b b' : Below) : b.Alike 0 b' where
  enough := Nat.zero_le _
  enough' := Nat.zero_le _
  expr := nofun
  assign := nofun
  conditional := nofun
  cast := nofun
  unary := nofun
  declSpec := nofun

variable {b other : Below} {n m : Nat}

theorem Alike.mono {b' : Below} (h : b.Alike n b') (le : m ≤ n) : b.Alike m b' where
  enough := Nat.le_trans le h.enough
  enough' := Nat.le_trans le h.enough'
  expr := fun pos => (h.expr (by omega)).le (by omega)
  assign := fun pos => (h.assign (by omega)).le (by omega)
  conditional := fun pos => (h.conditional (by omega)).le (by omega)
  cast := fun pos => (h.cast (by omega)).le (by omega)
  unary := fun pos => (h.unary (by omega)).le (by omega)
  declSpec := fun pos => (h.declSpec (by omega)).le (by omega)

theorem deeper_iterate_alike (b b' : Below) (n : Nat) : (deeper^[n] b).Alike n (deeper^[n] b') := by
  induction n with
  | zero => exact alike_zero b b'
  | succ n ih =>
    rw [Function.iterate_succ_apply', Function.iterate_succ_apply']
    exact Grammar.deeper_alike ih

theorem upTo_eq_iterate (n : Nat) : upTo n = deeper^[n] empty := by
  induction n with
  | zero => rfl
  | succ n ih => rw [upTo, ih, Function.iterate_succ_apply']

theorem upTo_alike (n : Nat) : (upTo n).Alike n (upTo n) := by
  rw [upTo_eq_iterate]
  exact deeper_iterate_alike empty empty n

theorem deeper_iterate_alike_upTo (base : Below) (le : m ≤ n) :
    (deeper^[n] base).Alike m (upTo m) := by
  obtain ⟨more, rfl⟩ := Nat.exists_eq_add_of_le le
  rw [upTo_eq_iterate, Function.iterate_add_apply]
  exact deeper_iterate_alike _ _ m

/-- Rules that do on fewer than `n` tokens what those of a record do. -/
structure Agree (b : Below) (n : Nat) (other : Below) : Prop where
  enough : n ≤ other.limit
  expr : ∀ s : ParseState, s.tokens.length < n → other.expr s = b.expr s
  assign : ∀ s : ParseState, s.tokens.length < n → other.assign s = b.assign s
  conditional : ∀ s : ParseState, s.tokens.length < n → other.conditional s = b.conditional s
  cast : ∀ s : ParseState, s.tokens.length < n → other.cast s = b.cast s
  unary : ∀ s : ParseState, s.tokens.length < n → other.unary s = b.unary s
  declSpec : ∀ s : ParseState, s.tokens.length < n → other.declSpec s = b.declSpec s

theorem Agree.alike (h : b.Agree n other) (self : b.Alike n b) :
    other.Alike n b where
  enough := h.enough
  enough' := self.enough'
  expr := fun pos => (self.expr pos).of_agree fun s few => h.expr s (by omega)
  assign := fun pos => (self.assign pos).of_agree fun s few => h.assign s (by omega)
  conditional := fun pos => (self.conditional pos).of_agree fun s few => h.conditional s (by omega)
  cast := fun pos => (self.cast pos).of_agree fun s few => h.cast s (by omega)
  unary := fun pos => (self.unary pos).of_agree fun s few => h.unary s (by omega)
  declSpec := fun pos => (self.declSpec pos).of_agree fun s few => h.declSpec s (by omega)

theorem Alike.agree (h : other.Alike n b) : b.Agree n other where
  enough := h.enough
  expr := fun s few => (h.expr (by omega) s (by omega)).1
  assign := fun s few => (h.assign (by omega) s (by omega)).1
  conditional := fun s few => (h.conditional (by omega) s (by omega)).1
  cast := fun s few => (h.cast (by omega) s (by omega)).1
  unary := fun s few => (h.unary (by omega) s (by omega)).1
  declSpec := fun s few => (h.declSpec (by omega) s (by omega)).1

end Below

namespace Grammar

open Parse

/-- Every round of a loop on at most `n` tokens takes one, unless it is the last or fails. -/
def Advances {α β : Type} (n : Nat) (step : α → Parse (Round α β)) : Prop :=
  ∀ a s a' t, s.tokens.length ≤ n → step a s = .ok (.more a') t → t.tokens.length < s.tokens.length

variable {n : Nat} {below : Below}

theorem Advances.of_alike {α β : Type} {step step' : α → Parse (Round α β)}
    (h : ∀ a, Alike n (step a) (step' a) Round.IsMore) : Advances n step :=
  fun a s a' t few run => ((h a s few).2 (.more a') t run).2 trivial

/-- The loops of the grammar advance on at most `n` tokens. The members of a struct and the
arguments of a call follow a token, so that one token less is left for them. -/
structure LoopsAdvance (below : Below) (n : Nat) : Prop where
  stars : Advances n starPart
  suffixes : Advances n (suffixPart below)
  memberDeclarators : ∀ ty, Advances n (memberDeclarator below ty)
  memberLines : 1 ≤ n → Advances (n - 1) (memberLine below)
  enumerators : Advances n (enumerator below)
  specWords : Advances n (specWord below)
  stringParts : Advances n stringPart
  arguments : 1 ≤ n → Advances (n - 1) (argumentPart below)
  postfixes : Advances n (postfixPart below)
  operands : ∀ level tighter, Advances n (operandPart level (binary below tighter))
  commas : Advances n (commaPart below)
  initializerItems : ∀ depth ty, Advances n (initializerItem (initializer below depth) ty)
  typedefs : ∀ base, Advances n (typedefPart below base)
  locals : ∀ base, Advances n (variablePart below base)
  blockParts : ∀ depth, Advances n (blockPart below (statement below depth))
  parameters : Advances n (parameterPart below)
  globals : ∀ spec, Advances n (globalPart below spec)
  topLevels : Advances n (topLevelPart below)

/-- Every loop of the grammar advances. -/
theorem loopsAdvance (h : below.Alike n below) :
    LoopsAdvance below n where
  stars := .of_alike starPart_alike
  suffixes := .of_alike (suffixPart_alike h)
  memberDeclarators := fun ty => .of_alike fun members =>
    (memberDeclarator_alike h ty members).weaken fun _ _ => trivial
  memberLines := fun pos => .of_alike (memberLine_alike h pos)
  enumerators := .of_alike (enumerator_alike h)
  specWords := .of_alike (specWord_progress h)
  stringParts := .of_alike stringPart_alike
  arguments := fun pos => .of_alike (argumentPart_alike h pos)
  postfixes := .of_alike (postfixPart_alike h)
  operands := fun level tighter => .of_alike (operandPart_alike level (binary_alike h tighter))
  commas := .of_alike (commaPart_alike h)
  initializerItems := fun depth ty =>
    .of_alike (initializerItem_alike (initializer_costs h depth (Nat.le_refl n)) ty)
  typedefs := fun base => .of_alike (typedefPart_alike h base)
  locals := fun base => .of_alike (variablePart_alike h base)
  blockParts := fun depth =>
    .of_alike (blockPart_alike h (Nat.le_refl n) (statement_costs h depth (Nat.le_refl n)))
  parameters := .of_alike (parameterPart_alike h)
  globals := fun spec => .of_alike (globalPart_alike h spec)
  topLevels := .of_alike (topLevelPart_alike h)

/-- Recursion is guarded: what the rules do on `n` tokens depends only on what the rules for
nested phrases, nested statements and nested initializers do on fewer. -/
structure Guarded (below : Below) (n : Nat) : Prop where
  rules : ∀ other m, m ≤ n → below.Agree m other → below.deeper.Agree (m + 1) other.deeper
  statements : ∀ nested depth, (∀ s, s.tokens.length < n → nested s = statement below depth s) →
    ∀ s, s.tokens.length ≤ n → statementOver below nested s = statement below (depth + 1) s
  initializers : ∀ item depth,
    (∀ ty s, s.tokens.length < n → item ty s = initializer below depth ty s) →
    ∀ ty s, s.tokens.length ≤ n → initializerOver below item ty s = initializer below (depth + 1) ty s

/-- Every recursion of the grammar is guarded. -/
theorem guarded (h : below.Alike n below) : Guarded below n where
  rules := fun other m le agree => (deeper_alike (agree.alike (h.mono le))).agree
  statements := by
    intro nested depth agree s few
    refine (statementOver_alike h (Nat.le_refl n) (fun pos => ?_) s few).1
    exact (statement_costs h depth (Nat.sub_le n 1)).of_agree fun s few => agree s (by omega)
  initializers := by
    intro item depth agree ty s few
    refine (initializerOver_alike h (Nat.le_refl n) (fun pos ty => ?_) ty s few).1
    exact (initializer_costs h depth (Nat.sub_le n 1) ty).of_agree fun s few => agree ty s (by omega)

end Grammar

namespace Program

open Grammar

theorem parseWith_deeper_iterate (base : Below) (source : Source) {tokens : List Lexed} {n : Nat}
    (enough : tokens.length ≤ n) :
    parseWith (Below.deeper^[n] base) source tokens = parse source tokens := by
  have same := (topLevels_alike (base.deeper_iterate_alike_upTo enough)
    { tokens, last := Location.atStart source } (Nat.le_refl _)).1
  rw [parse, parseWith, same, parseWith]

/-- Parsing ends by itself, for any tokens. Whatever rules are used for phrases nested as deep as
there are tokens or deeper, and whatever error a loop would stop with after as many rounds, the
result is that of `parse`. For, on any number of tokens, every round of every loop takes a token
or is the last, and every recursion takes one first. -/
theorem parse_unbounded (source : Source) (tokens : List Lexed) :
    (∀ base n, tokens.length ≤ n →
      parseWith (Below.deeper^[n] base) source tokens = parse source tokens) ∧
    ∀ n, LoopsAdvance (.upTo n) n ∧ Guarded (.upTo n) n :=
  ⟨fun base _ enough => parseWith_deeper_iterate base source enough,
    fun n => ⟨loopsAdvance (Below.upTo_alike n), guarded (Below.upTo_alike n)⟩⟩

/-- A word that nothing follows is refused for the same reason whatever a loop would stop with. -/
theorem parse_unbounded_loneWord :
    let source : Source := ⟨"a.c", "int"⟩
    let tokens : List Lexed := [⟨⟨.keyword .int, true⟩, ⟨source, ⟨1, 1⟩, ⟨1, 4⟩⟩⟩]
    tokens.length ≤ 1 ∧
      parseWith (Below.deeper^[1] { Below.empty with stuck := .tooLarge }) source tokens =
        parse source tokens ∧
      LoopsAdvance (.upTo 1) 1 ∧ Guarded (.upTo 1) 1 :=
  ⟨Nat.le_refl 1, (parse_unbounded _ _).1 _ 1 (Nat.le_refl 1), (parse_unbounded ⟨"a.c", "int"⟩ []).2 1⟩

end Program

end MiniC
