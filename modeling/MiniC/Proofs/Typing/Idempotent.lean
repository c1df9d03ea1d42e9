import MiniC.Compiler
import MiniC.Proofs.Typing.Typed

/-!
# Typing leaves typed trees as they are

An expression is settled if typing gives it back unchanged. A node over settled children is
settled, whatever typing makes of it: pointer arithmetic is marked as scaled, the division
around a pointer difference and the factor of an offset are plain arithmetic on `long`, and
the parts of a postfix update are ordinary nodes.

A statement is walked with the same labels a second time, because a case label that has a
number moves the next number to where the first walk moved it.
-/

namespace MiniC

namespace Typing

variable {Γ : Context} {loc : Location} {note : Note} {op : BinOp} {scaled : Bool}
  {e e' lhs rhs : Expr}

/-! ## Expressions -/

def Settled (Γ : Context) (e : Expr) : Prop := expr Γ e = .ok e

theorem num_settled (note : Note) (value : Int64) : Settled Γ (num note value) := by
  obtain ⟨ty, loc⟩ := note
  cases ty <;> simp only [num, Settled, expr]
  split <;> rfl

variable {ty : CType} {l : Labels} {f f' : Function}

theorem operand_integer (integer : e.ty.isInteger) : operand e = .ok () := by
  simp only [operand, integer, Bool.true_or, if_true]

theorem settled_binary (left : Settled Γ lhs) (right : Settled Γ rhs)
    (again : binary Γ note.loc op scaled lhs rhs = .ok (.binary note op scaled lhs rhs)) :
    Settled Γ (.binary note op scaled lhs rhs) :=
  bind_eq_ok.mpr ⟨lhs, left, bind_eq_ok.mpr ⟨rhs, right, again⟩⟩

theorem wider_long (σ : Structs) (integer : ty.isInteger) :
    wider σ ty .long = .long := by
  cases ty <;> first | rfl | cases integer

theorem scale_settled (size : UInt32) (settled : Settled Γ e) (integer : e.ty.isInteger) :
    Settled Γ (scale size e) ∧ (scale size e).ty.isInteger := by
  unfold scale
  split
  · exact ⟨settled, integer⟩
  · refine ⟨settled_binary settled rfl ?_, rfl⟩
    simp only [binary, operand_integer integer, operand_integer (e := sizeAt e.loc size) rfl]
    change Except.ok (Expr.binary ⟨wider Γ.structs e.ty .long, _⟩ _ _ _ _) = _
    rw [wider_long Γ.structs integer]

theorem isInteger_of_operand (h : operand e = .ok ()) (other : e.ty.isPointer = false) :
    e.ty.isInteger := by
  unfold operand at h
  split at h
  · rename_i either
    simpa only [other, Bool.or_false] using either
  · split at h <;> cases h

theorem isPointer_eq_false (integer : ty.isInteger) : ty.isPointer = false := by
  cases ty <;> first | rfl | cases integer

/-- The operands of pointer arithmetic: one is a pointer and the other is not, and nothing but a
pointer has something subtracted from it. -/
def Shifts (op : BinOp) (lhs rhs : CType) : Prop :=
  lhs.isPointer = true ∧ rhs.isPointer = false ∧ (op = .add ∨ op = .sub) ∨
    lhs.isPointer = false ∧ rhs.isPointer = true ∧ op = .add

theorem binary_eq_shift (leftOk : operand lhs = .ok ()) (rightOk : operand rhs = .ok ())
    (kind : Shifts op lhs.ty rhs.ty) :
    binary Γ loc op scaled lhs rhs = shift Γ loc op scaled lhs rhs := by
  simp only [binary, leftOk, rightOk]
  rcases kind with ⟨left, right, rfl | rfl⟩ | ⟨left, right, rfl⟩ <;> simp only [left, right] <;> rfl

theorem shift_settled (left : Settled Γ lhs) (right : Settled Γ rhs)
    (leftOk : operand lhs = .ok ()) (rightOk : operand rhs = .ok ())
    (kind : Shifts op lhs.ty rhs.ty) (h : shift Γ loc op scaled lhs rhs = .ok e) :
    Settled Γ e := by
  simp only [shift, bind_eq_ok] at h
  obtain ⟨size, known, h⟩ := h
  split at h
  · cases h
    refine settled_binary left right ?_
    rw [binary_eq_shift leftOk rightOk kind]
    simp only [shift, known]
    rfl
  · split at h
    next pointer =>
      cases h
      have integer := isInteger_of_operand rightOk (by grind [Shifts])
      obtain ⟨settled, integer⟩ := scale_settled size right integer
      refine settled_binary left settled ?_
      rw [binary_eq_shift leftOk (operand_integer integer)
        (.inl ⟨pointer, isPointer_eq_false integer, by grind [Shifts]⟩)]
      simp only [shift, pointer, if_true] at known ⊢
      simp only [known]
      rfl
    next pointer =>
      cases h
      rw [Bool.not_eq_true] at pointer
      have integer := isInteger_of_operand leftOk pointer
      obtain ⟨settled, integer⟩ := scale_settled size left integer
      refine settled_binary settled right ?_
      rw [binary_eq_shift (operand_integer integer) rightOk
        (.inr ⟨isPointer_eq_false integer, by grind [Shifts], by grind [Shifts]⟩)]
      simp only [shift, pointer, isPointer_eq_false integer, Bool.false_eq_true, if_false] at known ⊢
      simp only [known]
      rfl

theorem difference_settled (left : Settled Γ lhs) (right : Settled Γ rhs)
    (leftOk : operand lhs = .ok ()) (rightOk : operand rhs = .ok ())
    (leftPointer : lhs.ty.isPointer = true) (rightPointer : rhs.ty.isPointer = true)
    (h : difference Γ loc scaled lhs rhs = .ok e) : Settled Γ e := by
  simp only [difference, bind_eq_ok] at h
  obtain ⟨size, known, h⟩ := h
  have bytes : Settled Γ (.binary ⟨.long, loc⟩ .sub true lhs rhs) := by
    refine settled_binary left right ?_
    simp only [binary, leftOk, rightOk, leftPointer, rightPointer, difference, known]
    rfl
  split at h
  · cases h
    exact bytes
  · cases h
    exact settled_binary bytes rfl rfl

theorem binary_settled (left : Settled Γ lhs) (right : Settled Γ rhs)
    (h : binary Γ loc op scaled lhs rhs = .ok e) : Settled Γ e := by
  have again := h
  simp only [binary, bind_eq_ok] at h
  obtain ⟨_, leftOk, _, rightOk, h⟩ := h
  split at h
  · cases h
  · cases h
  · exact difference_settled left right leftOk rightOk ‹_› ‹_› h
  · exact shift_settled left right leftOk rightOk (.inl ⟨‹_›, ‹_›, .inl rfl⟩) h
  · exact shift_settled left right leftOk rightOk (.inl ⟨‹_›, ‹_›, .inr rfl⟩) h
  · exact shift_settled left right leftOk rightOk (.inr ⟨‹_›, ‹_›, rfl⟩) h
  · cases h
    exact settled_binary left right again

theorem update_settled {dir : Update} (inner : Settled Γ e) (h : update Γ loc dir e = .ok e') :
    Settled Γ e' := by
  simp only [update, bind_eq_ok, pure_eq_ok] at h
  obtain ⟨updated, hu, stored, hs, undone, hd, previous, hp, rfl⟩ := h
  have one := num_settled (Γ := Γ) ⟨.void, loc⟩ 1
  obtain rfl := assign_eq_ok hs
  obtain rfl := cast_eq_ok hp
  simp only [Settled, comma, expr, bind_eq_ok]
  exact ⟨_, ⟨e, inner, updated, binary_settled inner one hu, hs⟩, _,
    ⟨undone, binary_settled inner one hd, hp⟩, rfl⟩

mutual
/-- What typing makes of an expression is left as it is. -/
theorem Makes.settled {e e' : Expr} : Makes Γ e e' → Settled Γ e'
  | .num => num_settled _ _
  | .str | .var | .sizeof _ _ => rfl
  | .global rule => rule
  | .binary left right rule => binary_settled left.settled right.settled rule
  | .assign left right rule =>
    bind_eq_ok.mpr ⟨_, left.settled, bind_eq_ok.mpr ⟨_, right.settled, rule⟩⟩
  | .comma left right => bind_eq_ok.mpr ⟨_, left.settled, bind_eq_ok.mpr ⟨_, right.settled, rfl⟩⟩
  | .cond first truth second third rule => by
    simp only [Settled, expr, cond, bind_eq_ok]
    exact ⟨_, first.settled, (), truth, _, second.settled, _, third.settled, _, rule, rfl⟩
  | .unary inner rule | .addr inner rule | .deref inner rule | .member inner rule | .cast inner rule
  | .call inner _ rule => bind_eq_ok.mpr ⟨_, inner.settled, rule⟩
  | .update inner rule => update_settled inner.settled rule
theorem MakesAll.settled {es es' : List Expr} : MakesAll Γ es es' → arguments Γ es' = .ok es'
  | .nil => rfl
  | .cons first passed rest => by
    simp only [arguments, bind_eq_ok]
    exact ⟨_, first.settled, (), passed, _, rest.settled, rfl⟩
end

theorem expr_settled (h : expr Γ e = .ok e') : Settled Γ e' := (expr_makes e h).settled

theorem condition_settled (h : condition Γ e = .ok e') : condition Γ e' = .ok e' := by
  simp only [condition, bind_eq_ok, pure_eq_ok] at h ⊢
  obtain ⟨e, he, _, valid, rfl⟩ := h
  exact ⟨e, expr_settled he, (), valid, rfl⟩

theorem returned_settled (h : returned Γ e = .ok e') : returned Γ e' = .ok e' := by
  simp only [returned, bind_eq_ok] at h ⊢
  obtain ⟨e, he, h⟩ := h
  refine ⟨e', ?_, ?_⟩ <;> (split at h; cases h; split at h; cases h; cases h)
  · exact expr_settled he
  · simp only [*]
    rfl

theorem optional_settled {type : Expr → Result Expr}
    (settles : ∀ e e' : Expr, type e = .ok e' → type e' = .ok e') {e e' : Option Expr}
    (h : optional type e = .ok e') : optional type e' = .ok e' := by
  cases e with
  | none =>
    cases h
    rfl
  | some e =>
    simp only [optional, bind_eq_ok, pure_eq_ok] at h
    obtain ⟨typed, he, rfl⟩ := h
    simp only [optional, bind_eq_ok, pure_eq_ok]
    exact ⟨typed, settles _ _ he, rfl⟩

/-! ## Statements -/

theorem number_again {label : Option Nat} {k : Nat} {l' : Labels}
    (h : number label l = .ok (k, l')) : number (some k) l = .ok (k, l') := by
  cases label with
  | some label =>
    cases h
    rfl
  | none =>
    cases h
    simp only [number]
    change Except.ok (_, _) = _
    rw [Nat.max_eq_right (Nat.le_succ _)]

mutual
/-- What typing makes of a statement is left as it is. -/
theorem Walks.settled {inside : Inside} {s s' : Stmt} {l l' : Labels} :
    Walks Γ inside s l s' l' → Walks Γ inside s' l s' l'
  | .expr typed => .expr (expr_settled typed)
  | .ret typed => .ret (optional_settled (fun _ _ => returned_settled) typed)
  | .branch test yes no => .branch (condition_settled test) yes.settled no.settled
  | .whileLoop test body => .whileLoop (condition_settled test) body.settled
  | .doLoop test body => .doLoop (condition_settled test) body.settled
  | .forLoop init test step body =>
    .forLoop init.settled (optional_settled (fun _ _ => condition_settled) test)
      (optional_settled (fun _ _ => expr_settled) step) body.settled
  | .switch value body => .switch (condition_settled value) body.settled
  | .case numbered listed body => .case (number_again numbered) listed body.settled
  | .default numbered listed body => .default (number_again numbered) listed body.settled
  | .exit allowed => .exit allowed
  | .next allowed => .next allowed
  | .block body => .block body.settled
  | .null => .null
theorem WalksOptional.settled {inside : Inside} {s s' : Option Stmt} {l l' : Labels} :
    WalksOptional Γ inside s l s' l' → WalksOptional Γ inside s' l s' l'
  | .none => .none
  | .some body => .some body.settled
theorem WalksAll.settled {inside : Inside} {ss ss' : List Stmt} {l l' : Labels} :
    WalksAll Γ inside ss l ss' l' → WalksAll Γ inside ss' l ss' l'
  | .nil => .nil
  | .cons first rest => .cons first.settled rest.settled
end

/-! ## Programs -/

theorem passesStruct_congr {g : Function} (ret : g.ret = f.ret) (params : g.params = f.params)
    (types : g.locals.map (·.ty) = f.locals.map (·.ty)) : passesStruct g = passesStruct f := by
  have known : ∀ param : Nat, g.locals[param]?.any (fun v => v.ty.isStruct) =
      f.locals[param]?.any (fun v => v.ty.isStruct) := by
    intro param
    have same := congrArg (fun types => types[param]?.any CType.isStruct) types
    simpa only [List.getElem?_map, Option.any_map] using same
  simp only [passesStruct, ret, params, known]

theorem function_settled (h : function Γ f = .ok f') :
    function Γ f' = .ok f' ∧ f'.name = f.name ∧ signature f' = signature f := by
  obtain ⟨locals, last, body, few, plain, placed, walked, rfl⟩ := function_eq_ok.mp h
  obtain ⟨again, types⟩ := place_settled _ placed
  refine ⟨function_eq_ok.mpr ⟨locals, last, body, few, ?_, again, ?_, rfl⟩, rfl, rfl⟩
  · intro passed
    rw [passesStruct_congr (f := f) (by rfl) (by rfl) types] at passed
    exact plain passed
  · generalize f.body = parsed at walked
    cases walked with
    | none => exact .none
    | some walked => exact .some (walked.imp fun _ walks => walks.settled)

theorem functions_settled (fs : List Function) : ∀ ⦃Γ : Context⦄ ⦃fs' : List Function⦄,
    functions Γ fs = .ok fs' → functions Γ fs' = .ok fs' := by
  induction fs with
  | nil =>
    intro Γ fs' h
    cases h
    rfl
  | cons f rest ih =>
    intro Γ fs' h
    simp only [functions, bind_eq_ok, pure_eq_ok] at h
    obtain ⟨f', hf, rest', hr, rfl⟩ := h
    obtain ⟨again, name, known⟩ := function_settled hf
    simp only [functions, bind_eq_ok, pure_eq_ok, name, known]
    exact ⟨f', again, rest', ih hr, rfl⟩

theorem program_settled {implicitDecls : Bool} {p q : Program} (h : program implicitDecls p = .ok q) :
    program implicitDecls q = .ok q := by
  simp only [program, bind_eq_ok, pure_eq_ok] at h
  obtain ⟨fs, hf, rfl⟩ := h
  simp only [program, bind_eq_ok, pure_eq_ok]
  exact ⟨fs, functions_settled _ hf, rfl⟩

end Typing

/-- **Typing is idempotent.** A program that was typed has types again, with the same treatment of
functions that are not declared, and is left as it is: its trees with every type, offset and mark,
its case labels and the lists of them, and its stack frames. -/
theorem analyze_idempotent {implicitDecls : Bool} {p q : Program}
    (analyzed : analyze implicitDecls p = .ok q) : analyze implicitDecls q = .ok q :=
  analyze_eq_ok.mpr (Typing.program_settled (analyze_eq_ok.mp analyzed))

/-! ## An example -/

/-- `long f(long *p, long *q) { switch (p[1]) { default: return p++ - q; case 1: return sizeof *p; } }`,
as tokens. -/
def distance : List Lexed :=
  [.keyword .long, .id "f", .punct .openParen, .keyword .long, .punct .star, .id "p",
    .punct .comma, .keyword .long, .punct .star, .id "q", .punct .closeParen, .punct .openCurly,
    .keyword .switch, .punct .openParen, .id "p", .punct .openSquare, .int 1, .punct .closeSquare,
    .punct .closeParen, .punct .openCurly, .keyword .default, .punct .colon, .keyword .returnWord,
    .id "p", .punct .inc, .punct .minus, .id "q", .punct .semicolon, .keyword .case, .int 1,
    .punct .colon, .keyword .returnWord, .keyword .sizeof, .punct .star, .id "p", .punct .semicolon,
    .punct .closeCurly, .punct .closeCurly].map
    fun kind => ⟨⟨kind, false⟩, .atStart ⟨"f.c", ""⟩⟩

def distance? : Except CompileError Program := do analyze false (← parse ⟨"f.c", ""⟩ distance)

theorem distance?_frames :
    distance?.toOption.map (·.functions.map (·.stackSize)) = some [16] := by decide +kernel

theorem analyze_idempotent_distance : ∃ p q, parse ⟨"f.c", ""⟩ distance = .ok p ∧
    analyze false p = .ok q ∧ q.functions.map (·.stackSize) = [16] ∧ analyze false q = .ok q := by
  obtain ⟨q, found, frames⟩ := Option.map_eq_some_iff.mp distance?_frames
  have typed : distance? = .ok q := by
    cases result : distance? with
    | error e => rw [result] at found; cases found
    | ok q' => rw [result] at found; cases found; rfl
  unfold distance? at typed
  cases parsed : parse ⟨"f.c", ""⟩ distance with
  | error e => rw [parsed] at typed; cases typed
  | ok p =>
    rw [parsed] at typed
    exact ⟨p, q, rfl, typed, frames, analyze_idempotent typed⟩

end MiniC
