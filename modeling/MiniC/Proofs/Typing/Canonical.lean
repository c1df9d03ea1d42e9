import MiniC.Proofs.Grammar.Raw
import MiniC.Proofs.Semantics.Untyped
import MiniC.Proofs.Typing.Expressions

/-!
# Values have the range of their types

The values of a typed expression have their sign extended from the width of its type: they come from
an operation of that width or a narrower one, from a load or a call, or from a comparison. Only an
expression that passes a number on as its value, through sequences and conditions, has the number
itself; and the number is in the range of its type unless it is an enumeration constant, which is an
`int` whatever its value is.
-/

namespace MiniC

open List

namespace Expr

/-- The expressions directly inside an expression, apart from the operand of `sizeof`, which is not
evaluated. -/
def children : Expr → List Expr
  | .num .. | .str .. | .var .. | .global .. | .sizeof .. => []
  | .binary _ _ _ lhs rhs | .assign _ lhs rhs | .comma _ lhs rhs => [lhs, rhs]
  | .cond _ test yes no => [test, yes, no]
  | .unary _ _ e | .addr _ e | .deref _ e | .member _ e _ _ | .cast _ _ e | .update _ _ e => [e]
  | .call _ _ args => args

/-- An expression has another one somewhere inside it, or is that one. -/
abbrev Contains : Expr → Expr → Prop := Relation.ReflTransGen fun e x => x ∈ e.children

def passed : Expr → List Int64
  | .num _ value => [value]
  | .comma _ _ rhs => rhs.passed
  | .cond _ _ yes no => yes.passed ++ no.passed
  | _ => []

def All (P : Expr → Prop) (e : Expr) : Prop := ∀ x, e.Contains x → P x

variable {P : Expr → Prop} {e first second : Expr}

theorem all_iff : e.All P ↔ P e ∧ ∀ x ∈ e.children, x.All P := by
  constructor
  · exact fun all => ⟨all e .refl, fun x mem y path => all y (.head mem path)⟩
  · rintro ⟨self, inner⟩ x path
    rcases path.cases_head with rfl | ⟨y, mem, path⟩
    · exact self
    · exact inner y mem x path

namespace All

theorem self (h : e.All P) : P e := h e .refl

theorem child (h : e.All P) (mem : first ∈ e.children) : first.All P := (all_iff.mp h).2 first mem

theorem leaf (self : P e) (none : e.children = []) : e.All P :=
  all_iff.mpr ⟨self, by rw [none]; exact forall_mem_nil _⟩

theorem one (self : P e) (single : e.children = [first]) (inner : first.All P) : e.All P :=
  all_iff.mpr ⟨self, by rw [single]; exact forall_mem_singleton.mpr inner⟩

theorem two (self : P e) (both : e.children = [first, second]) (left : first.All P)
    (right : second.All P) : e.All P :=
  all_iff.mpr ⟨self, by
    rw [both]
    exact forall_mem_cons.mpr ⟨left, forall_mem_singleton.mpr right⟩⟩

end All

end Expr

def Yields {α : Type} (x : Eval α) (P : α → Prop) : Prop := ∀ s a t, x s = .ok a t → P a

namespace Yields

variable {α β : Type} {x y : Eval α} {P : α → Prop} {f g : α → Eval β} {Q : β → Prop}

theorem pure {a : α} (h : P a) : Yields (Pure.pure a) P := by
  intro s b t run
  cases run
  exact h

theorem throw {stop : Stop} : Yields (MonadExcept.throw stop) P := fun _ _ _ run => nomatch run

theorem bind (h : ∀ a, Yields (f a) Q) : Yields (x >>= f) Q := by
  intro s b u run
  change EStateM.bind x f s = _ at run
  unfold EStateM.bind at run
  split at run
  · rename_i a t _
    exact h a t b u run
  · cases run

theorem ite {c : Prop} [Decidable c] (yes : Yields x P) (no : Yields y P) :
    Yields (if c then x else y) P := by
  split
  · exact yes
  · exact no

theorem bind_congr (h : Yields x P) (alike : ∀ a, P a → f a = g a) : (x >>= f) = (x >>= g) := by
  funext s
  change EStateM.bind x f s = EStateM.bind x g s
  unfold EStateM.bind
  cases run : x s with
  | ok a t => exact congrFun (alike a (h s a t run)) t
  | error => rfl

end Yields

namespace Tree

open Word (Extended)

variable {ctx : Context}

theorem access_extended (ty : CType) (a : Word) :
    Yields (ctx.host.access .value ty a) (Extended (.ofType ty)) := by
  change Yields (if ty.isAggregate then Pure.pure a else ctx.host.read (.ofType ty) a) _
  split
  · rename_i aggregate
    rw [Width.ofType_of_isAggregate aggregate]
    exact .pure (Word.extended_qword a)
  · exact .ite (.bind fun s => .pure (Word.load_extended _ _ a)) .throw

theorem combine_extended (op : BinOp) (w : Width) (a b : Word) :
    Yields (Word.combine op w a b) (Extended (Word.resultWidth op w)) := by
  unfold Word.combine
  split
  · rename_i v result
    exact .pure (Word.binary_extended result)
  · exact .throw

theorem binary_extended {note : Note} {op : BinOp} {scaled : Bool} {lhs rhs : Expr}
    (wide : op.isBoolean = false → Width.arithmetic note.ty = Width.ofType note.ty) :
    Yields (expr ctx .value (.binary note op scaled lhs rhs)) (Extended (.ofType note.ty)) := by
  by_cases logical : op = .logAnd ∨ op = .logOr
  · have truth : ∀ v : Bool, Extended (.ofType note.ty) (Word.ofBool v) :=
      fun v => Word.ofBool_extended _ v
    rcases logical with rfl | rfl
    · exact .bind fun a => .ite (.pure (truth false)) (.bind fun b => .pure (truth _))
    · exact .bind fun a => .ite (.pure (truth true)) (.bind fun b => .pure (truth _))
  · rw [expr_binary ctx logical]
    refine .bind fun a => .bind fun b s v t run => ?_
    have result := combine_extended op _ a b s v t run
    refine result.mono ?_
    unfold Word.resultWidth Width.ofBinary
    cases boolean : op.isBoolean with
    | true => exact Width.byte_bits_le _
    | false => rw [← wide boolean]; exact Nat.le_refl _

end Tree

namespace Typing

open Word (Extended)

variable {Γ : Context} {ctx : Tree.Context} {loc : Location} {e e' lhs rhs : Expr} {op : BinOp}

/-! ## Values are extended -/

def ValuesExtended (ctx : Tree.Context) (e : Expr) : Prop :=
  Yields (Tree.expr ctx .value e) (Extended (.ofType e.ty))

theorem ValuesExtended.of_qword (h : Width.ofType e.ty = .qword) : ValuesExtended ctx e := by
  intro s v t _
  rw [h]
  exact Word.extended_qword v

theorem promote_wider (σ : Structs) (lhs rhs : CType) :
    ∃ ty : CType, wider σ lhs rhs = ty.promote := by
  unfold wider
  split
  · exact ⟨rhs, rfl⟩
  · exact ⟨lhs, rfl⟩

theorem arithmeticType_width (h : op.isBoolean = false) (l r : CType) :
    Width.arithmetic (arithmeticType Γ op l r) = Width.ofType (arithmeticType Γ op l r) := by
  unfold arithmeticType
  rw [h]
  simp only [Bool.false_eq_true, if_false]
  split
  · exact Width.arithmetic_promote l
  · obtain ⟨ty, same⟩ := promote_wider Γ.structs l r
    rw [same]
    exact Width.arithmetic_promote ty

variable {ty target : CType} {value : Int64} {scaled : Bool}

theorem stride_pointer {size : UInt32} (h : stride Γ loc ty = .ok size) :
    ∃ target, ty.pointee? = some target ∧
      Untyped.elementSize Γ.structs target = .ofNat 64 size.toNat := by
  unfold stride at h
  split at h
  · rename_i target found
    refine ⟨target, found, ?_⟩
    unfold Untyped.elementSize
    split at h
    · rename_i nothing
      cases h
      rw [if_pos nothing]
      rfl
    · rename_i something
      rw [if_neg something]
      split at h
      · cases h
        rfl
      · cases h
  · cases h

theorem isPointer_eq (ty : CType) : ty.isPointer = ty.pointee?.isSome := by cases ty <;> rfl

theorem isPointer_of_pointee (h : ty.pointee? = some target) : ty.isPointer := by
  rw [isPointer_eq, h]
  rfl

theorem ofType_decay_pointer (h : ty.pointee? = some target) :
    Width.ofType ty.decay = .qword := by
  rw [Width.ofType_decay]
  exact Width.ofType_of_isPointer (isPointer_of_pointee h)

theorem bits_le_wider (σ : Structs) {l r : CType} (left : l.isInteger) (right : r.isInteger) :
    (Width.ofType l).bits ≤ (Width.ofType (wider σ l r)).bits ∧
      (Width.ofType r).bits ≤ (Width.ofType (wider σ l r)).bits := by
  cases l with
  | char | int | long =>
    cases r with
    | char | int | long => exact ⟨Nat.le_of_ble_eq_true rfl, Nat.le_of_ble_eq_true rfl⟩
    | _ => cases right
  | _ => cases left

theorem branchType_eq_ok {yes no : CType} (h : branchType Γ loc yes no = .ok ty) :
    ty = .void ∨ (∃ pointer : CType, pointer.isPointer ∧ ty = pointer.decay) ∨
      (yes.isInteger ∧ no.isInteger ∧ ty = wider Γ.structs yes no) := by
  unfold branchType at h
  split at h
  · cases h
    exact .inl rfl
  · split at h
    · rename_i pointers
      cases left : yes.isPointer with
      | true =>
        simp only [left, if_true] at h
        split at h
        · cases h
          exact .inr (.inl ⟨yes, left, rfl⟩)
        · cases h
      | false =>
        simp only [left, Bool.false_eq_true, if_false] at h
        split at h
        · cases h
          exact .inr (.inl ⟨no, by simpa [left] using pointers, rfl⟩)
        · cases h
    · split at h
      · rename_i integers
        cases h
        obtain ⟨left, right⟩ := (Bool.and_eq_true _ _).mp integers
        exact .inr (.inr ⟨left, right, rfl⟩)
      · cases h

def fitsInt (value : Int64) : Prop := -2147483648 ≤ value ∧ value ≤ 2147483647

instance (value : Int64) : Decidable (fitsInt value) := inferInstanceAs (Decidable (_ ∧ _))

theorem extended_of_fitsInt (h : fitsInt value) : Extended .dword value.toBitVec := by
  obtain ⟨low, high⟩ := h
  rw [Int64.le_iff_toInt_le] at low high
  exact Word.fits_iff.mpr ⟨low, Int.lt_of_le_of_lt high (by decide)⟩

variable {constants : List Int64}

/-- The values of an expression are extended, if the enumeration constants that it passes on are in
range. -/
def Canonical (constants : List Int64) (ctx : Tree.Context) (e : Expr) : Prop :=
  (∀ n ∈ e.passed, n ∈ constants → fitsInt n) → ValuesExtended ctx e

/-- All expressions in an expression are so. -/
abbrev AllCanonical (constants : List Int64) (ctx : Tree.Context) (e : Expr) : Prop :=
  e.All (Canonical constants ctx)

theorem num_canonical {note : Note} (h : note.Number constants value) :
    AllCanonical constants ctx (num note value) := by
  obtain ⟨ty, loc⟩ := note
  unfold num
  rcases h with rfl | rfl | ⟨rfl, known⟩
  · refine .leaf (fun _ => ?_) rfl
    dsimp only
    split
    next small => exact .pure (extended_of_fitsInt small)
    next => exact .of_qword rfl
  · exact .leaf (fun _ => .of_qword rfl) rfl
  · exact .leaf (fun fits => .pure (extended_of_fitsInt (fits _ mem_cons_self known))) rfl

theorem sizeAt_canonical (size : UInt32) : AllCanonical constants ctx (sizeAt loc size) :=
  .leaf (fun _ => .of_qword rfl) rfl

theorem scale_canonical (size : UInt32) (inner : AllCanonical constants ctx e) :
    AllCanonical constants ctx (scale size e) := by
  unfold scale
  split
  · exact inner
  · exact .two (fun _ => .of_qword rfl) rfl inner (sizeAt_canonical size)

theorem shift_canonical (left : AllCanonical constants ctx lhs)
    (right : AllCanonical constants ctx rhs) (h : shift Γ loc op scaled lhs rhs = .ok e) :
    AllCanonical constants ctx e := by
  simp only [shift, bind_eq_ok] at h
  obtain ⟨size, known, h⟩ := h
  obtain ⟨target, pointer, -⟩ := stride_pointer known
  have wide := ofType_decay_pointer pointer
  generalize (if lhs.ty.isPointer = true then lhs.ty else rhs.ty).decay = ty at h wide
  split at h
  · cases h
    exact .two (fun _ => .of_qword wide) rfl left right
  · split at h
    · cases h
      exact .two (fun _ => .of_qword wide) rfl left (scale_canonical size right)
    · cases h
      exact .two (fun _ => .of_qword wide) rfl (scale_canonical size left) right

theorem binary_canonical (left : AllCanonical constants ctx lhs)
    (right : AllCanonical constants ctx rhs) (h : binary Γ loc op scaled lhs rhs = .ok e) :
    AllCanonical constants ctx e := by
  simp only [binary, bind_eq_ok] at h
  obtain ⟨-, -, -, -, h⟩ := h
  split at h
  · cases h
  · cases h
  · simp only [difference, bind_eq_ok] at h
    obtain ⟨size, -, h⟩ := h
    have bytes : AllCanonical constants ctx (.binary ⟨.long, loc⟩ .sub true lhs rhs) :=
      .two (fun _ => .of_qword rfl) rfl left right
    split at h
    · cases h
      exact bytes
    · cases h
      exact .two (fun _ => .of_qword rfl) rfl bytes (sizeAt_canonical size)
  · exact shift_canonical left right h
  · exact shift_canonical left right h
  · exact shift_canonical left right h
  · cases h
    exact .two (fun _ => Tree.binary_extended fun plain => arithmeticType_width plain _ _) rfl
      left right

theorem assign_canonical (left : AllCanonical constants ctx lhs)
    (right : AllCanonical constants ctx rhs) :
    AllCanonical constants ctx (.assign ⟨lhs.ty, loc⟩ lhs rhs) :=
  .two (fun _ => .bind fun _ => .bind fun v => .bind fun _ => .pure (Word.cut_extended _ v)) rfl
    left right

theorem comma_canonical (left : AllCanonical constants ctx lhs)
    (right : AllCanonical constants ctx rhs) : AllCanonical constants ctx (comma loc lhs rhs) := by
  refine .two (fun fits => .bind fun _ => ?_) rfl left right
  change Yields _ (Extended (.ofType rhs.ty.decay))
  rw [Width.ofType_decay]
  exact right.self fits

theorem cast_canonical (inner : AllCanonical constants ctx e) :
    AllCanonical constants ctx (.cast ⟨target, loc⟩ target e) :=
  .one (fun _ => .bind fun v => .pure (Word.cut_extended _ v)) rfl inner

theorem cond_canonical {test yes no : Expr} (first : AllCanonical constants ctx test)
    (second : AllCanonical constants ctx yes) (third : AllCanonical constants ctx no)
    (rule : branchType Γ loc yes.ty no.ty = .ok ty) :
    AllCanonical constants ctx (.cond ⟨ty, loc⟩ test yes no) := by
  refine Expr.all_iff.mpr ⟨fun fits => ?_, forall_mem_cons.mpr ⟨first,
    forall_mem_cons.mpr ⟨second, forall_mem_singleton.mpr third⟩⟩⟩
  rcases branchType_eq_ok rule with rfl | ⟨pointer, isPointer, rfl⟩ | ⟨left, right, rfl⟩
  · exact .of_qword rfl
  · exact .of_qword ((Width.ofType_decay _).trans (Width.ofType_of_isPointer isPointer))
  · obtain ⟨le, le'⟩ := bits_le_wider Γ.structs left right
    have yesFits := second.self fun n mem => fits n (mem_append_left _ mem)
    have noFits := third.self fun n mem => fits n (mem_append_right _ mem)
    refine .bind fun v => .ite ?_ ?_
    · exact fun s v t run => (yesFits s v t run).mono le
    · exact fun s v t run => (noFits s v t run).mono le'

theorem unary_canonical {op : UnOp} (inner : AllCanonical constants ctx e)
    (h : unary loc op e = .ok e') : AllCanonical constants ctx e' := by
  unfold unary at h
  split at h
  · simp only [bind_eq_ok, pure_eq_ok] at h
    obtain ⟨-, -, rfl⟩ := h
    exact .one (fun _ => .bind fun v => .pure (Word.ofBool_extended _ _)) rfl inner
  all_goals
    split at h
    · cases h
      refine .one (fun _ => .bind fun v => .pure ?_) rfl inner
      change Extended (.ofType e.ty.promote) (Word.unary _ (.arithmetic e.ty.promote) v)
      rw [← Width.arithmetic_promote]
      exact Word.unary_extended _ _ v
    · cases h

theorem update_canonical {dir : Update} (inner : AllCanonical constants ctx e)
    (h : update Γ loc dir e = .ok e') : AllCanonical constants ctx e' := by
  simp only [update, bind_eq_ok, pure_eq_ok] at h
  obtain ⟨updated, hu, stored, hs, undone, hd, previous, hp, rfl⟩ := h
  obtain rfl := assign_eq_ok hs
  obtain rfl := cast_eq_ok hp
  have one : AllCanonical constants ctx (num ⟨.void, loc⟩ 1) := num_canonical (.inl rfl)
  exact comma_canonical (assign_canonical inner (binary_canonical inner one hu))
    (cast_canonical (binary_canonical inner one hd))

mutual
/-- What typing makes of an expression is canonical throughout. -/
theorem Makes.canonical {e e' : Expr} : Makes Γ e e' → e.Raw constants →
    AllCanonical constants ctx e'
  | .num, raw => num_canonical raw
  | .str, _ | .sizeof _ _, _ => .leaf (fun _ => .of_qword rfl) rfl
  | .var, _ => by
    refine .leaf (fun _ => ?_) rfl
    change Yields (Tree.expr ctx .value (.var _ _)) _
    rw [Tree.expr]
    split
    · exact Tree.access_extended _ _
    · exact .throw
  | .global _, _ => .leaf (fun _ => Tree.access_extended _ _) rfl
  | .binary left right rule, ⟨_, first, second⟩ =>
    binary_canonical (left.canonical first) (right.canonical second) rule
  | .assign left right _, ⟨first, second⟩ =>
    assign_canonical (left.canonical first) (right.canonical second)
  | .comma left right, ⟨first, second⟩ =>
    comma_canonical (left.canonical first) (right.canonical second)
  | .cond test _ yes no rule, ⟨first, second, third⟩ =>
    cond_canonical (test.canonical first) (yes.canonical second) (no.canonical third) rule
  | .unary inner rule, raw => unary_canonical (inner.canonical raw) rule
  | .addr inner _, raw => .one (fun _ => .of_qword rfl) rfl (inner.canonical raw)
  | .deref inner _, raw | .member inner _, raw =>
    .one (fun _ => .bind fun _ => Tree.access_extended _ _) rfl (inner.canonical raw)
  | .call inner _ _, raw => Expr.all_iff.mpr
    ⟨fun _ => .bind fun _ => .bind fun v => .pure (Word.cut_extended _ v), inner.canonical raw⟩
  | .cast inner _, raw => cast_canonical (inner.canonical raw)
  | .update inner rule, raw => update_canonical (inner.canonical raw) rule
theorem MakesAll.canonical {es es' : List Expr} : MakesAll Γ es es' → Expr.AllRaw constants es →
    ∀ e ∈ es', AllCanonical constants ctx e
  | .nil, _ => forall_mem_nil _
  | .cons first _ rest, ⟨raw, others⟩ =>
    forall_mem_cons.mpr ⟨first.canonical raw, rest.canonical others⟩
end

theorem expr_canonical (raw : e.Raw constants) (h : expr Γ e = .ok e') :
    AllCanonical constants ctx e' := (expr_makes e h).canonical raw

end Typing

end MiniC
