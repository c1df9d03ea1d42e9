import MiniC.Proofs.DataSection
import MiniC.Proofs.Grammar.Functions
import MiniC.Proofs.Typing.Canonical

/-!
# Pointer arithmetic is scaled once

A typed expression means what the expression that it was made from means with no scaling in it: each
factor that turns a number of elements into a number of bytes, and each division that turns a
distance into a number of elements, stands in the typed tree once, whatever the expression is nested
in. Since typing leaves a typed expression as it is, walking over it again adds none.

The values of typed expressions have their sign extended from the width of their type, so a number
of elements is also the number that its type says. The exception is a number of elements that passes
on an enumeration constant beyond the range of an `int`.
-/

namespace MiniC

open List

namespace Typing

variable {Γ : Context} {ctx : Tree.Context} {loc : Location} {e e' lhs rhs : Expr} {op : BinOp}
  {constants : List Int64}

/-! ## Meaning -/

open Untyped (Reading arithmetic indexOf typeOf elementSize whole)

theorem typeOf_eq (h : expr Γ e = .ok e') : typeOf Γ e = e'.ty := by
  rw [typeOf, h]
  rfl

theorem combine_qword (a b : Word) : Word.combine .add .qword a b = pure (a + b) ∧
    Word.combine .sub .qword a b = pure (a - b) ∧ Word.combine .mul .qword a b = pure (a * b) := by
  simp [Word.combine, Word.binary]

theorem expr_scale (size : UInt32) (e : Expr) : Tree.expr ctx .value (scale size e) =
    (do return (← Tree.expr ctx .value e) * .ofNat 64 size.toNat) := by
  unfold scale
  split
  · rename_i one
    subst one
    have same : ∀ v : Word, v * BitVec.ofNat 64 (1 : UInt32).toNat = v := fun v => BitVec.mul_one v
    simp only [same, bind_pure]
  · rw [Tree.expr_binary ctx (by simp)]
    refine bind_congr fun v => ?_
    rw [sizeAt, Tree.expr, pure_bind]
    exact (combine_qword v _).2.2

theorem combine_div_size (d : Word) (size : UInt32) :
    Word.combine .div .qword d (.ofNat 64 size.toNat) =
      if (BitVec.ofNat 64 size.toNat : Word) = 0 then throw .division
      else pure (.ofInt 64 (d.toInt.tdiv (BitVec.ofNat 64 size.toNat : Word).toInt)) := by
  have small : size.toNat < 2 ^ 32 := size.toNat_lt
  have toNat : (BitVec.ofNat 64 size.toNat : Word).toNat = size.toNat := by
    rw [BitVec.toNat_ofNat, Nat.mod_eq_of_lt (by omega)]
  have toInt : (BitVec.ofNat 64 size.toNat : Word).toInt = size.toNat := by
    rw [BitVec.toInt_eq_toNat_of_lt (by omega), toNat]
  have zero : (BitVec.ofNat 64 size.toNat : Word) = 0 ↔ size.toNat = 0 := by
    rw [← BitVec.toNat_inj, toNat]
    rfl
  simp only [Word.combine, Word.binary, Word.divide, Word.low_qword, toInt, zero]
  by_cases none : size.toNat = 0
  · simp [none]
  · have quotient := Word.fits_tdiv (m := size.toNat) (by omega) (Word.fits_qword_toInt d)
    simp [none, quotient]

variable {ty target : CType} {want : Want}

theorem pointee_of_isPointer (h : ty.isPointer = true) :
    ∃ target, ty.pointee? = some target := by
  rwa [isPointer_eq, Option.isSome_iff_exists] at h

theorem pointee_eq_none (h : ty.isPointer = false) : ty.pointee? = none := by
  rwa [isPointer_eq, Option.isSome_eq_false_iff, Option.isNone_iff_eq_none] at h

theorem ofBinary_decay (h : ty.pointee? = some target) (plain : op.isBoolean = false) :
    Width.ofBinary op ty.decay = .qword := by
  rw [Width.ofBinary, plain]
  cases ty <;> first | rfl | cases h

theorem shift_meaning (kind : Shifts op lhs.ty rhs.ty)
    (h : shift Γ loc op false lhs rhs = .ok e) : Tree.expr ctx want e = (do
      let a ← Tree.expr ctx .value lhs
      let b ← Tree.expr ctx .value rhs
      arithmetic Γ whole op lhs.ty rhs.ty a b) := by
  simp only [shift, bind_eq_ok] at h
  obtain ⟨size, known, h⟩ := h
  obtain ⟨target, pointer, stride⟩ := stride_pointer known
  rcases kind with ⟨left, right, either⟩ | ⟨left, right, rfl⟩
  · -- the offset is on the right
    simp only [left, if_true, Bool.false_eq_true, if_false] at h pointer
    cases h
    have plain : op.isBoolean = false := by rcases either with rfl | rfl <;> rfl
    rw [Tree.expr_binary ctx (by rcases either with rfl | rfl <;> simp), expr_scale,
      ofBinary_decay pointer plain]
    refine bind_congr fun a => ?_
    simp only [bind_assoc, pure_bind]
    refine bind_congr fun b => ?_
    rcases either with rfl | rfl
    · simp only [(combine_qword _ _).1, arithmetic, pointer, pointee_eq_none right, whole, stride]
    · simp only [(combine_qword _ _).2.1, arithmetic, pointer, pointee_eq_none right, whole, stride]
  · -- the offset is on the left
    simp only [left, Bool.false_eq_true, if_false] at h pointer
    cases h
    rw [Tree.expr_binary ctx (by simp), expr_scale, ofBinary_decay pointer rfl]
    simp only [bind_assoc, pure_bind]
    refine bind_congr fun a => bind_congr fun b => ?_
    simp only [(combine_qword _ _).1, arithmetic, pointer, pointee_eq_none left, whole, stride,
      BitVec.add_comm b]

theorem difference_meaning (right : rhs.ty.isPointer = true)
    (h : difference Γ loc false lhs rhs = .ok e) : Tree.expr ctx want e = (do
      let a ← Tree.expr ctx .value lhs
      let b ← Tree.expr ctx .value rhs
      arithmetic Γ whole .sub lhs.ty rhs.ty a b) := by
  simp only [difference, bind_eq_ok] at h
  obtain ⟨size, known, h⟩ := h
  obtain ⟨target, pointer, stride⟩ := stride_pointer known
  obtain ⟨other, pointer'⟩ := pointee_of_isPointer right
  cases h
  rw [Tree.expr_binary ctx (by simp), Tree.expr_binary ctx (by simp)]
  simp only [bind_assoc]
  refine bind_congr fun a => bind_congr fun b => ?_
  simp only [arithmetic, pointer, pointer', stride, ← combine_div_size]
  change (Word.combine .sub .qword a b >>= fun d => Tree.expr ctx .value (sizeAt loc size) >>= fun c =>
    Word.combine .div .qword d c) = _
  rw [(combine_qword a b).2.1, pure_bind, sizeAt, Tree.expr, pure_bind]
  rfl

/-- A typed operator means what `arithmetic` makes of its operands. -/
theorem binary_meaning (both : ¬(op = .logAnd ∨ op = .logOr))
    (h : binary Γ loc op false lhs rhs = .ok e) : Tree.expr ctx want e = (do
      let a ← Tree.expr ctx .value lhs
      let b ← Tree.expr ctx .value rhs
      arithmetic Γ whole op lhs.ty rhs.ty a b) := by
  simp only [binary, bind_eq_ok] at h
  obtain ⟨_, leftOk, _, rightOk, h⟩ := h
  split at h
  · cases h
  · cases h
  · exact difference_meaning ‹_› h
  · exact shift_meaning (.inl ⟨‹_›, ‹_›, .inl rfl⟩) h
  · exact shift_meaning (.inl ⟨‹_›, ‹_›, .inr rfl⟩) h
  · exact shift_meaning (.inr ⟨‹_›, ‹_›, rfl⟩) h
  · cases h
    rw [Tree.expr_binary ctx both]
    refine bind_congr fun a => bind_congr fun b => ?_
    unfold arithmetic
    -- the cases for pointers were split off before
    split
    iterate 4 simp_all [isPointer_eq]
    rfl

theorem binary_logical {scaled : Bool} (logical : op = .logAnd ∨ op = .logOr)
    (h : binary Γ loc op scaled lhs rhs = .ok e) : ∃ note, e = .binary note op scaled lhs rhs := by
  simp only [binary, bind_eq_ok] at h
  obtain ⟨_, _, _, _, h⟩ := h
  rcases logical with rfl | rfl
  · cases h
    exact ⟨_, rfl⟩
  · cases h
    exact ⟨_, rfl⟩

/-- An expression whose value is read as it is. -/
def ReadWhole (ctx : Tree.Context) (reading : Reading) (e : Expr) : Prop :=
  Yields (Tree.expr ctx .value e) fun v => reading e.ty v = v

/-- A reading leaves the value of a typed expression as it is, if the expression is of a kind. -/
structure Reads (Γ : Context) (ctx : Tree.Context) (constants : List Int64) (reading : Reading)
    (kind : Expr → Prop) : Prop where
  one : reading .int 1 = 1
  typed : ∀ e e' : Expr, e.Raw constants → expr Γ e = .ok e' → kind e' → ReadWhole ctx reading e'

theorem reads_whole : Reads Γ ctx constants whole fun _ => True :=
  ⟨rfl, fun _ _ _ _ _ _ _ _ _ => rfl⟩

/-- The enumeration constants that an expression passes on are in the range of an `int`. -/
def PassesInts (constants : List Int64) (e : Expr) : Prop :=
  ∀ n ∈ e.passed, n ∈ constants → fitsInt n

theorem reads_extended :
    Reads Γ ctx constants Untyped.extended (PassesInts constants) where
  one := by decide
  typed _ _ raw typed fits s v t run :=
    Word.extended_iff.mp ((expr_canonical raw typed).self fits s v t run)

/-- All numbers of elements in an expression are of a kind when they are typed. -/
def Indices (Γ : Context) (kind : Expr → Prop) (e : Expr) : Prop :=
  e.All fun x => ∀ i ∈ Untyped.index? Γ x, ∀ i', expr Γ i = .ok i' → kind i'

variable {reading : Reading} {kind : Expr → Prop}

theorem indexOf_side {α : Type} {x y : CType} {l r i : α} (h : i ∈ indexOf op x y l r) :
    (i = l ∧ ∀ (β : Type) (l r : β), indexOf op x y l r = some l) ∨
      (i = r ∧ ∀ (β : Type) (l r : β), indexOf op x y l r = some r) := by
  unfold indexOf at h ⊢
  split at h
  · exact .inr ⟨(Option.some.inj h).symm, fun _ _ _ => rfl⟩
  · exact .inl ⟨(Option.some.inj h).symm, fun _ _ _ => rfl⟩
  · exact .inr ⟨(Option.some.inj h).symm, fun _ _ _ => rfl⟩
  · cases h

theorem binary_read (both : ¬(op = .logAnd ∨ op = .logOr))
    (reads : ∀ i ∈ indexOf op lhs.ty rhs.ty lhs rhs, ReadWhole ctx reading i)
    (h : binary Γ loc op false lhs rhs = .ok e) : Tree.expr ctx want e = (do
      let a ← Tree.expr ctx .value lhs
      let b ← Tree.expr ctx .value rhs
      arithmetic Γ reading op lhs.ty rhs.ty a b) := by
  rw [binary_meaning both h]
  unfold indexOf at reads
  split at reads
  case h_2 left right =>
    refine (reads lhs rfl).bind_congr fun a ha => bind_congr fun b => ?_
    simp only [arithmetic, left, right, ha, whole]
  case h_1 left right | h_3 left right =>
    refine bind_congr fun a => (reads rhs rfl).bind_congr fun b hb => ?_
    simp only [arithmetic, left, right, hb, whole]
  case h_4 =>
    refine bind_congr fun a => bind_congr fun b => ?_
    unfold arithmetic
    split <;> simp_all

theorem update_meaning {dir : Update} (one : reading .int 1 = 1)
    (h : update Γ loc dir e = .ok e') : Tree.expr ctx want e' = (do
      let a ← Tree.expr ctx .address e
      let v ← Tree.expr ctx .value e
      ctx.host.write (.ofType e.ty) a (← arithmetic Γ reading dir.op e.ty .int v 1)
      let v ← Tree.expr ctx .value e
      return (← arithmetic Γ reading dir.undo e.ty .int v 1).cut (.ofType e.ty)) := by
  simp only [update, bind_eq_ok, pure_eq_ok] at h
  obtain ⟨updated, hu, stored, hs, undone, hd, previous, hp, rfl⟩ := h
  have right (op : BinOp) : ∀ i ∈ indexOf op e.ty (num ⟨.void, loc⟩ 1).ty e (num ⟨.void, loc⟩ 1),
      ReadWhole ctx reading i := by
    intro i mem
    change i ∈ indexOf op e.ty .int _ _ at mem
    unfold indexOf at mem
    split at mem
    case h_1 | h_3 =>
      cases mem
      exact .pure one
    case h_2 pointer => cases pointer
    case h_4 => cases mem
  have plain : ¬(dir.op = .logAnd ∨ dir.op = .logOr) := by cases dir <;> simp [Update.op]
  have plain' : ¬(dir.undo = .logAnd ∨ dir.undo = .logOr) := by cases dir <;> simp [Update.undo]
  have updates : Tree.expr ctx .value updated = _ := binary_read plain (right _) hu
  have undoes : Tree.expr ctx .value undone = _ := binary_read plain' (right _) hd
  have one : Tree.expr ctx .value (num ⟨.void, loc⟩ 1) = pure 1 := rfl
  obtain rfl := assign_eq_ok hs
  obtain rfl := cast_eq_ok hp
  simp only [comma, Tree.expr, updates, undoes, one, bind_assoc, pure_bind]
  rfl

theorem memberOffset_of_member {note : Note} {name : String} {offset : UInt32}
    (h : member Γ loc e name = .ok (.member note e name offset)) :
    Untyped.memberOffset Γ.structs e.ty name = offset := by
  simp only [member] at h
  split at h
  · rename_i field found
    cases h
    cases ty : e.ty <;> rw [ty] at found
    case struct ref =>
      change Γ.structs.field? ref name = some field at found
      rw [Untyped.memberOffset, found]
      rfl
    all_goals cases found
  · cases h

theorem Indices.typed (reads : Reads Γ ctx constants reading kind) {note : Note} {scaled : Bool}
    {l r : Expr} (all : Indices Γ kind (.binary note op scaled lhs rhs)) (first : lhs.Raw constants)
    (second : rhs.Raw constants) (left : expr Γ lhs = .ok l) (right : expr Γ rhs = .ok r) :
    ∀ i ∈ indexOf op l.ty r.ty l r, ReadWhole ctx reading i := by
  intro i mem
  have here := all.self
  simp only [Untyped.index?, typeOf_eq left, typeOf_eq right] at here
  rcases indexOf_side mem with ⟨rfl, side⟩ | ⟨rfl, side⟩
  · exact reads.typed _ _ first left (here lhs (side _ _ _) _ left)
  · exact reads.typed _ _ second right (here rhs (side _ _ _) _ right)

mutual
/-- A typed expression means what it was made from, with indices read as `reading` says. -/
theorem Makes.meaning (reads : Reads Γ ctx constants reading kind) {e e' : Expr} : Makes Γ e e' →
    e.Raw constants → Indices Γ kind e → ∀ want, Tree.expr ctx want e' = Untyped.expr Γ reading ctx want e
  | .num, _, _, want => by
    rename_i note _ _ _
    obtain ⟨ty, loc⟩ := note
    cases ty <;> rfl
  | .str, _, _, _ | .var, _, _, _ => rfl
  | .global rule, _, _, _ => by
    rw [Tree.expr, Untyped.expr, typeOf_eq (Makes.global rule).eq_ok]
    rfl
  | .binary left right rule, ⟨unscaled, first, second⟩, all, want => by
    subst unscaled
    have leftMeaning := left.meaning reads first (all.child (.head _))
    have rightMeaning := right.meaning reads second (all.child (.tail _ (.head _)))
    rename_i op _
    by_cases logical : op = .logAnd ∨ op = .logOr
    · obtain ⟨note', rfl⟩ := binary_logical logical rule
      rcases logical with rfl | rfl
      all_goals simp only [Tree.expr, Untyped.expr, leftMeaning, rightMeaning]
    · rw [binary_read logical (all.typed reads first second left.eq_ok right.eq_ok) rule,
        Untyped.expr_binary _ _ _ logical, leftMeaning, rightMeaning, typeOf_eq left.eq_ok,
        typeOf_eq right.eq_ok]
  | .assign left right _, ⟨first, second⟩, all, _ => by
    simp only [Tree.expr, Untyped.expr, left.meaning reads first (all.child (.head _)),
      right.meaning reads second (all.child (.tail _ (.head _))), typeOf_eq left.eq_ok]
  | .comma left right, ⟨first, second⟩, all, _ => by
    simp only [comma, Tree.expr, Untyped.expr, left.meaning reads first (all.child (.head _)),
      right.meaning reads second (all.child (.tail _ (.head _)))]
  | .cond test _ yes no _, ⟨first, second, third⟩, all, _ => by
    simp only [Tree.expr, Untyped.expr, test.meaning reads first (all.child (.head _)),
      yes.meaning reads second (all.child (.tail _ (.head _))),
      no.meaning reads third (all.child (.tail _ (.tail _ (.head _))))]
  | .unary inner rule, raw, all, _ => by
    simp only [Tree.expr, Untyped.expr, inner.meaning reads raw (all.child (.head _)),
      typeOf_eq (Makes.unary inner rule).eq_ok]
    rfl
  | .addr inner _, raw, all, _ | .cast inner _, raw, all, _ => by
    simp only [Tree.expr, Untyped.expr, inner.meaning reads raw (all.child (.head _))]
  | .deref inner rule, raw, all, _ => by
    simp only [Tree.expr, Untyped.expr, inner.meaning reads raw (all.child (.head _)),
      typeOf_eq (Makes.deref inner rule).eq_ok]
    rfl
  | .member inner rule, raw, all, _ => by
    simp only [Tree.expr, Untyped.expr, inner.meaning reads raw (all.child (.head _)),
      typeOf_eq inner.eq_ok, typeOf_eq (Makes.member inner rule).eq_ok, memberOffset_of_member rule]
    rfl
  | .call inner few rule, raw, all, _ => by
    simp only [Tree.expr, Untyped.expr, inner.meaning reads raw fun _ mem => all.child mem,
      typeOf_eq (Makes.call inner few rule).eq_ok]
    rfl
  | .sizeof inner _, _, _, _ => by
    rw [Untyped.expr, typeOf_eq inner.eq_ok]
    rfl
  | .update inner rule, raw, all, _ => by
    rw [update_meaning reads.one rule]
    simp only [Untyped.expr, inner.meaning reads raw (all.child (.head _)), typeOf_eq inner.eq_ok]
theorem MakesAll.meaning (reads : Reads Γ ctx constants reading kind) {es es' : List Expr} :
    MakesAll Γ es es' → Expr.AllRaw constants es → (∀ e ∈ es, Indices Γ kind e) →
      Tree.arguments ctx es' = Untyped.arguments Γ reading ctx es
  | .nil, _, _ => rfl
  | .cons first _ rest, ⟨raw, others⟩, all => by
    obtain ⟨here, later⟩ := forall_mem_cons.mp all
    simp only [Tree.arguments, Untyped.arguments, first.meaning reads raw here,
      rest.meaning reads others later]
end

/-- A typed expression means what the expression means that it was made from, and is typed again
as it is. -/
structure Scaled (Γ : Context) (constants : List Int64) (e e' : Expr) : Prop where
  settled : expr Γ e' = .ok e'
  meaning : ∀ host base want, Tree.expr ⟨host, Γ.structs, Γ.locals, base⟩ want e' =
    Untyped.expr Γ Untyped.whole ⟨host, Γ.structs, Γ.locals, base⟩ want e
  /-- A number of elements is the number that its type says. -/
  extended : Indices Γ (PassesInts constants) e → ∀ host base want,
    Tree.expr ⟨host, Γ.structs, Γ.locals, base⟩ want e' =
      Untyped.expr Γ Untyped.extended ⟨host, Γ.structs, Γ.locals, base⟩ want e

theorem scaled_of_typed (raw : e.Raw constants) (h : expr Γ e = .ok e') : Scaled Γ constants e e' where
  settled := expr_settled h
  meaning _ _ want := (expr_makes e h).meaning reads_whole raw (fun _ _ _ _ _ _ => trivial) want
  extended fits _ _ want := (expr_makes e h).meaning reads_extended raw fits want

end Typing

/-- **Pointer arithmetic is scaled once.** In a program that parses and has types, every expression
of every function means what it means as it is written, where a sum of a pointer and a number moves
the pointer by so many elements, the difference of two pointers is a number of elements, and nothing
else is scaled. Typing the expression again leaves it as it is. A number of elements is its low part
with the sign extended, unless the operand that gives it passes on an enumeration constant that is
beyond the range of an `int`: then it is the constant. -/
theorem Program.scaled_once {source : Source} {tokens : List Lexed} {p q : Program}
    {implicitDecls : Bool} (parsed : Program.parse source tokens = .ok p)
    (typed : Typing.program implicitDecls p = .ok q) :
    List.Forall₂ (fun f f' => ∃ Γ : Typing.Context, Γ.structs = q.structs ∧ Γ.globals = q.globals ∧
      Γ.locals = f'.locals ∧ ∀ code', f'.body = some code' → ∃ code, f.body = some code ∧
        List.Forall₂ (Typing.Scaled Γ (constants source tokens)) code.exprs code'.exprs)
      p.functions q.functions := by
  have built := Program.parse_built parsed
  obtain ⟨structs, globals, functions⟩ := Typing.program_typed typed
  refine forall₂_iff_get.mpr ⟨functions.length_eq, fun i hi hi' => ?_⟩
  obtain ⟨Γ, known⟩ := functions.get hi hi'
  refine ⟨Γ, known.structs.trans structs.symm, known.globals.trans globals.symm, known.locals, ?_⟩
  intro code' body'
  obtain ⟨code, body, all⟩ := known.body code' body'
  refine ⟨code, body, ?_⟩
  have each := (built.functions _ (get_mem p.functions ⟨i, hi⟩)).body code body
  refine forall₂_iff_get.mpr ⟨all.length_eq, fun j hj hj' => ?_⟩
  exact Typing.scaled_of_typed (each _ (get_mem code.exprs ⟨j, hj⟩)) (all.get hj hj')

/-! ## Examples -/

def offsets : Source :=
  ⟨"s.c", "long f(long *p, long *q, int i) \x7b return (p + i) - (i + q); \x7d"⟩

def exprCounts? (source : Source) : Option (List (Option Nat)) := do
  let p ← (Program.parse source source.tokens).toOption
  let q ← (Typing.program false p).toOption
  return q.functions.map fun f => f.body.map (·.exprs.length)

theorem exprCounts?_offsets : exprCounts? offsets = some [some 1] := by decide +kernel

theorem scaled_once_offsets : ∃ p q f f' code code' e e' Γ,
    Program.parse offsets offsets.tokens = .ok p ∧ Typing.program false p = .ok q ∧
    p.functions = [f] ∧ q.functions = [f'] ∧ f.body = some code ∧ f'.body = some code' ∧
    code.exprs = [e] ∧ code'.exprs = [e'] ∧
    Typing.Scaled Γ (Program.constants offsets offsets.tokens) e e' := by
  obtain ⟨p, parsed, rest⟩ := Option.bind_eq_some_iff.mp exprCounts?_offsets
  obtain ⟨q, typed, counts⟩ := Option.bind_eq_some_iff.mp rest
  have parsed := eq_ok_of_toOption parsed
  have typed := eq_ok_of_toOption typed
  have functions := Program.scaled_once parsed typed
  obtain ⟨f', whole, count⟩ := map_eq_singleton_iff.mp (Option.some.inj counts)
  obtain ⟨code', body', single⟩ := Option.map_eq_some_iff.mp count
  obtain ⟨e', only'⟩ := length_eq_one_iff.mp single
  rw [whole] at functions
  obtain ⟨f, rest, ⟨Γ, -, -, -, bodies⟩, none, split⟩ := forall₂_cons_right_iff.mp functions
  cases forall₂_nil_right_iff.mp none
  obtain ⟨code, body, all⟩ := bodies code' body'
  rw [only'] at all
  obtain ⟨e, rest, scaled, none, only⟩ := forall₂_cons_right_iff.mp all
  cases forall₂_nil_right_iff.mp none
  exact ⟨p, q, f, f', code, code', e, e', Γ, parsed, typed, split, whole, body, body', only, only', scaled⟩

def beyond : Source :=
  ⟨"e.c", "enum \x7b A = 3000000000 \x7d; int *f(int *p) \x7b return p + A; \x7d"⟩

/-- The value of the first expression of a program in a memory of zeros: of the typed tree, and of
the expression as it is written where numbers of elements have their sign extended. -/
def firstValues? (source : Source) : Option (Word × Word) := do
  let p ← (Program.parse source source.tokens).toOption
  let q ← (Typing.program false p).toOption
  let f ← p.functions.head?
  let f' ← q.functions.head?
  let e ← (← f.body).exprs.head?
  let e' ← (← f'.body).exprs.head?
  let Γ : Typing.Context := ⟨q.structs, [], q.globals, [], f'.locals, false⟩
  let host : Host := ⟨fun _ => 0, fun _ _ memory => (0, memory), fun _ _ => true⟩
  let ctx : Tree.Context := ⟨host, q.structs, f'.locals, 0⟩
  match Tree.expr ctx .value e' ⟨fun _ => 0, []⟩,
    Untyped.expr Γ Untyped.extended ctx .value e ⟨fun _ => 0, []⟩ with
  | .ok a _, .ok b _ => return (a, b)
  | _, _ => none

/-- The constant is an `int` and moves the pointer by more elements than an `int` can say. -/
theorem beyond_index_unextended : firstValues? beyond = some (12000000000, -5179869184) := by
  decide +kernel

end MiniC
