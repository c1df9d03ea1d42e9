import MiniC.Proofs.Computations
import MiniC.Proofs.Grammar.Changes
import MiniC.Proofs.Typing.Formed

/-!
# Trees and types as parsing leaves them

Every array in the type of an object passed the check of its size in some table of struct types, no
pointer arithmetic is scaled, and a number is an `int` only if it is the value of an enumeration
constant. The names of locals stand for locals of the function that is being parsed. A string is the
place of an entry among the strings of the program, and the entry has the bytes of the literals that
stand at the place of the node.

What is known of an answer is stated for what the parse ends with, its `Outlook`, so it needs no
proof that later steps keep it: every step is *within* the outlook if the state behind it is.
-/
namespace MiniC

open List

/-! ## Types and trees -/

/-- Every array in the bytes of a type passed the check of its size in an earlier table. -/
def Structs.Checked (σ : Structs) : CType → Prop
  | .array element length => σ.Checked element ∧ ∃ earlier : Structs, earlier.Extends σ ∧
    earlier.checkedArray element length = some (.array element length)
  | _ => True

variable {σ : Structs} {element ty : CType} {length : UInt32}

theorem Structs.checkedArray_eq
    (h : σ.checkedArray element length = some ty) : ty = .array element length := by
  unfold Structs.checkedArray at h
  split at h
  · exact (Option.some.inj h).symm
  · cases h

theorem Structs.Checked.array {earlier : Structs} (h : σ.Checked element)
    (extends_ : earlier.Extends σ)
    (checked : earlier.checkedArray element length = some ty) : σ.Checked ty := by
  cases Structs.checkedArray_eq checked
  exact ⟨h, earlier, extends_, checked⟩

theorem Structs.Checked.decay (h : σ.Checked ty) : σ.Checked ty.decay := by
  cases ty <;> exact trivial

def Note.Number (constants : List Int64) (note : Note) (value : Int64) : Prop :=
  note.ty = .void ∨ note.ty = .long ∨ (note.ty = .int ∧ value ∈ constants)

namespace Expr

mutual
def Raw (constants : List Int64) : Expr → Prop
  | .num note value => note.Number constants value
  | .str .. | .var .. | .global .. => True
  | .binary _ _ scaled lhs rhs => scaled = false ∧ lhs.Raw constants ∧ rhs.Raw constants
  | .assign _ lhs rhs | .comma _ lhs rhs => lhs.Raw constants ∧ rhs.Raw constants
  | .cond _ test yes no => test.Raw constants ∧ yes.Raw constants ∧ no.Raw constants
  | .unary _ _ e | .addr _ e | .deref _ e | .member _ e _ _ | .cast _ _ e | .sizeof _ e
  | .update _ _ e => e.Raw constants
  | .call _ _ args => AllRaw constants args
def AllRaw (constants : List Int64) : List Expr → Prop
  | [] => True
  | e :: rest => e.Raw constants ∧ AllRaw constants rest
end

variable {constants : List Int64}

theorem allRaw_iff {es : List Expr} : AllRaw constants es ↔ ∀ e ∈ es, e.Raw constants := by
  induction es with
  | nil => exact ⟨fun _ => forall_mem_nil _, fun _ => trivial⟩
  | cons e rest ih => rw [AllRaw, ih, forall_mem_cons]

theorem numAt_raw (loc : Location) (value : Int64) : (numAt loc value).Raw constants := .inl rfl

mutual
/-- The nodes of an expression with no expression below them, also those in the operand of `sizeof`. -/
def leaves : Expr → List Expr
  | .num note value => [.num note value]
  | .str note index => [.str note index]
  | .var note index => [.var note index]
  | .global note name => [.global note name]
  | .binary _ _ _ lhs rhs | .assign _ lhs rhs | .comma _ lhs rhs => lhs.leaves ++ rhs.leaves
  | .cond _ test yes no => test.leaves ++ (yes.leaves ++ no.leaves)
  | .unary _ _ e | .addr _ e | .deref _ e | .member _ e _ _ | .cast _ _ e | .sizeof _ e
  | .update _ _ e => e.leaves
  | .call _ _ args => allLeaves args
def allLeaves : List Expr → List Expr
  | [] => []
  | e :: rest => e.leaves ++ allLeaves rest
end

theorem forall_mem_allLeaves {P : Expr → Prop} {es : List Expr} :
    (∀ x ∈ allLeaves es, P x) ↔ ∀ e ∈ es, ∀ x ∈ e.leaves, P x := by
  induction es with
  | nil => exact ⟨fun _ => forall_mem_nil _, fun _ => forall_mem_nil _⟩
  | cons e rest ih => rw [allLeaves, forall_mem_append, ih, forall_mem_cons]

end Expr

namespace Stmt

mutual
def exprs : Stmt → List Expr
  | .expr _ e => [e]
  | .ret _ e => e.toList
  | .branch _ test yes no => test :: yes.exprs ++ optionalExprs no
  | .whileLoop _ test body | .switch _ test body _ => test :: body.exprs
  | .doLoop _ body test => body.exprs ++ [test]
  | .forLoop _ init test step body => optionalExprs init ++ test.toList ++ step.toList ++ body.exprs
  | .case _ _ _ body | .default _ _ body => body.exprs
  | .exit _ | .next _ | .null _ => []
  | .block _ body => allExprs body
def optionalExprs : Option Stmt → List Expr
  | none => []
  | some s => s.exprs
def allExprs : List Stmt → List Expr
  | [] => []
  | s :: rest => s.exprs ++ allExprs rest
end

end Stmt

/-! ## What a parse ends with -/

/-- What a whole program ends with: its table of struct types and its enumeration constants. -/
structure Ending where
  structs : Structs
  constants : List Int64

/-- A function as parsing leaves it. Only a parameter may have an incomplete type, and none is an
array. -/
structure Function.Built (Ω : Ending) (f : Function) : Prop where
  checked : ∀ v ∈ f.locals, Ω.structs.Checked v.ty
  complete : ∀ i v, f.locals[i]? = some v → i ∉ f.params → Ω.structs.isComplete v.ty
  decayed : ∀ i v, f.locals[i]? = some v → i ∈ f.params → v.ty.decay = v.ty
  body : ∀ s ∈ f.body, ∀ e ∈ s.exprs, e.Raw Ω.constants

/-- Literals that stand side by side among some tokens, up to a token that is none: the place they
take up, and their bytes one after the other. -/
def Literals (tokens : List Lexed) (loc : Location) (bytes : List UInt8) : Prop :=
  ∃ before literals after, ∃ texts : List String, tokens = before ++ literals ++ after ∧
    literals.map (·.value.kind) = texts.map .str ∧
    (∀ text, after.head?.map (·.value.kind) ≠ some (.str text)) ∧
    (∃ first ∈ literals.head?, ∃ last ∈ literals.getLast?, loc = first.loc.span last.loc) ∧
    bytes = texts.flatMap Grammar.literalBytes

theorem Literals.of_suffix {tokens tokens' : List Lexed} {loc : Location} {bytes : List UInt8}
    (h : Literals tokens loc bytes) (suffix : tokens <:+ tokens') : Literals tokens' loc bytes := by
  obtain ⟨before, literals, after, texts, rfl, rest⟩ := h
  obtain ⟨front, rfl⟩ := suffix
  exact ⟨front ++ before, literals, after, texts, by simp only [append_assoc], rest⟩

/-- What a program is read from, and the strings it ends with. -/
structure Texts where
  tokens : List Lexed
  strings : List (List UInt8)

namespace Texts

/-- A string stands for the bytes of the literals at its place. -/
def Interned (Λ : Texts) (loc : Location) (index : Nat) : Prop :=
  ∃ bytes, Literals Λ.tokens loc bytes ∧ Λ.strings[index]? = some bytes

def Names (Λ : Texts) (name : String) : Prop := ∃ token ∈ Λ.tokens, token.value.kind = .id name

/-- A string is interned, and the name of a global is one of the tokens. -/
def Knows (Λ : Texts) : Expr → Prop
  | .str note index => Λ.Interned note.loc index
  | .global _ name => Λ.Names name
  | _ => True

end Texts

/-- The places of a parse at which locals may be declared: not inside of a phrase, but among the
parameters and in the body of a function. -/
inductive Layer
  | phrase
  | parameters
  | body
deriving DecidableEq

/-- What a parse ends with: the ending of the program and, in a function, the place in it, the number
of locals in the end and the number of those that stand in front of the place. What depends on the
names in the scope or on the tokens before is known only if the outlook is sound. -/
structure Outlook extends Ending, Texts where
  layer : Option Layer
  locals : Option Nat
  start : Nat
  sound : Prop

namespace Outlook

def blind (ℓ : Layer) : Outlook := ⟨⟨{}, []⟩, ⟨[], []⟩, some ℓ, some 0, 0, False⟩

def outside (Ω : Ending) (Λ : Texts) : Outlook := ⟨Ω, Λ, none, none, 0, True⟩

def parameters (Ω : Ending) (Λ : Texts) (n : Nat) : Outlook :=
  ⟨Ω, Λ, some .parameters, some n, 0, True⟩

def body (Ω : Ending) (Λ : Texts) (n k : Nat) : Outlook := ⟨Ω, Λ, some .body, some n, k, True⟩

def Checks (κ : Outlook) (ty : CType) : Prop := κ.sound → κ.structs.Checked ty

theorem blind_checks (ℓ : Layer) (ty : CType) : (blind ℓ).Checks ty := False.elim

/-- The types of the locals that are declared at a place. No parameter is an array, and a local of a
body has a complete type. -/
def Admits (κ : Outlook) (ty : CType) : Prop :=
  match κ.layer with
  | some .parameters => ty.decay = ty
  | some .body => κ.structs.isComplete ty
  | _ => False

/-- A place in the body of a function. -/
structure InBody (κ : Outlook) : Prop where
  layer : κ.layer = some .body
  locals : κ.locals ≠ none

def Sees (κ : Outlook) (n : Nat) : Prop := κ.sound ∧ κ.locals = some n

end Outlook

namespace Expr

variable {n : Nat} {e : Option Expr}

theorem allScoped_iff {es : List Expr} : AllScoped n es ↔ ∀ e ∈ es, e.Scoped n := by
  induction es with
  | nil => exact ⟨fun _ => forall_mem_nil _, fun _ => trivial⟩
  | cons e rest ih => rw [AllScoped, ih, forall_mem_cons]

theorem optionalScoped_iff :
    OptionalScoped n e ↔ ∀ x ∈ e, x.Scoped n := by
  cases e <;> simp [OptionalScoped]

/-- A tree as parsing leaves it, over the locals of the function and the strings of the program. -/
structure Fits (κ : Outlook) (e : Expr) : Prop where
  raw : e.Raw κ.constants
  bound : ∀ {n}, κ.Sees n → e.Scoped n
  known : κ.sound → ∀ x ∈ e.leaves, κ.Knows x

namespace Fits

variable {κ : Outlook} {lhs rhs e : Expr}

theorem num {note : Note} {value : Int64} (h : note.Number κ.constants value) :
    (Expr.num note value).Fits κ :=
  ⟨h, fun _ => trivial, fun _ => forall_mem_singleton.mpr trivial⟩

theorem numAt (loc : Location) (value : Int64) : (numAt loc value).Fits κ :=
  .num (numAt_raw loc value)

theorem known_pair (left : lhs.Fits κ) (right : rhs.Fits κ) (sound : κ.sound) :
    ∀ x ∈ lhs.leaves ++ rhs.leaves, κ.Knows x :=
  forall_mem_append.mpr ⟨left.known sound, right.known sound⟩

theorem binary (op : BinOp) (left : lhs.Fits κ) (right : rhs.Fits κ) :
    (mkBinary op lhs rhs).Fits κ :=
  ⟨⟨rfl, left.raw, right.raw⟩, fun sees => ⟨left.bound sees, right.bound sees⟩, left.known_pair right⟩

theorem assign (left : lhs.Fits κ) (right : rhs.Fits κ) : (mkAssign lhs rhs).Fits κ :=
  ⟨⟨left.raw, right.raw⟩, fun sees => ⟨left.bound sees, right.bound sees⟩, left.known_pair right⟩

theorem comma (left : lhs.Fits κ) (right : rhs.Fits κ) : (mkComma lhs rhs).Fits κ :=
  ⟨⟨left.raw, right.raw⟩, fun sees => ⟨left.bound sees, right.bound sees⟩, left.known_pair right⟩

theorem deref (h : e.Fits κ) : (mkDeref e).Fits κ := ⟨h.raw, h.bound, h.known⟩

theorem member (name : String) (h : e.Fits κ) : (mkMember e name).Fits κ :=
  ⟨h.raw, h.bound, h.known⟩

theorem call {args : List Expr} (note : Note) (name : String) (h : ∀ e ∈ args, e.Fits κ) :
    (Expr.call note name args).Fits κ :=
  ⟨allRaw_iff.mpr fun e mem => (h e mem).raw,
    fun sees => allScoped_iff.mpr fun e mem => (h e mem).bound sees,
    fun sound => forall_mem_allLeaves.mpr fun e mem => (h e mem).known sound⟩

end Fits

end Expr

namespace Stmt

variable {n : Nat} {s : Option Stmt}

theorem allScoped_iff {body : List Stmt} : AllScoped n body ↔ ∀ s ∈ body, s.Scoped n := by
  induction body with
  | nil => exact ⟨fun _ => forall_mem_nil _, fun _ => trivial⟩
  | cons s rest ih => rw [AllScoped, ih, forall_mem_cons]

theorem optionalScoped_iff :
    OptionalScoped n s ↔ ∀ x ∈ s, x.Scoped n := by
  cases s <;> simp [OptionalScoped]

theorem forall_mem_allExprs {P : Expr → Prop} {body : List Stmt} :
    (∀ e ∈ allExprs body, P e) ↔ ∀ s ∈ body, ∀ e ∈ s.exprs, P e := by
  induction body with
  | nil => exact ⟨fun _ => forall_mem_nil _, fun _ => forall_mem_nil _⟩
  | cons s rest ih => rw [allExprs, forall_mem_append, ih, forall_mem_cons]

theorem forall_mem_optionalExprs {P : Expr → Prop} :
    (∀ e ∈ optionalExprs s, P e) ↔ ∀ x ∈ s, ∀ e ∈ x.exprs, P e := by
  cases s <;> simp [optionalExprs]

/-- A statement as parsing leaves it, over the locals of the function. -/
structure Fits (κ : Outlook) (s : Stmt) : Prop where
  exprs : ∀ e ∈ s.exprs, e.Fits κ
  bound : ∀ {n}, κ.Sees n → s.Scoped n

namespace Fits

variable {κ : Outlook} {test e : Expr} {body : Stmt}

theorem plain (h : e.Fits κ) (loc : Location) : (expr loc e).Fits κ :=
  ⟨forall_mem_singleton.mpr h, h.bound⟩

theorem ret {value : Option Expr} (h : ∀ e ∈ value, e.Fits κ) (loc : Location) :
    (ret loc value).Fits κ :=
  ⟨fun e mem => h e (Option.mem_toList.mp mem),
    fun sees => Expr.optionalScoped_iff.mpr fun e mem => (h e mem).bound sees⟩

theorem branch {yes : Stmt} {no : Option Stmt} (first : test.Fits κ) (second : yes.Fits κ)
    (third : ∀ s ∈ no, s.Fits κ) (loc : Location) : (branch loc test yes no).Fits κ :=
  ⟨forall_mem_cons.mpr ⟨first, forall_mem_append.mpr ⟨second.exprs,
      forall_mem_optionalExprs.mpr fun s mem => (third s mem).exprs⟩⟩,
    fun sees => ⟨first.bound sees, second.bound sees,
      optionalScoped_iff.mpr fun s mem => (third s mem).bound sees⟩⟩

theorem whileLoop (first : test.Fits κ) (second : body.Fits κ) (loc : Location) :
    (whileLoop loc test body).Fits κ :=
  ⟨forall_mem_cons.mpr ⟨first, second.exprs⟩, fun sees => ⟨first.bound sees, second.bound sees⟩⟩

theorem doLoop (first : test.Fits κ) (second : body.Fits κ) (loc : Location) :
    (doLoop loc body test).Fits κ :=
  ⟨forall_mem_append.mpr ⟨second.exprs, forall_mem_singleton.mpr first⟩,
    fun sees => ⟨first.bound sees, second.bound sees⟩⟩

theorem forLoop {init : Option Stmt} {test step : Option Expr} (first : ∀ s ∈ init, s.Fits κ)
    (second : ∀ e ∈ test, e.Fits κ) (third : ∀ e ∈ step, e.Fits κ) (fourth : body.Fits κ)
    (loc : Location) : (forLoop loc init test step body).Fits κ :=
  ⟨forall_mem_append.mpr ⟨forall_mem_append.mpr ⟨forall_mem_append.mpr
      ⟨forall_mem_optionalExprs.mpr fun s mem => (first s mem).exprs,
        fun e mem => second e (Option.mem_toList.mp mem)⟩,
        fun e mem => third e (Option.mem_toList.mp mem)⟩, fourth.exprs⟩,
    fun sees => ⟨optionalScoped_iff.mpr fun s mem => (first s mem).bound sees,
      Expr.optionalScoped_iff.mpr fun e mem => (second e mem).bound sees,
      Expr.optionalScoped_iff.mpr fun e mem => (third e mem).bound sees, fourth.bound sees⟩⟩

theorem switch (first : e.Fits κ) (second : body.Fits κ) (loc : Location) :
    (switch loc e body []).Fits κ :=
  ⟨forall_mem_cons.mpr ⟨first, second.exprs⟩, fun sees => ⟨first.bound sees, second.bound sees⟩⟩

theorem case (value : Int64) (h : body.Fits κ) (loc : Location) :
    (case loc value none body).Fits κ :=
  ⟨h.exprs, fun sees => ⟨rfl, h.bound sees⟩⟩

theorem default (h : body.Fits κ) (loc : Location) : (default loc none body).Fits κ :=
  ⟨h.exprs, fun sees => ⟨rfl, h.bound sees⟩⟩

theorem block {stmts : List Stmt} (h : ∀ s ∈ stmts, s.Fits κ) (loc : Location) :
    (block loc stmts).Fits κ :=
  ⟨forall_mem_allExprs.mpr fun s mem => (h s mem).exprs,
    fun sees => allScoped_iff.mpr fun s mem => (h s mem).bound sees⟩

end Fits

end Stmt

namespace Init

def Fits (κ : Outlook) (init : Init) : Prop := ∀ e ∈ init.exprs, e.Fits κ

theorem list_fits_iff {κ : Outlook} {items : List Init} {loc : Location} :
    (list items loc).Fits κ ↔ ∀ item ∈ items, item.Fits κ := by
  rw [Fits, exprs]
  induction items with
  | nil => exact ⟨fun _ => forall_mem_nil _, fun _ => forall_mem_nil _⟩
  | cons item rest ih => rw [allExprs, forall_mem_append, ih, forall_mem_cons]; rfl

section Assignments

variable {κ : Outlook}

variable {e : Expr}

theorem elementAt_fits (index : Nat) (h : e.Fits κ) : (e.elementAt index).Fits κ :=
  (h.binary .add (.numAt _ _)).deref

theorem scalarValue_fits {ty : CType} : (init : Init) → init.Fits κ → ∀ ⦃value : Expr⦄,
    scalarValue ty init = .ok (some value) → value.Fits κ
  | .expr e, known => by
    intro value h
    cases h
    exact known e mem_cons_self
  | .list [] _, _ => nofun
  | .list [item] _, known =>
    fun _ h => scalarValue_fits item (list_fits_iff.mp known item mem_cons_self) h
  | .list (_ :: _ :: _) _, _ => nofun
  | .str .., _ => nofun

theorem assignElements_fits
    {assign : Expr → Option Init → Except (Located SyntaxError) (List Expr)} {array : Expr}
    (each : ∀ index item l, (∀ init ∈ item, init.Fits κ) → assign (array.elementAt index) item = .ok l →
      ∀ a ∈ l, a.Fits κ) (count : Nat) :
    ∀ (index : Nat) (items : List Init) (l : List Expr), (∀ item ∈ items, item.Fits κ) →
      assignElements assign array index count items = .ok l → ∀ a ∈ l, a.Fits κ := by
  induction count with
  | zero =>
    intro index items l _ h
    cases h
    exact nofun
  | succ count ih =>
    intro index items l known h
    simp only [assignElements, bind_eq_ok] at h
    obtain ⟨first, hf, rest, hr, same⟩ := h
    cases same
    intro a mem
    rcases mem_append.mp mem with mem | mem
    · exact each index _ _ (fun init mem => known init (mem_of_head? mem)) hf a mem
    · exact ih _ _ _ (fun item mem => known item (mem_of_mem_tail mem)) hr a mem

theorem assignBytes_fits {array : Expr} (bytes : List UInt8) (count : Nat)
    (target : array.Fits κ) : ∀ a ∈ assignBytes array bytes count, a.Fits κ := by
  intro a mem
  obtain ⟨i, hi, rfl⟩ := getElem_of_mem mem
  simp only [assignBytes, getElem_zipWith]
  exact (elementAt_fits _ target).assign (.numAt _ _)

mutual
/-- The assignments of an initializer that fits do. -/
theorem assignments_fits : (shape : Shape) → (target : Expr) → (init : Option Init) →
    target.Fits κ → (∀ i ∈ init, i.Fits κ) → ∀ ⦃l : List Expr⦄,
    assignments target shape init = .ok l → ∀ a ∈ l, a.Fits κ
  | .scalar ty, target, init, kept, known => by
    intro l h
    simp only [assignments, bind_eq_ok] at h
    obtain ⟨value, hv, same⟩ := h
    cases same
    intro a mem
    cases mem_singleton.mp mem
    refine kept.assign ?_
    cases value with
    | none => exact .numAt _ _
    | some value =>
      cases init with
      | none => cases hv
      | some init => exact scalarValue_fits init (known init rfl) hv
  | .array element length ty, target, init, kept, known => by
    intro l h
    have each : ∀ index item l, (∀ i ∈ item, i.Fits κ) →
        assignments (target.elementAt index) element item = .ok l → ∀ a ∈ l, a.Fits κ :=
      fun index item l known h =>
        assignments_fits element (target.elementAt index) item (elementAt_fits index kept) known h
    rcases init with _ | e | ⟨items, loc⟩ | ⟨bytes, loc⟩
    · rw [assignments] at h
      exact assignElements_fits each _ _ [] _ nofun h
    · cases h
    · rw [assignments] at h
      split at h
      · cases h
      · exact assignElements_fits each _ _ _ _ (list_fits_iff.mp (known _ rfl)) h
    · rw [assignments] at h
      split at h
      · cases h
      · cases h
        exact assignBytes_fits _ _ kept
  | .struct members ty, target, init, kept, known => by
    intro l h
    rcases init with _ | e | ⟨items, loc⟩ | ⟨bytes, loc⟩
    · rw [assignments] at h
      exact memberAssignments_fits members target [] kept nofun h
    · cases h
    · rw [assignments] at h
      split at h
      · cases h
      · exact memberAssignments_fits members target _ kept (list_fits_iff.mp (known _ rfl)) h
    · cases h
theorem memberAssignments_fits : (members : List (Field × Shape)) → (target : Expr) →
    (items : List Init) → target.Fits κ → (∀ item ∈ items, item.Fits κ) → ∀ ⦃l : List Expr⦄,
    memberAssignments target members items = .ok l → ∀ a ∈ l, a.Fits κ
  | [], target, items, _, _ => by
    intro l h
    cases h
    exact nofun
  | (field, shape) :: members, target, items, kept, known => by
    intro l h
    simp only [memberAssignments, bind_eq_ok] at h
    obtain ⟨first, hf, rest, hr, same⟩ := h
    cases same
    intro a mem
    rcases mem_append.mp mem with mem | mem
    · exact assignments_fits shape (target.mkMember field.name) _ (kept.member _)
        (fun init mem => known init (mem_of_head? mem)) hf a mem
    · exact memberAssignments_fits members _ _ kept
        (fun item mem => known item (mem_of_mem_tail mem)) hr a mem
end

theorem toExpr?_fits {σ : Structs} {target : Expr} {ty : CType} {init : Init} (kept : target.Fits κ)
    (known : init.Fits κ) (h : init.toExpr? σ target ty = .ok (some e)) : e.Fits κ := by
  simp only [toExpr?, bind_eq_ok] at h
  obtain ⟨l, hl, h⟩ := h
  have all := assignments_fits _ target (some init) kept (by rintro _ ⟨⟩; exact known) hl
  cases l with
  | nil => cases h
  | cons first rest =>
    cases h
    rw [forall_mem_cons] at all
    obtain ⟨start, others⟩ := all
    clear hl
    induction rest generalizing first with
    | nil => exact start
    | cons a rest ih =>
      rw [forall_mem_cons] at others
      exact ih _ (start.comma others.1) others.2

end Assignments

end Init

/-! ## States -/

namespace ParseState

/-- What a step keeps at a place. Locals are added at the end, and names to the innermost block. -/
structure Keeps (ℓ : Layer) (s t : ParseState) : Prop where
  structs : s.structs.Extends t.structs
  locals : if ℓ = .phrase then t.locals = s.locals else s.locals <+: t.locals
  outer : t.scope.outer.map (·.vars) = s.scope.outer.map (·.vars)
  globals : t.globals = s.globals
  functions : t.functions = s.functions

variable {ℓ : Layer} {t : ParseState} {scope : Scope} {ty : CType} {Ω : Ending} {n : Nat}
  {name : String}

theorem Keeps.trans {s u : ParseState} (first : s.Keeps ℓ t) (rest : t.Keeps ℓ u) :
    s.Keeps ℓ u := by
  refine ⟨first.structs.trans rest.structs, ?_, rest.outer.trans first.outer,
    rest.globals.trans first.globals, rest.functions.trans first.functions⟩
  have before := first.locals
  have after := rest.locals
  split_ifs at before after ⊢
  · rw [after, before]
  · exact before.trans after

theorem Keeps.plain {s : ParseState} (structs : s.structs.Extends t.structs)
    (locals : t.locals = s.locals) (outer : t.scope.outer = s.scope.outer)
    (globals : t.globals = s.globals) (functions : t.functions = s.functions) : s.Keeps ℓ t := by
  refine ⟨structs, ?_, by rw [outer], globals, functions⟩
  rw [locals]
  split
  · rfl
  · exact prefix_refl _

theorem Keeps.refl (ℓ : Layer) (s : ParseState) : s.Keeps ℓ s := .plain (.refl _) rfl rfl rfl rfl

theorem Keeps.same {s : ParseState} (h : s.Keeps .phrase t) : t.locals = s.locals := h.locals

theorem leave_vars {scope' : Scope}
    (outer : scope'.outer.map (·.vars) = scope.blocks.map (·.vars)) :
    scope'.leave.blocks.map (·.vars) = scope.blocks.map (·.vars) := by
  unfold Scope.leave
  cases blocks : scope'.outer with
  | nil =>
    rw [blocks] at outer
    cases outer
  | cons inner rest =>
    rw [blocks] at outer
    exact outer

theorem Keeps.leave {s : ParseState} (h : s.enter.Keeps ℓ t) : s.Keeps ℓ t.leave :=
  ⟨h.structs, h.locals, congrArg List.tail (leave_vars h.outer), h.globals, h.functions⟩

/-- A state from which a parse may still reach its end. -/
structure Within (κ : Outlook) (s : ParseState) : Prop where
  structs : s.structs.Extends κ.structs
  constants : ∀ entry ∈ s.enums, entry.2 ∈ κ.constants
  locals : ∀ n ∈ κ.locals, s.locals.length ≤ n
  strings : s.strings <+: κ.strings

/-- The types and the functions of a state are built well, and its names stand for locals. Outside
of functions there are none. -/
structure Built (κ : Outlook) (s : ParseState) : Prop where
  typedefs : ∀ block ∈ s.scope.blocks, ∀ entry ∈ block.typedefs, κ.structs.Checked entry.2
  tags : ∀ block ∈ s.scope.blocks, ∀ entry ∈ block.tags, κ.structs.Checked entry.2
  vars : ∀ block ∈ s.scope.blocks, ∀ entry ∈ block.vars, entry.2 < s.locals.length
  fields : ∀ entry ∈ s.structs.layouts, ∀ field ∈ entry.2.fields, κ.structs.Checked field.ty
  locals : ∀ v ∈ s.locals, κ.structs.Checked v.ty
  new : ∀ v ∈ s.locals.drop κ.start, κ.Admits v.ty
  outside : κ.locals = none → s.locals = []
  globals : ∀ global ∈ s.globals, κ.structs.Checked global.ty
  functions : ∀ f ∈ s.functions, f.Built κ.toEnding ∧ f.Scoped
  tokens : s.tokens <:+ κ.tokens
  distinct : s.strings.Nodup
  images : ∀ global ∈ s.globals, ∀ image ∈ global.init, ∃ (init : Init) (known : Init.Known),
      init.Fits (.outside κ.toEnding κ.toTexts) ∧ init.image known global.ty = .ok image
  leaves : ∀ f ∈ s.functions, ∀ body ∈ f.body, ∀ e ∈ body.exprs, ∀ x ∈ e.leaves, κ.Knows x

variable {κ : Outlook} {s : ParseState}

theorem Built.withInner (h : s.Built κ) (names : Names)
    (typedefs : ∀ entry ∈ names.typedefs, κ.structs.Checked entry.2)
    (tags : ∀ entry ∈ names.tags, κ.structs.Checked entry.2)
    (vars : ∀ entry ∈ names.vars, entry.2 < s.locals.length) :
    Built κ { s with scope := ⟨names, s.scope.outer⟩ } where
  typedefs := forall_mem_cons.mpr
    ⟨typedefs, fun block mem => h.typedefs block (mem_cons_of_mem _ mem)⟩
  tags := forall_mem_cons.mpr ⟨tags, fun block mem => h.tags block (mem_cons_of_mem _ mem)⟩
  vars := forall_mem_cons.mpr ⟨vars, fun block mem => h.vars block (mem_cons_of_mem _ mem)⟩
  __ := h

theorem Built.innerTypedefs (h : s.Built κ) :
    ∀ entry ∈ s.scope.inner.typedefs, κ.structs.Checked entry.2 := h.typedefs _ mem_cons_self

theorem Built.innerTags (h : s.Built κ) :
    ∀ entry ∈ s.scope.inner.tags, κ.structs.Checked entry.2 := h.tags _ mem_cons_self

theorem Built.innerVars (h : s.Built κ) :
    ∀ entry ∈ s.scope.inner.vars, entry.2 < s.locals.length := h.vars _ mem_cons_self

theorem Built.addTypedef (h : s.Built κ) (name : String)
    (checked : κ.structs.Checked ty) : Built κ { s with scope := s.scope.addTypedef name ty } :=
  h.withInner _ (forall_mem_cons.mpr ⟨checked, h.innerTypedefs⟩)
    (h.innerTags) (h.innerVars)

theorem Built.addTag (h : s.Built κ) (name : String)
    (checked : κ.structs.Checked ty) : Built κ { s with scope := s.scope.addTag name ty } :=
  h.withInner _ (h.innerTypedefs)
    (forall_mem_cons.mpr ⟨checked, h.innerTags⟩) (h.innerVars)

theorem Built.enter (h : s.Built κ) : Built κ { s with scope := s.scope.enter } where
  typedefs := forall_mem_cons.mpr ⟨nofun, h.typedefs⟩
  tags := forall_mem_cons.mpr ⟨nofun, h.tags⟩
  vars := forall_mem_cons.mpr ⟨nofun, h.vars⟩
  __ := h

theorem mem_blocks_leave {block : Names} (h : block ∈ scope.leave.blocks) :
    block ∈ scope.blocks := by
  unfold Scope.leave at h
  split at h
  · rename_i inner outer same
    rw [Scope.blocks, same]
    exact mem_cons_of_mem _ h
  · exact h

theorem Built.leave (h : s.Built κ) : Built κ { s with scope := s.scope.leave } where
  typedefs block mem := h.typedefs block (mem_blocks_leave mem)
  tags block mem := h.tags block (mem_blocks_leave mem)
  vars block mem := h.vars block (mem_blocks_leave mem)
  __ := h

/-- Declaring a local of a checked type keeps a state built. -/
theorem Built.declareLocal (h : s.Built κ) (name : Located String) (checked : κ.structs.Checked ty)
    (admitted : κ.Admits ty) (inside : κ.locals ≠ none) :
    (s.declareLocal name ty).2.Built κ where
  typedefs := forall_mem_cons.mpr ⟨h.innerTypedefs,
    fun block mem => h.typedefs block (mem_cons_of_mem _ mem)⟩
  tags := forall_mem_cons.mpr ⟨h.innerTags, fun block mem => h.tags block (mem_cons_of_mem _ mem)⟩
  vars := by
    have old : ∀ block ∈ s.scope.blocks, ∀ entry ∈ block.vars,
        entry.2 < (s.declareLocal name ty).2.locals.length := by
      intro block mem entry mem'
      rw [ParseState.declareLocal, length_append]
      exact Nat.lt_add_right 1 (h.vars block mem entry mem')
    refine forall_mem_cons.mpr ⟨forall_mem_cons.mpr ⟨?_, old _ mem_cons_self⟩,
      fun block mem => old block (mem_cons_of_mem _ mem)⟩
    rw [ParseState.declareLocal, length_append]
    exact Nat.lt_succ_self _
  locals := forall_mem_append.mpr ⟨h.locals, forall_mem_singleton.mpr checked⟩
  new v mem := by
    change v ∈ (s.locals ++ [_]).drop κ.start at mem
    rw [drop_append] at mem
    rcases mem_append.mp mem with mem | mem
    · exact h.new v mem
    · cases mem_singleton.mp (mem_of_mem_drop mem)
      exact admitted
  outside none := absurd none inside
  __ := h

variable {Λ : Texts}

theorem Built.unnamed (h : s.Built (.outside Ω Λ)) :
    ∀ vars ∈ s.scope.blocks.map (·.vars), vars = [] := by
  intro vars mem
  obtain ⟨block, listed, rfl⟩ := mem_map.mp mem
  refine eq_nil_iff_forall_not_mem.mpr fun entry inside => ?_
  have below := h.vars block listed entry inside
  rw [h.outside rfl] at below
  cases below

theorem Built.enterFunction (h : s.Built (.outside Ω Λ)) (n : Nat) :
    (ParseState.enter { s with locals := [] }).Built (.parameters Ω Λ n) :=
  { h.enter with
    vars := h.outside rfl ▸ h.enter.vars, locals := nofun, new := nofun, outside := nofun }

theorem Built.enterBody (h : s.Built (.parameters Ω Λ n)) :
    s.Built (.body Ω Λ n s.locals.length) := by
  refine { h with new := fun v mem => ?_, outside := nofun }
  rw [Outlook.body, drop_length] at mem
  cases mem

theorem Built.leaveFunction {k : Nat} {f : Function} (h : t.Built (.body Ω Λ n k))
    (before : s.Built (.outside Ω Λ))
    (outer : t.scope.outer.map (·.vars) = s.scope.blocks.map (·.vars)) (built : f.Built Ω)
    (bound : f.Scoped) (known : ∀ body ∈ f.body, ∀ e ∈ body.exprs, ∀ x ∈ e.leaves, Λ.Knows x) :
    Built (.outside Ω Λ)
      { t with scope := t.scope.leave, locals := [], functions := t.functions ++ [f] } := by
  refine { h.leave with
    vars := fun block mem entry inside => ?_
    locals := nofun
    new := nofun
    outside := fun _ => rfl
    functions := forall_mem_append.mpr
      ⟨h.functions, forall_mem_singleton.mpr ⟨built, bound⟩⟩
    leaves := forall_mem_append.mpr ⟨h.leaves, forall_mem_singleton.mpr known⟩ }
  have same := leave_vars outer
  have listed := mem_map_of_mem (f := (·.vars)) mem
  rw [same] at listed
  rw [before.unnamed _ listed] at inside
  cases inside

theorem checked_of_find? {σ : Structs} {entries : List (String × CType)}
    (checked : ∀ entry ∈ entries, σ.Checked entry.2) (found : Scope.find? entries name = some ty) :
    σ.Checked ty := by
  simp only [Scope.find?, Option.map_eq_some_iff] at found
  obtain ⟨entry, found, rfl⟩ := found
  exact checked entry (mem_of_find?_eq_some found)

theorem Built.typedef? (h : s.Built κ)
    (found : s.scope.typedef? name = some ty) : κ.structs.Checked ty := by
  unfold Scope.typedef? at found
  split at found
  · cases found
  · refine checked_of_find? (fun entry mem => ?_) found
    obtain ⟨block, inside, mem⟩ := mem_flatMap.mp mem
    exact h.typedefs block inside entry mem

theorem Built.tag? (h : s.Built κ)
    (found : s.scope.tag? name = some ty) : κ.structs.Checked ty := by
  refine checked_of_find? (fun entry mem => ?_) found
  obtain ⟨block, inside, mem⟩ := mem_flatMap.mp mem
  exact h.tags block inside entry mem

theorem Within.lookup? (h : s.Within κ) (built : κ.sound → s.Built κ) {loc : Location} {e : Expr}
    (named : κ.sound → κ.Names name) (found : s.lookup? name loc = some e) : e.Fits κ := by
  unfold ParseState.lookup? at found
  split at found
  · rename_i index here
    cases found
    refine ⟨trivial, fun ⟨sound, inside⟩ => ?_, fun _ => forall_mem_singleton.mpr trivial⟩
    simp only [Scope.var?, Scope.find?, Option.map_eq_some_iff] at here
    obtain ⟨v, here, rfl⟩ := here
    obtain ⟨block, mem, mem'⟩ := mem_flatMap.mp (mem_of_find?_eq_some here)
    exact Nat.lt_of_lt_of_le ((built sound).vars block mem v mem') (h.locals _ inside)
  · split at found
    · cases found
      exact ⟨trivial, fun _ => trivial, fun sound => forall_mem_singleton.mpr (named sound)⟩
    · simp only [Scope.find?, Option.map_eq_some_iff] at found
      obtain ⟨value, ⟨entry, found, rfl⟩, rfl⟩ := found
      exact .num (.inr (.inr ⟨rfl, h.constants entry (mem_of_find?_eq_some found)⟩))

end ParseState

end MiniC
