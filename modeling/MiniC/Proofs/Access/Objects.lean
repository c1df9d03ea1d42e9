import MiniC.Ir
import MiniC.Proofs.FrameLayouts
import MiniC.Proofs.Grammar.Functions
import MiniC.Proofs.Semantics.Tree
import MiniC.Proofs.Typing.Expressions

/-!
# The objects that a function accesses

A typed tree says which objects it loads and stores, and in what order: the scalars whose value is
wanted, and the targets of assignments. Each of them is an lvalue. Its type is a scalar other than
`void`, with two exceptions: a parameter and a global that is defined elsewhere may be declared
`void`.

The locals of a function lie below each other in its frame, and a member lies inside its struct; so
the place of a named local, or of a member of one, is inside the slot of that local.
-/

namespace MiniC

open List

/-- An access to memory: the object that is loaded or stored. -/
structure Access where
  stores : Bool
  object : Expr

namespace Expr

/-- The load of an object, if its value is wanted. Arrays and structs are handled by their address. -/
def load (want : Want) (object : Expr) : List Access :=
  match want with
  | .address => []
  | .value => if object.ty.isAggregate then [] else [⟨false, object⟩]

mutual
def accesses (want : Want) : Expr → List Access
  | .num .. | .sizeof .. | .update .. => []
  | .str note index => load want (.str note index)
  | .var note index => load want (.var note index)
  | .global note name => load want (.global note name)
  | .deref note pointer => pointer.accesses .value ++ load want (.deref note pointer)
  | .member note base name offset =>
    base.accesses .address ++ load want (.member note base name offset)
  | .binary _ _ _ lhs rhs => lhs.accesses .value ++ rhs.accesses .value
  | .assign _ lhs rhs => lhs.accesses .address ++ rhs.accesses .value ++ [⟨true, lhs⟩]
  | .comma _ lhs rhs => lhs.accesses .value ++ rhs.accesses want
  | .cond _ test yes no => test.accesses .value ++ yes.accesses .value ++ no.accesses .value
  | .unary _ _ operand | .cast _ _ operand => operand.accesses .value
  | .addr _ operand => operand.accesses .address
  | .call _ _ args => allAccesses args
def allAccesses : List Expr → List Access
  | [] => []
  | e :: rest => e.accesses .value ++ allAccesses rest
end

def optionalAccesses : Option Expr → List Access
  | none => []
  | some e => e.accesses .value

/-- The local that an lvalue is, or is a member of, with the distance from its start. -/
def slot? : Expr → Option (Nat × Nat)
  | .var _ index => some (index, 0)
  | .member _ base _ offset => base.slot?.map fun place => (place.1, place.2 + offset.toNat)
  | _ => none

/-! ## Accesses are over the locals -/

variable {n : Nat}

theorem slot?_lt : (x : Expr) → x.Formed n → ∀ {place : Nat × Nat}, x.slot? = some place → place.1 < n
  | .var _ index, formed, _, found => by
    cases found
    exact formed
  | .member _ base _ _, formed, _, found => by
    obtain ⟨outer, inner, rfl⟩ := Option.map_eq_some_iff.mp found
    exact (slot?_lt base formed inner : outer.1 < n)

theorem load_formed {x : Expr} (want : Want) (formed : x.Formed n) :
    ∀ a ∈ x.load want, a.object.Formed n := by
  intro a mem
  cases want with
  | address => cases mem
  | value =>
    by_cases aggregate : x.ty.isAggregate = true
    · rw [load, if_pos aggregate] at mem
      cases mem
    · rw [load, if_neg aggregate] at mem
      cases mem_singleton.mp mem
      exact formed

mutual
/-- The objects that a formed expression accesses are formed. -/
theorem accesses_formed : (e : Expr) → e.Formed n → ∀ want, ∀ a ∈ e.accesses want, a.object.Formed n
  | .num .., _, _ | .sizeof .., _, _ | .update .., _, _ => forall_mem_nil _
  | .str .., h, want | .var .., h, want | .global .., h, want => load_formed want h
  | .deref note pointer, h, want => forall_mem_append.mpr
    ⟨accesses_formed pointer h .value, load_formed (x := .deref note pointer) want h⟩
  | .member note base name offset, h, want => forall_mem_append.mpr
    ⟨accesses_formed base h .address, load_formed (x := .member note base name offset) want h⟩
  | .binary _ _ _ lhs rhs, h, _ => forall_mem_append.mpr
    ⟨accesses_formed lhs h.1 .value, accesses_formed rhs h.2 .value⟩
  | .assign _ lhs rhs, h, _ => by
    refine forall_mem_append.mpr ⟨forall_mem_append.mpr
      ⟨accesses_formed lhs h.1 .address, accesses_formed rhs h.2 .value⟩, fun a mem => ?_⟩
    cases mem_singleton.mp mem
    exact h.1
  | .comma _ lhs rhs, h, want => forall_mem_append.mpr
    ⟨accesses_formed lhs h.1 .value, accesses_formed rhs h.2 want⟩
  | .cond _ test yes no, h, _ => forall_mem_append.mpr ⟨forall_mem_append.mpr
    ⟨accesses_formed test h.1 .value, accesses_formed yes h.2.1 .value⟩,
    accesses_formed no h.2.2 .value⟩
  | .unary _ _ operand, h, _ | .cast _ _ operand, h, _ => accesses_formed operand h .value
  | .addr _ operand, h, _ => accesses_formed operand h .address
  | .call _ _ args, h, _ => allAccesses_formed args h.2
theorem allAccesses_formed : (args : List Expr) → AllFormed n args →
    ∀ a ∈ allAccesses args, a.object.Formed n
  | [], _ => forall_mem_nil _
  | e :: rest, h => forall_mem_append.mpr
    ⟨accesses_formed e h.1 .value, allAccesses_formed rest h.2⟩
end

end Expr

namespace Stmt

mutual
def accesses : Stmt → List Access
  | .expr _ e => e.accesses .value
  | .ret _ e => Expr.optionalAccesses e
  | .branch _ test yes no => test.accesses .value ++ yes.accesses ++ optionalAccesses no
  | .whileLoop _ test body => test.accesses .value ++ body.accesses
  | .doLoop _ body test => body.accesses ++ test.accesses .value
  | .forLoop _ init test step body =>
    optionalAccesses init ++ Expr.optionalAccesses test ++ body.accesses ++ Expr.optionalAccesses step
  | .switch _ e body _ => e.accesses .value ++ body.accesses
  | .case _ _ _ body | .default _ _ body => body.accesses
  | .exit _ | .next _ | .null _ => []
  | .block _ body => allAccesses body
def optionalAccesses : Option Stmt → List Access
  | none => []
  | some s => s.accesses
def allAccesses : List Stmt → List Access
  | [] => []
  | s :: rest => s.accesses ++ allAccesses rest
end

variable {P : Access → Prop}

theorem forall_optionalAccesses {e : Option Expr} (h : ∀ x ∈ e.toList, ∀ a ∈ x.accesses .value, P a) :
    ∀ a ∈ Expr.optionalAccesses e, P a := by
  cases e with
  | none => exact forall_mem_nil _
  | some e => exact h e (mem_singleton_self e)

mutual
/-- What holds of the accesses of its expressions holds of those of a statement. -/
theorem forall_accesses : (s : Stmt) → (∀ e ∈ s.exprs, ∀ a ∈ e.accesses .value, P a) →
    ∀ a ∈ s.accesses, P a
  | .expr _ e, h => h e (mem_singleton_self e)
  | .ret _ _, h => forall_optionalAccesses h
  | .branch _ _ yes no, h => by
    obtain ⟨first, h⟩ := forall_mem_cons.mp h
    obtain ⟨second, third⟩ := forall_mem_append.mp h
    exact forall_mem_append.mpr ⟨forall_mem_append.mpr ⟨first, forall_accesses yes second⟩,
      forall_optionalStmt no third⟩
  | .whileLoop _ _ body, h | .switch _ _ body _, h => by
    obtain ⟨first, second⟩ := forall_mem_cons.mp h
    exact forall_mem_append.mpr ⟨first, forall_accesses body second⟩
  | .doLoop _ body _, h => by
    obtain ⟨first, second⟩ := forall_mem_append.mp h
    exact forall_mem_append.mpr
      ⟨forall_accesses body first, forall_mem_singleton.mp second⟩
  | .forLoop _ init _ _ body, h => by
    simp only [exprs, forall_mem_append] at h
    obtain ⟨⟨⟨first, second⟩, third⟩, fourth⟩ := h
    simp only [accesses, forall_mem_append]
    exact ⟨⟨⟨forall_optionalStmt init first, forall_optionalAccesses second⟩,
      forall_accesses body fourth⟩, forall_optionalAccesses third⟩
  | .case _ _ _ body, h | .default _ _ body, h => forall_accesses body h
  | .exit _, _ | .next _, _ | .null _, _ => forall_mem_nil _
  | .block _ body, h => forall_allAccesses body h
theorem forall_optionalStmt : (s : Option Stmt) →
    (∀ e ∈ optionalExprs s, ∀ a ∈ e.accesses .value, P a) → ∀ a ∈ optionalAccesses s, P a
  | none, _ => forall_mem_nil _
  | some s, h => forall_accesses s h
theorem forall_allAccesses : (body : List Stmt) →
    (∀ e ∈ allExprs body, ∀ a ∈ e.accesses .value, P a) → ∀ a ∈ allAccesses body, P a
  | [], _ => forall_mem_nil _
  | s :: rest, h => by
    obtain ⟨first, others⟩ := forall_mem_append.mp h
    exact forall_mem_append.mpr ⟨forall_accesses s first, forall_allAccesses rest others⟩
end

end Stmt

namespace Typing

variable {Γ : Context} {loc : Location} {note : Note} {e lhs rhs : Expr}

variable {op : BinOp} {scaled : Bool} {x : Expr}

/-! ## Accesses of a binary operation -/

theorem scale_accesses (size : UInt32) : (scale size e).accesses .value = e.accesses .value := by
  unfold scale
  split
  · rfl
  · exact append_nil _

theorem shift_accesses (h : shift Γ loc op scaled lhs rhs = .ok e) (want : Want) :
    e.accesses want = lhs.accesses .value ++ rhs.accesses .value := by
  simp only [shift, bind_eq_ok] at h
  obtain ⟨size, -, h⟩ := h
  split at h
  · cases h
    rfl
  · split at h <;> cases h <;> simp only [Expr.accesses, scale_accesses]

theorem binary_accesses (h : binary Γ loc op scaled lhs rhs = .ok e) (want : Want) :
    e.accesses want = lhs.accesses .value ++ rhs.accesses .value := by
  simp only [binary, bind_eq_ok] at h
  obtain ⟨_, -, _, -, h⟩ := h
  split at h
  · cases h
  · cases h
  · simp only [difference, bind_eq_ok] at h
    obtain ⟨size, -, h⟩ := h
    split at h <;> cases h
    · rfl
    · exact append_nil _
  · exact shift_accesses h want
  · exact shift_accesses h want
  · exact shift_accesses h want
  · cases h
    rfl

/-! ## Objects -/

/-- What typing knows of an object. -/
structure Object (Γ : Context) (x : Expr) : Prop where
  void : x.ty = .void → (∃ note index, x = .var note index) ∨
    ∃ note name, x = .global note name ∧ ∃ g ∈ Γ.globals, g.name = name ∧ g.ty = .void
  named : ∀ note index v, x = .var note index → Γ.locals[index]? = some v → v.ty = x.ty
  inside : ∀ place v, x.slot? = some place → Γ.locals[place.1]? = some v →
    place.2 + (Γ.structs.size x.ty).toNat ≤ (Γ.structs.size v.ty).toNat

theorem field_inside {σ : Structs} (laid : σ.Laid) {ref : StructRef} {name : String} {field : Field}
    (found : σ.field? ref name = some field) : σ.isComplete field.ty ∧
      field.offset.toNat + (σ.size field.ty).toNat ≤ (σ.size (.struct ref)).toNat := by
  have mem := mem_of_find?_eq_some found
  unfold Structs.fields at mem
  split at mem
  · rename_i layout complete
    have size : σ.size (.struct ref) = layout.size := by rw [Structs.size, complete]; rfl
    rw [size]
    exact (laid.placed ref layout complete).inside field mem
  · cases mem

/-- A settled expression that has an address is an object. -/
theorem lvalue_object (laid : Γ.structs.Laid) : (x : Expr) → Settled Γ x → x.isLvalue → Object Γ x
  | .var note index, h, _ => by
    have ty : ∀ v, Γ.locals[index]? = some v → v.ty = note.ty := by
      intro v found
      have same := congrArg (·.ty) (Except.ok.inj h)
      rw [← show (var Γ note.loc index).ty = note.ty from same, var, Expr.ty]
      change _ = (Γ.locals[index]?).elim CType.void (·.ty)
      rw [found]
      rfl
    refine ⟨fun _ => .inl ⟨note, index, rfl⟩, ?_, ?_⟩
    · rintro _ _ v ⟨⟩ found
      exact ty v found
    · rintro _ v ⟨⟩ found
      rw [Nat.zero_add, ty v found]
      exact Nat.le_refl _
  | .global note name, h, _ => by
    simp only [Settled, expr, global] at h
    split at h
    · rename_i g found
      have same := congrArg (·.ty) (Except.ok.inj h)
      refine ⟨fun void => .inr ⟨note, name, rfl, g, mem_of_find?_eq_some found, ?_, ?_⟩, ?_, ?_⟩
      · simpa using List.find?_some found
      · exact same.trans void
      · rintro _ _ _ ⟨⟩
      · rintro _ _ ⟨⟩
    · cases h
  | .deref note pointer, h, _ => by
    simp only [Settled, expr, bind_eq_ok, deref] at h
    obtain ⟨e, -, h⟩ := h
    split at h
    · split at h
      · cases h
      · rename_i target _ notVoid
        have same : target = note.ty := congrArg (·.ty) (Except.ok.inj h)
        refine ⟨fun void => absurd ?_ notVoid, ?_, ?_⟩
        · rw [same, show note.ty = .void from void]
          rfl
        · rintro _ _ _ ⟨⟩
        · rintro _ _ ⟨⟩
    · cases h
  | .member note base name offset, h, _ => by
    simp only [Settled, expr, bind_eq_ok, member] at h
    obtain ⟨typed, inner, h⟩ := h
    split at h
    · rename_i field found
      simp only [Except.ok.injEq, Expr.member.injEq, true_and] at h
      obtain ⟨noted, same, rfl⟩ := h
      rw [same] at inner found
      have ty : field.ty = note.ty := by rw [← noted]
      split at found
      · rename_i ref isStruct
        obtain ⟨complete, fits⟩ := field_inside laid found
        rw [ty] at complete fits
        refine ⟨fun void => ?_, ?_, fun place v slot listed => ?_⟩
        · rw [show note.ty = .void from void] at complete
          cases complete
        · rintro _ _ _ ⟨⟩
        · obtain ⟨outer, place', rfl⟩ := Option.map_eq_some_iff.mp slot
          have lvalue : base.isLvalue := by
            cases base <;> first | rfl | cases place'
          have around := (lvalue_object laid base inner lvalue).inside outer v place' listed
          rw [isStruct] at around
          change outer.2 + field.offset.toNat + (Γ.structs.size note.ty).toNat ≤ _
          omega
      · cases found
    · cases h

/-! ## Accesses -/

/-- The objects that an access can be to. -/
structure Accessible (Γ : Context) (x : Expr) : Prop where
  settled : Settled Γ x
  lvalue : x.isLvalue
  scalar : x.ty.isAggregate = false

theorem load_accessible (want : Want) (settled : Settled Γ x) (lvalue : x.isLvalue) :
    ∀ a ∈ x.load want, Accessible Γ a.object := by
  cases want with
  | address => exact forall_mem_nil _
  | value =>
    by_cases aggregate : x.ty.isAggregate = true
    · rw [Expr.load, if_pos aggregate]
      exact forall_mem_nil _
    · rw [Expr.load, if_neg aggregate]
      intro a mem
      cases mem_singleton.mp mem
      exact ⟨settled, lvalue, eq_false_of_ne_true aggregate⟩

theorem assign_accessible {want : Want} (settled : Settled Γ lhs)
    (left : ∀ a ∈ lhs.accesses .address, Accessible Γ a.object)
    (right : ∀ a ∈ rhs.accesses .value, Accessible Γ a.object) (rule : assign loc lhs rhs = .ok e) :
    ∀ a ∈ (Expr.assign note lhs rhs).accesses want, Accessible Γ a.object := by
  obtain ⟨lvalue, scalar⟩ := assign_target rule
  refine forall_mem_append.mpr ⟨forall_mem_append.mpr ⟨left, right⟩, ?_⟩
  exact forall_mem_singleton.mpr ⟨settled, lvalue, scalar⟩

mutual
/-- Typing an expression leaves accesses to objects only. -/
theorem Makes.accessible {e e' : Expr} : Makes Γ e e' → ∀ want, ∀ a ∈ e'.accesses want,
    Accessible Γ a.object
  | .num, _ => by
    unfold num
    split <;> exact forall_mem_nil _
  | .sizeof _ _, _ | .str, .address | .str, .value => forall_mem_nil _
  | .var, want => load_accessible want Makes.var.settled rfl
  | .global rule, want => load_accessible want rule rfl
  | .deref inner rule, want => forall_mem_append.mpr
    ⟨inner.accessible .value, load_accessible want (bind_eq_ok.mpr ⟨_, inner.settled, rule⟩) rfl⟩
  | .member inner rule, want => forall_mem_append.mpr
    ⟨inner.accessible .address, load_accessible want (bind_eq_ok.mpr ⟨_, inner.settled, rule⟩) rfl⟩
  | .binary left right rule, want => by
    rw [binary_accesses rule want]
    exact forall_mem_append.mpr ⟨left.accessible .value, right.accessible .value⟩
  | .assign left right rule, _ =>
    assign_accessible left.settled (left.accessible .address) (right.accessible .value) rule
  | .comma left right, want =>
    forall_mem_append.mpr ⟨left.accessible .value, right.accessible want⟩
  | .cond test _ yes no _, _ => forall_mem_append.mpr ⟨forall_mem_append.mpr
    ⟨test.accessible .value, yes.accessible .value⟩, no.accessible .value⟩
  | .unary inner _, _ | .cast inner _, _ => inner.accessible .value
  | .addr inner _, _ => inner.accessible .address
  | .call inner _ _, _ => inner.accessible
  | .update inner rule, want => by
    simp only [update, bind_eq_ok, pure_eq_ok] at rule
    obtain ⟨updated, hu, stored, hs, undone, hd, previous, hp, rfl⟩ := rule
    obtain rfl := assign_eq_ok hs
    obtain rfl := cast_eq_ok hp
    -- the number one has no access
    have sum := inner.accessible .value
    rw [← append_nil (Expr.accesses _ _)] at sum
    refine forall_mem_append.mpr ⟨assign_accessible inner.settled (inner.accessible .address)
      ?_ hs, ?_⟩
    · rwa [binary_accesses hu]
    · rwa [Expr.accesses, binary_accesses hd]
theorem MakesAll.accessible {es es' : List Expr} : MakesAll Γ es es' →
    ∀ a ∈ Expr.allAccesses es', Accessible Γ a.object
  | .nil => forall_mem_nil _
  | .cons first _ rest => forall_mem_append.mpr ⟨first.accessible .value, rest.accessible⟩
end

end Typing

/-! ## Frames -/

/-- The locals of a function lie in its frame, each below those before it. -/
structure Function.Framed (σ : Structs) (f : Function) : Prop where
  inside : ∀ v ∈ f.locals, (σ.size v.ty).toNat ≤ v.offset.toNat ∧ v.offset.toNat ≤ f.stackSize.toNat
  apart : f.locals.Pairwise fun v w => v.offset.toNat + (σ.size w.ty).toNat ≤ w.offset.toNat

namespace Typing

variable {p : Program} {f f' : Function} {Γ : Context} {constants : List Int64}

theorem Typed.framed (known : Typed p f f' Γ) (aligned : p.structs.Aligned) :
    f'.Framed p.structs := by
  obtain ⟨last, placed, size⟩ := known.placed
  obtain ⟨-, -, low, each, apart⟩ := Frame.place_apart aligned f.locals placed (by decide)
  refine ⟨fun v mem => ?_, apart⟩
  obtain ⟨-, first, second⟩ := each v mem
  have rounded : last.toNat ≤ (alignTo last 16).toNat :=
    le_alignTo (Nat.le_trans low (by decide)) (by decide) (by decide)
  rw [size]
  change 0 + (p.structs.size v.ty).toNat ≤ _ at first
  omega

end Typing

/-! ## Functions -/

namespace Function

def spill? (f : Function) (param : Nat) : Option Access :=
  (f.locals[param]?).map fun v => ⟨true, .var ⟨v.ty, v.loc⟩ param⟩

def spills (f : Function) : List Access := f.params.filterMap f.spill?

/-- The accesses of a function with a body, in the order in which they stand in its code. -/
def accesses (f : Function) (body : Stmt) : List Access := f.spills ++ body.accesses

theorem accesses_formed (f : Function) {body : Stmt} (formed : f.Formed body) :
    ∀ a ∈ f.accesses body, a.object.Formed f.locals.length := by
  refine forall_mem_append.mpr ⟨fun a mem => ?_, body.forall_accesses fun e mem =>
    e.accesses_formed (body.formed_exprs formed.formed e mem) .value⟩
  obtain ⟨param, listed, made⟩ := mem_filterMap.mp mem
  obtain ⟨v, -, rfl⟩ := Option.map_eq_some_iff.mp made
  exact formed.params param listed

end Function

namespace Typing

variable {p : Program} {f f' : Function} {Γ : Context} {constants : List Int64}

theorem Typed.local_ty (known : Typed p f f' Γ) {i : Nat} {v : Var} (found : f'.locals[i]? = some v) :
    ∃ w, f.locals[i]? = some w ∧ w.ty = v.ty := by
  obtain ⟨last, placed, -⟩ := known.placed
  have types := congrArg (·[i]?) (place_settled f.locals placed).2
  simp only [List.getElem?_map, found, Option.map_some] at types
  exact Option.map_eq_some_iff.mp types.symm

/-- So does typing a function, with the spills of its parameters. -/
theorem Typed.accessible (known : Typed p f f' Γ) (built : f.Built ⟨p.structs, constants⟩)
    {body : Stmt} (defined : f'.body = some body) :
    ∀ a ∈ f'.accesses body, Accessible Γ a.object := by
  refine forall_mem_append.mpr ⟨fun a mem => ?_, body.forall_accesses fun e listed => ?_⟩
  · obtain ⟨param, listed, made⟩ := mem_filterMap.mp mem
    obtain ⟨v, found, rfl⟩ := Option.map_eq_some_iff.mp made
    obtain ⟨w, found', ty⟩ := known.local_ty found
    rw [known.params] at listed
    refine ⟨?_, rfl, ?_⟩
    · change Except.ok (var Γ v.loc param) = _
      rw [var, known.locals, found]
      rfl
    · change v.ty.isAggregate = false
      have decayed := built.decayed param w found' listed
      have plain := known.plain
      rw [← ty]
      cases shape : w.ty with
      | array element length => rw [shape] at decayed; cases decayed
      | struct ref =>
        refine absurd ?_ plain
        rw [passesStruct, Bool.or_eq_true, any_eq_true]
        refine .inr ⟨param, listed, ?_⟩
        rw [found', Option.any_some, shape]
        rfl
      | _ => rfl
  · obtain ⟨code, -, typed⟩ := known.body body defined
    obtain ⟨raw, -, typed⟩ := exists_of_forall₂ typed listed
    exact (expr_makes raw typed).accessible .value

end Typing

end MiniC
