import MiniC.Proofs.Constant.Integers
import MiniC.Proofs.Semantics.Tree
import MiniC.Proofs.Typing.Idempotent

/-!
# Constant addresses and types

`evalAddress` computes the address that a global starts with before its expression has types.
Typing gives the expression its types, and with them the number of bytes by which a pointer moves.

An address is written as a string, an object or a number, and then with casts, `&*` and moves by `+`
and `-` around it; its spine are these parts of it. The two sides agree on all of the spine exactly if
every cast keeps the address, and every pointer that moves is one of which `evalAddress` knows what it
points to: a global, the address of a global or a cast, with a symbol at its root. Any other pointer
is moved by bytes, which is right only where that makes no difference.
-/

namespace MiniC.Constant

open List

variable {Γ : Typing.Context}

/-! ## What is compared -/

/-- A typed expression has a value that depends on nothing but what surrounds the program. -/
def Denotes (e : Expr) (value : Host → Word) : Prop :=
  ∀ (ctx : Tree.Context) (w : World), Tree.expr ctx .value e w = .ok (value ctx.host) w

def place (symbol : Option String) (addend : Int64) (host : Host) : Word :=
  symbol.elim 0 host.symbol + addend.toBitVec

def Folds (Γ : Typing.Context) (e : Expr) : Prop :=
  ∀ v e', eval e = .ok v → Typing.expr Γ e = .ok e' → Denotes e' (place none v)

def Agrees (Γ : Typing.Context) (e : Expr) : Prop :=
  ∀ addend symbol e', evalAddress Γ.structs Γ.globals e = .ok (addend, symbol) →
    Typing.expr Γ e = .ok e' → Denotes e' (place symbol addend)

def spine : Expr → List Expr
  | .addr note (.deref note' p) => .addr note (.deref note' p) :: spine p
  | .cast note target p => .cast note target p :: spine p
  | .binary note op scaled p r =>
    .binary note op scaled p r :: if op = .add ∨ op = .sub then spine p else []
  | e => [e]

def HasKind (Γ : Typing.Context) (kind : CType → Bool) (e : Expr) : Prop :=
  ∀ e', Typing.expr Γ e = .ok e' → kind e'.ty = true

def Written (Γ : Typing.Context) : Expr → Prop
  | .addr _ (.deref _ p) => Written Γ p
  | .cast _ _ p => Written Γ p
  | .binary note op scaled p r =>
    if op = .add ∨ op = .sub then
      scaled = false ∧ Written Γ p ∧ HasKind Γ (·.isInteger) r ∧ Folds Γ r ∧
        (HasKind Γ (·.isInteger) p → Folds Γ (.binary note op scaled p r))
    else Folds Γ (.binary note op scaled p r)
  | .str .. | .addr .. | .global .. => True
  | e => Folds Γ e

def ShowsType : Expr → Prop
  | .global .. | .addr _ (.global ..) | .cast .. => True
  | _ => False

/-- A part of an address keeps to the types: a cast keeps the value it is given, and a pointer that
moves either shows its type and has a symbol, or moves as if it pointed to bytes. -/
def Scaled (Γ : Typing.Context) : Expr → Prop
  | .cast _ target p => ∀ addend symbol,
    evalAddress Γ.structs Γ.globals p = .ok (addend, symbol) →
      if symbol.isSome then Width.ofType target = .qword else castTo target addend = addend
  | .binary _ op _ p r => op = .add ∨ op = .sub → ∀ addend symbol p' target count,
    evalAddress Γ.structs Γ.globals p = .ok (addend, symbol) →
    Typing.expr Γ p = .ok p' → p'.ty.pointee? = some target → eval r = .ok count →
      symbol.isSome ∧ ShowsType p ∨ count * Int64.ofNat (Γ.structs.size target).toNat = count
  | _ => True

/-! ## Values -/

section

variable {e p r : Expr} {f g : Host → Word} {note : Note} {op : BinOp} {scaled : Bool}

theorem Denotes.iff (h : Denotes e f) (g : Host → Word) : Denotes e g ↔ f = g := by
  refine ⟨fun h' => funext fun host => ?_, fun same => same ▸ h⟩
  have first := h ⟨host, {}, [], 0⟩ ⟨fun _ => 0, []⟩
  rw [h' ⟨host, {}, [], 0⟩ ⟨fun _ => 0, []⟩] at first
  injection first with same
  exact same.symm

theorem Denotes.cast (h : Denotes p f) {target : CType} :
    Denotes (.cast note target p) fun host => (f host).cut (.ofType target) := by
  intro ctx w
  simp only [Tree.expr, bind, EStateM.bind, h ctx w]
  rfl

def moved (op : BinOp) (a d : Word) : Word := if op = .add then a + d else a - d

theorem Denotes.moved (moves : op = .add ∨ op = .sub) (left : Denotes p f) (right : Denotes r g)
    (wide : Width.arithmetic note.ty = .qword) :
    Denotes (.binary note op scaled p r) fun host => moved op (f host) (g host) := by
  intro ctx w
  have width : Width.ofBinary op note.ty = .qword := by
    rcases moves with rfl | rfl <;> exact wide
  rw [Tree.expr_binary ctx (by rcases moves with rfl | rfl <;> simp), width]
  simp only [bind, EStateM.bind, left ctx w, right ctx w]
  rcases moves with rfl | rfl <;> simp [Word.combine, Word.binary, Constant.moved] <;> rfl

theorem Denotes.scale (h : Denotes r f) (size : UInt32) :
    Denotes (Typing.scale size r) fun host => f host * .ofNat 64 size.toNat := by
  unfold Typing.scale
  split
  next one => simpa [one] using h
  next =>
    intro ctx w
    rw [Tree.expr_binary ctx (by simp)]
    simp only [bind, EStateM.bind, h ctx w, Typing.sizeAt]
    simp [Tree.expr, Word.combine, Word.binary, Width.ofBinary, Width.arithmetic, Width.ofType,
      BinOp.isBoolean]
    rfl

end

section

variable {op : BinOp} {v u : Int64} {symbol : Option String} {d d' : Word} {width : Width}

theorem toBitVec_castTo (target : CType) (v : Int64) :
    (castTo target v).toBitVec = Word.cut (.ofType target) v.toBitVec := by
  cases target with
  | char =>
    simp [castTo, truncateChar, Width.ofType, Word.cut, Width.bits, Width.bytes,
      BitVec.signExtend_eq_setWidth_of_le]
  | int =>
    simp [castTo, truncateInt, Width.ofType, Word.cut, Width.bits, Width.bytes,
      BitVec.signExtend_eq_setWidth_of_le]
  | _ => exact (Word.cut_qword _).symm

theorem toBitVec_moved (v c : Int64) :
    (if op = .add then v + c else v - c).toBitVec = moved op v.toBitVec c.toBitVec := by
  unfold moved
  split <;> simp

private def hostAt (a : Word) : Host := ⟨fun _ => a, fun _ _ m => (0, m), fun _ _ => true⟩

theorem place_none : place none v = fun _ => v.toBitVec := by
  funext host
  exact BitVec.zero_add _

theorem cut_place_iff : (fun host => (place symbol v host).cut width) = place symbol v ↔
    if symbol.isSome then width = .qword else Word.cut width v.toBitVec = v.toBitVec := by
  cases symbol with
  | none =>
    simp only [place_none]
    exact ⟨fun same => congrFun same (hostAt 0), fun same => funext fun _ => same⟩
  | some name =>
    refine ⟨fun same => ?_, fun wide => by cases wide; simp⟩
    have far := congrFun same (hostAt (0x10000000000 - v.toBitVec))
    simp only [place, Option.elim, hostAt, BitVec.sub_add_cancel] at far
    cases width with
    | qword => rfl
    | byte | dword => exact absurd far (by decide)

theorem moved_place_iff (moves : u.toBitVec = moved op v.toBitVec d') :
    (fun host => moved op (place symbol v host) d) = place symbol u ↔ d = d' := by
  have here : ∀ host, moved op (place symbol v host) d = place symbol u host ↔ d = d' := by
    intro host
    unfold place
    rw [moves]
    unfold moved
    split
    · rw [BitVec.add_assoc, BitVec.add_right_inj, BitVec.add_right_inj]
    · rw [BitVec.sub_eq_add_neg, BitVec.add_assoc, BitVec.add_right_inj, ← BitVec.sub_eq_add_neg,
        BitVec.sub_right_inj]
  exact ⟨fun same => (here (hostAt 0)).mp (congrFun same _), fun same => funext fun host =>
    (here host).mpr same⟩

end

@[elab_as_elim]
theorem spine_induction {motive : Expr → Prop}
    (element : ∀ note note' p, motive p → motive (.addr note (.deref note' p)))
    (cast : ∀ note target p, motive p → motive (.cast note target p))
    (move : ∀ note op scaled p r, op = .add ∨ op = .sub → motive p →
      motive (.binary note op scaled p r))
    (leaf : ∀ e, spine e = [e] → motive e) (e : Expr) : motive e := by
  fun_induction spine e with
  | case1 note note' p ih => exact element note note' p ih
  | case2 note target p ih => exact cast note target p ih
  | case3 note op scaled p r ih =>
    by_cases moves : op = .add ∨ op = .sub
    · exact move note op scaled p r moves ih
    · exact leaf _ (by rw [spine, if_neg moves])
  | case4 e element' cast' move' => exact leaf e (by rw [spine] <;> assumption)

/-! ## What is known of a part of an address -/

/-- What an address with a symbol starts from. -/
inductive Root (Γ : Typing.Context) : Expr → String → Prop where
  | string (note : Note) (index : Nat) : Root Γ (.str note index) (stringLabel index)
  | object (note note' : Note) (name : String) : Root Γ (.addr note (.global note' name)) name
  | aggregate (note : Note) {name : String}
    (known : (ParseState.globalType? Γ.globals name).any (·.isAggregate) = true) :
    Root Γ (.global note name) name

section

variable {e e' p p' r r' : Expr} {note : Note} {op : BinOp} {scaled : Bool} {v c addend : Int64}
  {symbol : Option String} {target : CType}

theorem self_mem_spine (e : Expr) : e ∈ spine e := by
  fun_cases spine e <;> exact mem_cons_self

theorem number_eq_ok {x : Except (Located SyntaxError) Int64} :
    (do return (← x, (none : Option String))) = .ok (addend, symbol) ↔
      symbol = none ∧ x = .ok addend := by
  cases x with
  | error stop => exact ⟨nofun, nofun⟩
  | ok value =>
    change Except.ok (value, none) = _ ↔ _
    rw [Except.ok.injEq, Except.ok.injEq, Prod.mk.injEq, and_comm, @eq_comm _ none]

theorem spine_ne_nil (e : Expr) : spine e ≠ [] := ne_nil_of_mem (self_mem_spine e)

/-- An address starts from a number, or from a name without an offset. -/
theorem evalAddress_leaf (leaf : spine e = [e])
    (evaluated : evalAddress Γ.structs Γ.globals e = .ok (addend, symbol)) :
    symbol = none ∧ eval e = .ok addend ∨ addend = 0 ∧ ∃ name, symbol = some name ∧ Root Γ e name := by
  cases e with
  | str note index =>
    cases evaluated
    exact .inr ⟨rfl, _, rfl, .string note index⟩
  | addr note operand =>
    cases operand with
    | global note' name =>
      cases evaluated
      exact .inr ⟨rfl, _, rfl, .object note note' name⟩
    | deref note' p => exact absurd (List.cons.inj leaf).2 (spine_ne_nil p)
    | _ => cases evaluated
  | global note name =>
    rw [evalAddress] at evaluated
    split at evaluated
    next known =>
      cases evaluated
      exact .inr ⟨rfl, _, rfl, .aggregate note known⟩
    next => cases evaluated
  | cast note target p => exact absurd (List.cons.inj leaf).2 (spine_ne_nil p)
  | binary note op scaled p r =>
    rw [spine] at leaf
    rw [evalAddress] at evaluated
    split at leaf
    next moves => exact absurd (List.cons.inj leaf).2 (spine_ne_nil p)
    next other =>
      rw [if_neg other] at evaluated
      exact .inl (number_eq_ok.mp evaluated)
  | _ => exact .inl (number_eq_ok.mp evaluated)

theorem eval_move (moves : op = .add ∨ op = .sub)
    (evaluated : eval (.binary note op scaled p r) = .ok addend) :
    ∃ u c, eval p = .ok u ∧ eval r = .ok c ∧ addend.toBitVec = moved op u.toBitVec c.toBitVec := by
  rw [eval] at evaluated
  cases left : eval p with
  | error stop =>
    rw [left] at evaluated
    cases evaluated
  | ok u =>
    cases right : eval r with
    | error stop =>
      rw [left, right] at evaluated
      rcases moves with rfl | rfl <;> cases evaluated
    | ok c =>
      rw [left, right] at evaluated
      refine ⟨u, c, rfl, rfl, ?_⟩
      rw [← toBitVec_moved]
      rcases moves with rfl | rfl <;> cases evaluated <;> rfl

/-- What is added to an address is scaled by the size that the tree shows. -/
theorem evalAddress_move (moves : op = .add ∨ op = .sub)
    (evaluated : evalAddress Γ.structs Γ.globals (.binary note op scaled p r) = .ok (addend, symbol)) :
    ∃ v, evalAddress Γ.structs Γ.globals p = .ok (v, symbol) ∧
      if symbol.isSome then ∃ c, eval r = .ok c ∧ addend.toBitVec = moved op v.toBitVec
        (c.toBitVec * .ofNat 64 (pointeeSize Γ.structs Γ.globals p).toNat)
      else eval (.binary note op scaled p r) = .ok addend := by
  rw [evalAddress, if_pos moves] at evaluated
  cases left : evalAddress Γ.structs Γ.globals p with
  | error stop =>
    rw [left] at evaluated
    cases evaluated
  | ok place =>
    rw [left] at evaluated
    obtain ⟨v, symbol'⟩ := place
    cases symbol' with
    | none =>
      obtain ⟨rfl, value⟩ := number_eq_ok.mp evaluated
      exact ⟨v, rfl, value⟩
    | some name =>
      cases right : eval r with
      | error stop =>
        rw [right] at evaluated
        cases evaluated
      | ok c =>
        rw [right] at evaluated
        cases evaluated
        refine ⟨v, rfl, c, rfl, ?_⟩
        rw [toBitVec_moved]
        simp

theorem typed_global {name : String} (typed : Typing.expr Γ (.global note name) = .ok e') :
    ∃ ty, ParseState.globalType? Γ.globals name = some ty ∧ e' = .global ⟨ty, note.loc⟩ name := by
  rw [Typing.expr, Typing.global] at typed
  unfold ParseState.globalType?
  split at typed
  next g found =>
    cases typed
    exact ⟨g.ty, by rw [found]; rfl, rfl⟩
  next => cases typed

/-- The root of an address denotes the address of its name. -/
theorem Root.denotes {name : String} (root : Root Γ e name) (typed : Typing.expr Γ e = .ok e') :
    Denotes e' (place (some name) 0) ∧ e'.ty.isInteger = false := by
  have here : ∀ host, place (some name) 0 host = host.symbol name := fun host => BitVec.add_zero _
  cases root with
  | string note index =>
    cases typed
    exact ⟨fun ctx w => by rw [here]; rfl, rfl⟩
  | object note note' =>
    obtain ⟨g, typed, h⟩ := bind_eq_ok.mp typed
    obtain ⟨ty, -, rfl⟩ := typed_global typed
    cases h
    exact ⟨fun ctx w => by rw [here]; rfl, rfl⟩
  | aggregate note known =>
    obtain ⟨ty, found, rfl⟩ := typed_global typed
    rw [found, Option.any_some] at known
    refine ⟨fun ctx w => ?_, ?_⟩
    · rw [here, Tree.expr, Host.access, if_pos known]
      rfl
    · change ty.isInteger = false
      cases ty <;> first | rfl | cases known

theorem pointeeSize_of_showsType (typed : Typing.expr Γ p = .ok p') (shows : ShowsType p) :
    pointeeSize Γ.structs Γ.globals p = (p'.ty.pointee?).elim 1 Γ.structs.size := by
  cases p with
  | global note name =>
    obtain ⟨ty, found, rfl⟩ := typed_global typed
    change _ = (ty.pointee?).elim 1 Γ.structs.size
    simp only [pointeeSize, found, Option.bind_some]
    cases ty.pointee? <;> rfl
  | addr note operand =>
    cases operand with
    | global note' name =>
      obtain ⟨g, typed, h⟩ := bind_eq_ok.mp typed
      obtain ⟨ty, found, rfl⟩ := typed_global typed
      cases h
      simp only [pointeeSize, found]
      rfl
    | _ => cases shows
  | cast note target operand =>
    obtain ⟨q, -, h⟩ := bind_eq_ok.mp typed
    obtain rfl := Typing.cast_eq_ok h
    change _ = (target.pointee?).elim 1 Γ.structs.size
    simp only [pointeeSize, Option.bind_some]
    cases target.pointee? <;> rfl
  | _ => cases shows

theorem pointeeSize_of_not_showsType (hidden : ¬ ShowsType p) :
    pointeeSize Γ.structs Γ.globals p = 1 := by
  cases p with
  | addr note operand =>
    cases operand with
    | global => exact absurd trivial hidden
    | _ => rfl
  | global | cast => exact absurd trivial hidden
  | _ => rfl

/-- Typing scales an integer that is added to a pointer, and no other. -/
theorem typed_move (moves : op = .add ∨ op = .sub) (integer : HasKind Γ (·.isInteger) r)
    (typed : Typing.expr Γ (.binary note op false p r) = .ok e') :
    ∃ p' r', Typing.expr Γ p = .ok p' ∧ Typing.expr Γ r = .ok r' ∧ r'.ty.isInteger = true ∧
      ((∃ target, p'.ty.pointee? = some target ∧ e' = .binary ⟨p'.ty.decay, note.loc⟩ op true p'
          (Typing.scale (Γ.structs.size target) r')) ∨
        p'.ty.isInteger = true ∧
          e' = .binary ⟨Typing.wider Γ.structs p'.ty r'.ty, note.loc⟩ op false p' r') := by
  obtain ⟨p', typedP, h⟩ := bind_eq_ok.mp typed
  obtain ⟨r', typedR, h⟩ := bind_eq_ok.mp h
  have whole := integer r' typedR
  refine ⟨p', r', typedP, typedR, whole, ?_⟩
  obtain ⟨_, left, -⟩ := bind_eq_ok.mp h
  have right := Typing.operand_integer (e := r') whole
  have flat := Typing.isPointer_eq_false whole
  cases pointer : p'.ty.isPointer with
  | true =>
    rw [Typing.binary_eq_shift left right (.inl ⟨pointer, flat, moves⟩), Typing.shift] at h
    obtain ⟨size, known, h⟩ := bind_eq_ok.mp h
    simp only [pointer, if_true, Bool.false_eq_true, if_false] at h known
    cases h
    left
    unfold Typing.stride at known
    split at known
    next target points =>
      refine ⟨target, points, ?_⟩
      split at known
      next void =>
        cases known
        cases target <;> first | rfl | cases void
      next =>
        split at known
        · cases known
          rfl
        · cases known
    next => cases known
  | false =>
    have whole' := Typing.isInteger_of_operand left pointer
    refine .inr ⟨whole', ?_⟩
    simp only [Typing.binary, left, right, pointer, flat] at h
    rcases moves with rfl | rfl <;> cases h <;> rfl

end

/-! ## The spine -/

section

variable {e e' p p' r r' : Expr} {note : Note} {op : BinOp} {scaled : Bool} {u v c addend : Int64}
  {symbol : Option String} {target : CType}

theorem agrees_iff (evaluated : evalAddress Γ.structs Γ.globals e = .ok (addend, symbol))
    (typed : Typing.expr Γ e = .ok e') : Agrees Γ e ↔ Denotes e' (place symbol addend) := by
  refine ⟨fun h => h addend symbol e' evaluated typed, fun h addend' symbol' e'' evaluated' typed' => ?_⟩
  cases evaluated.symm.trans evaluated'
  cases typed.symm.trans typed'
  exact h

theorem eval_of_scaled (kept : ∀ s ∈ spine e, Scaled Γ s)
    (evaluated : evalAddress Γ.structs Γ.globals e = .ok (v, none)) (value : eval e = .ok u) :
    u = v := by
  induction e using spine_induction generalizing u with
  | element => cases value
  | cast note target p ih =>
    rw [spine, forall_mem_cons] at kept
    rw [eval] at value
    cases inner : eval p with
    | error stop =>
      rw [inner] at value
      cases value
    | ok u' =>
      rw [inner] at value
      cases value
      rw [ih kept.2 evaluated inner]
      exact kept.1 v none evaluated
  | move note op scaled p r moves ih =>
    obtain ⟨_, -, number⟩ := evalAddress_move moves evaluated
    cases value.symm.trans number
    rfl
  | leaf e leaf =>
    rcases evalAddress_leaf leaf evaluated with ⟨-, number⟩ | ⟨-, name, other, -⟩
    · cases value.symm.trans number
      rfl
    · cases other

theorem long_of_scaled {name : String} (written : Written Γ e) (kept : ∀ s ∈ spine e, Scaled Γ s)
    (evaluated : evalAddress Γ.structs Γ.globals e = .ok (v, some name))
    (typed : Typing.expr Γ e = .ok e') (integer : e'.ty.isInteger = true) : e'.ty = .long := by
  induction e using spine_induction generalizing v e' with
  | element note note' p ih =>
    obtain ⟨g, typed, h⟩ := bind_eq_ok.mp typed
    unfold Typing.addr at h
    split at h <;> cases h
    cases integer
  | cast note target p ih =>
    rw [spine, forall_mem_cons] at kept
    have wide : Width.ofType target = .qword := kept.1 v (some name) evaluated
    obtain ⟨q, -, h⟩ := bind_eq_ok.mp typed
    obtain rfl := Typing.cast_eq_ok h
    change target.isInteger = true at integer
    change target = .long
    cases target <;> simp_all [CType.isInteger, Width.ofType]
  | move note op scaled p r moves ih =>
    rw [spine, if_pos moves, forall_mem_cons] at kept
    rw [Written, if_pos moves] at written
    obtain ⟨rfl, written, whole, -⟩ := written
    obtain ⟨v', evaluated, -⟩ := evalAddress_move moves evaluated
    obtain ⟨p', r', typedP, -, integerR, ⟨target, points, rfl⟩ | ⟨integerP, rfl⟩⟩ :=
      typed_move moves whole typed
    · change p'.ty.decay.isInteger = true at integer
      cases ty : p'.ty <;> simp_all [CType.pointee?, CType.decay, CType.isInteger]
    · change Typing.wider Γ.structs p'.ty r'.ty = .long
      rw [ih written kept.2 evaluated typedP integerP]
      cases ty : r'.ty <;> first | rfl | simp_all [CType.isInteger]
  | leaf e leaf =>
    rcases evalAddress_leaf leaf evaluated with ⟨other, -⟩ | ⟨-, name', -, root⟩
    · cases other
    · rw [(root.denotes typed).2] at integer
      cases integer

theorem folds_of_leaf (leaf : spine e = [e]) (written : Written Γ e) (value : eval e = .ok v) :
    Folds Γ e := by
  cases e with
  | str | addr | global => cases value
  | cast note target p => exact absurd (List.cons.inj leaf).2 (spine_ne_nil p)
  | binary note op scaled p r =>
    rw [spine] at leaf
    rw [Written] at written
    split at leaf
    next moves => exact absurd (List.cons.inj leaf).2 (spine_ne_nil p)
    next other => rwa [if_neg other] at written
  | _ => exact written

theorem scaled_of_leaf (leaf : spine e = [e]) : Scaled Γ e := by
  cases e with
  | cast note target p => exact absurd (List.cons.inj leaf).2 (spine_ne_nil p)
  | binary note op scaled p r =>
    rw [spine] at leaf
    split at leaf
    next moves => exact absurd (List.cons.inj leaf).2 (spine_ne_nil p)
    next other => exact fun moves => absurd moves other
  | _ => trivial

theorem agrees_cast_iff (agrees : Agrees Γ p)
    (evaluated : evalAddress Γ.structs Γ.globals p = .ok (v, symbol))
    (typed : Typing.expr Γ (.cast note target p) = .ok e') :
    Agrees Γ (.cast note target p) ↔ Scaled Γ (.cast note target p) := by
  obtain ⟨p', typedP, h⟩ := bind_eq_ok.mp typed
  have value := (agrees_iff evaluated typedP).mp agrees
  obtain rfl := Typing.cast_eq_ok h
  rw [agrees_iff (e := .cast note target p) evaluated typed, value.cast.iff, cut_place_iff,
    ← toBitVec_castTo, Int64.toBitVec_inj]
  refine ⟨fun keeps v' symbol' evaluated' => ?_, fun keeps => keeps v symbol evaluated⟩
  cases evaluated.symm.trans evaluated'
  exact keeps

def assumedSize (Γ : Typing.Context) (symbol : Option String) (p : Expr) : UInt32 :=
  if symbol.isSome then pointeeSize Γ.structs Γ.globals p else 1

theorem evalAddress_moved (moves : op = .add ∨ op = .sub) (kept : ∀ s ∈ spine p, Scaled Γ s)
    (evaluated : evalAddress Γ.structs Γ.globals (.binary note op scaled p r) = .ok (addend, symbol)) :
    ∃ v c, evalAddress Γ.structs Γ.globals p = .ok (v, symbol) ∧ eval r = .ok c ∧ addend.toBitVec =
        moved op v.toBitVec (c.toBitVec * .ofNat 64 (assumedSize Γ symbol p).toNat) := by
  obtain ⟨v, evaluatedP, found⟩ := evalAddress_move moves evaluated
  cases symbol with
  | some name =>
    obtain ⟨c, count, sum⟩ := found
    exact ⟨v, c, evaluatedP, count, sum⟩
  | none =>
    obtain ⟨u, c, base, count, sum⟩ := eval_move moves found
    cases eval_of_scaled kept evaluatedP base
    exact ⟨v, c, evaluatedP, count, by rw [sum]; simp [assumedSize]⟩

/-- A part that moves an address agrees with typing if and only if it keeps to the types. -/
theorem agrees_move_iff (moves : op = .add ∨ op = .sub)
    (written : Written Γ (.binary note op scaled p r)) (agrees : Agrees Γ p)
    (kept : ∀ s ∈ spine p, Scaled Γ s)
    (evaluated : evalAddress Γ.structs Γ.globals (.binary note op scaled p r) = .ok (addend, symbol))
    (typed : Typing.expr Γ (.binary note op scaled p r) = .ok e') :
    Agrees Γ (.binary note op scaled p r) ↔ Scaled Γ (.binary note op scaled p r) := by
  rw [Written, if_pos moves] at written
  obtain ⟨rfl, written, integer, folds, sums⟩ := written
  obtain ⟨v, c, evaluatedP, count, sum⟩ := evalAddress_moved moves kept evaluated
  obtain ⟨p', r', typedP, typedR, integerR, shape⟩ := typed_move moves integer typed
  have left := (agrees_iff evaluatedP typedP).mp agrees
  have right := folds c r' count typedR
  rw [place_none] at right
  rw [agrees_iff evaluated typed]
  rcases shape with ⟨target, points, rfl⟩ | ⟨integerP, rfl⟩
  · have wide : Width.arithmetic p'.ty.decay = .qword := by
      cases ty : p'.ty <;> simp_all [CType.pointee?, CType.decay, Width.arithmetic, Width.ofType]
    rw [(left.moved moves (right.scale _) wide).iff, moved_place_iff sum]
    have scaled_iff : Scaled Γ (.binary note op false p r) ↔ symbol.isSome ∧ ShowsType p ∨
        c * Int64.ofNat (Γ.structs.size target).toNat = c := by
      refine ⟨fun h => h moves v symbol p' target c evaluatedP typedP points count, ?_⟩
      intro h _ v' symbol' q target' c' evaluatedQ typedQ pointsQ countQ
      cases evaluatedP.symm.trans evaluatedQ
      cases typedP.symm.trans typedQ
      cases points.symm.trans pointsQ
      cases count.symm.trans countQ
      exact h
    rw [scaled_iff, ← Int64.toBitVec_inj]
    by_cases shows : symbol.isSome ∧ ShowsType p
    · have same : assumedSize Γ symbol p = Γ.structs.size target := by
        rw [assumedSize, if_pos shows.1, pointeeSize_of_showsType typedP shows.2, points]
        rfl
      simp [same, shows]
    · have same : assumedSize Γ symbol p = 1 := by
        unfold assumedSize
        split
        next some => exact pointeeSize_of_not_showsType fun shown => shows ⟨some, shown⟩
        next => rfl
      simp [same, shows]
  · have points : p'.ty.pointee? = none := by
      cases ty : p'.ty <;> simp_all [CType.pointee?, CType.isInteger]
    refine iff_of_true ?_ ?_
    · cases symbol with
      | none =>
        have integers : HasKind Γ (·.isInteger) p := by
          intro q typedQ
          cases typedP.symm.trans typedQ
          exact integerP
        obtain ⟨_, -, number⟩ := evalAddress_move moves evaluated
        exact sums integers addend _ number typed
      | some name =>
        have wide : Width.arithmetic (Typing.wider Γ.structs p'.ty r'.ty) = .qword := by
          rw [long_of_scaled written kept evaluatedP typedP integerP]
          cases ty : r'.ty <;> first | rfl | simp_all [CType.isInteger]
        have same : assumedSize Γ (some name) p = 1 := by
          simp only [assumedSize, Option.isSome_some, if_true]
          by_cases shows : ShowsType p
          · rw [pointeeSize_of_showsType typedP shows, points]
            rfl
          · exact pointeeSize_of_not_showsType shows
        rw [(left.moved moves right wide).iff, moved_place_iff sum, same]
        simp
    · rintro - v' symbol' q target' c' - typedQ pointsQ
      cases typedP.symm.trans typedQ
      cases points.symm.trans pointsQ

/-- All parts of an address agree with typing if and only if all keep to the types. -/
theorem spine_agrees_iff (written : Written Γ e)
    (evaluated : evalAddress Γ.structs Γ.globals e = .ok (addend, symbol))
    (typed : Typing.expr Γ e = .ok e') :
    (∀ s ∈ spine e, Agrees Γ s) ↔ ∀ s ∈ spine e, Scaled Γ s := by
  -- One more part on the spine: what holds below it carries over to it.
  have step : ∀ {s p : Expr}, ((∀ s ∈ spine p, Agrees Γ s) ↔ ∀ s ∈ spine p, Scaled Γ s) →
      (Agrees Γ p → (∀ s ∈ spine p, Scaled Γ s) → (Agrees Γ s ↔ Scaled Γ s)) →
      ((∀ x ∈ s :: spine p, Agrees Γ x) ↔ ∀ x ∈ s :: spine p, Scaled Γ x) := by
    intro s p below here
    rw [forall_mem_cons, forall_mem_cons, below, and_congr_left_iff]
    exact fun kept => here (below.mpr kept p (self_mem_spine p)) kept
  induction e using spine_induction generalizing addend symbol e' with
  | element note note' p ih =>
    obtain ⟨d', typedD, h⟩ := bind_eq_ok.mp typed
    obtain ⟨p', typedP, h'⟩ := bind_eq_ok.mp typedD
    refine step (ih written evaluated typedP) fun agrees _ => iff_of_true ?_ trivial
    have left := (agrees_iff (e := p) evaluated typedP).mp agrees
    rw [agrees_iff evaluated typed]
    unfold Typing.deref at h'
    split at h' <;> try cases h'
    split at h' <;> cases h'
    cases h
    intro ctx w
    simp only [Tree.expr, bind, EStateM.bind, left ctx w]
    rfl
  | cast note target p ih =>
    obtain ⟨p', typedP, -⟩ := bind_eq_ok.mp typed
    exact step (ih written evaluated typedP) fun agrees _ => agrees_cast_iff agrees evaluated typed
  | move note op scaled p r moves ih =>
    obtain ⟨v, evaluatedP, -⟩ := evalAddress_move moves evaluated
    obtain ⟨p', typedP, -⟩ := bind_eq_ok.mp typed
    have below := written
    rw [Written, if_pos moves] at below
    rw [spine, if_pos moves]
    exact step (ih below.2.1 evaluatedP typedP) fun agrees kept =>
      agrees_move_iff moves written agrees kept evaluated typed
  | leaf e leaf =>
    rw [leaf, forall_mem_singleton, forall_mem_singleton, agrees_iff evaluated typed]
    refine iff_of_true ?_ ?_
    · rcases evalAddress_leaf leaf evaluated with ⟨rfl, number⟩ | ⟨rfl, name, rfl, root⟩
      · exact folds_of_leaf leaf written number addend e' number typed
      · exact (root.denotes typed).1
    · exact scaled_of_leaf leaf

/-- **Constant addresses scale like typed ones, where types show.** Take an address that both
`evalAddress` and typing accept, written with integers on which folding is right. It denotes what
`evalAddress` finds, if its casts keep what they are given and each pointer that it moves is a global,
the address of a global or a cast with a symbol at its root, or moves as if it pointed to bytes. And
these conditions are exact: they hold if `evalAddress` is right on the address and on all the parts it
is built from. -/
theorem evalAddress_scales_iff (written : Written Γ e)
    (evaluated : evalAddress Γ.structs Γ.globals e = .ok (addend, symbol))
    (typed : Typing.expr Γ e = .ok e') :
    ((∀ s ∈ spine e, Scaled Γ s) → Denotes e' (place symbol addend)) ∧
    ((∀ s ∈ spine e, Agrees Γ s) ↔ ∀ s ∈ spine e, Scaled Γ s) := by
  have both := spine_agrees_iff written evaluated typed
  refine ⟨fun scaled => ?_, both⟩
  exact (agrees_iff evaluated typed).mp (both.mpr scaled e (self_mem_spine e))

theorem folds_num (note : Note) (v : Int64) : Folds Γ (.num note v) := by
  intro u e' value typed
  cases value
  cases typed
  intro ctx w
  rw [place_none]
  unfold Typing.num
  split <;> rfl

end

/-! ## Examples -/

def table : Typing.Context where
  structs := {}
  functions := []
  globals := [⟨"a", .array .int 4, none, false, false, .atStart ⟨"f.c", ""⟩⟩]
  strings := []
  locals := []
  implicitDecls := false

def insideTable : Expr :=
  let note : Note := ⟨.void, .atStart ⟨"f.c", ""⟩⟩
  .binary note .add false (.cast note (.ptr .char) (.addr note (.deref note
    (.binary note .add false (.global note "a") (.num note 2))))) (.num note 3)

theorem evalAddress_scales_insideTable : ∃ e', Written table insideTable ∧
    evalAddress table.structs table.globals insideTable = .ok (11, some "a") ∧
    Typing.expr table insideTable = .ok e' ∧ (∀ s ∈ spine insideTable, Scaled table s) ∧
    Denotes e' (place (some "a") 11) := by
  have integer : ∀ loc v, HasKind table (·.isInteger) (.num ⟨.void, loc⟩ v) := by
    intro loc v e' typed
    cases typed
    unfold Typing.num
    dsimp only
    split <;> rfl
  have written : Written table insideTable := by
    refine ⟨rfl, ⟨rfl, trivial, integer _ _, folds_num _ _, ?_⟩, integer _ _, folds_num _ _, ?_⟩
    · exact fun whole => nomatch whole _ rfl
    · exact fun whole => nomatch whole _ rfl
  have scaled : ∀ s ∈ spine insideTable, Scaled table s := by
    simp only [insideTable, spine, true_or, if_true, forall_mem_cons, not_mem_nil,
      false_implies, implies_true, and_true]
    refine ⟨?_, ?_, trivial, ?_, trivial⟩
    · rintro - _ _ _ _ _ ⟨⟩ - - -
      exact .inl ⟨rfl, trivial⟩
    · rintro _ _ ⟨⟩
      rfl
    · rintro - _ _ _ _ _ ⟨⟩ - - -
      exact .inl ⟨rfl, trivial⟩
  exact ⟨_, written, rfl, rfl, scaled, (evalAddress_scales_iff written rfl rfl).1 scaled⟩

/-- `a + 1 + 1` is eight bytes after `a`, but is taken to be five bytes after it. -/
theorem evalAddress_unscaled :
    let note : Note := ⟨.void, .atStart ⟨"f.c", ""⟩⟩
    let a : Expr := .global note "a"
    let one : Expr := .num note 1
    let e : Expr := .binary note .add false (.binary note .add false a one) one
    evalAddress table.structs table.globals e = .ok (5, some "a") ∧
    ∃ e', Typing.expr table e = .ok e' ∧ Denotes e' (place (some "a") 8) ∧
      ¬ Denotes e' (place (some "a") 5) := by
  intro note a one e
  have start : Denotes (.global ⟨.array .int 4, note.loc⟩ "a") (place (some "a") 0) :=
    (Root.denotes (Γ := table) (.aggregate note rfl) rfl).1
  have next : ∀ {p v}, Denotes p (place (some "a") v) → Denotes (.binary ⟨.ptr .int, note.loc⟩ .add
      true p (Typing.scale 4 (.num ⟨.int, note.loc⟩ 1))) (place (some "a") (v + 4)) := by
    intro p v h
    have step : Denotes (Typing.scale 4 (.num ⟨.int, note.loc⟩ 1)) fun _ => 4 := fun ctx w => rfl
    rw [(h.moved (.inl rfl) step rfl).iff]
    exact (moved_place_iff (Int64.toBitVec_add ..)).mpr rfl
  refine ⟨rfl, _, rfl, next (next start), fun other => ?_⟩
  have same := congrFun (((next (next start)).iff _).mp other) (hostAt 0)
  cases same

end MiniC.Constant
