import MiniC.Proofs.Typing.Scaling

/-!
# Postfix updates give the value before them

Typing replaces `x++` by `(x = x + 1, (T)(x - 1))`, where `T` is the type of `x`. The second part
reads `x` again after the store, which may have cut the new value, and undoes the update. Taking
back an update and cutting to a width can be exchanged (`cut_add_cut`), so the old value comes back
for every type and every value, also where the sum wraps around.

What this asks of the target is that its address is found without side effects, and not by way of
the object itself (`Tree.Steady`): the target is evaluated three times, once after the store.
-/

namespace MiniC

/-! ## Cutting and storing -/

namespace Word

variable {w w' : Width}

theorem toInt_cut_eq_bmod (w : Width) (x : Word) : (cut w x).toInt = x.toInt.bmod (2 ^ w.bits) :=
  (toInt_cut w x).trans (low_eq_bmod w x)

theorem pow_bits_dvd (le : w.bits ≤ w'.bits) : 2 ^ w.bits ∣ 2 ^ w'.bits := Nat.pow_dvd_pow 2 le

theorem toInt_cut_add (w : Width) (x y : Word) :
    (cut w (x + y)).toInt = (x.toInt + y.toInt).bmod (2 ^ w.bits) := by
  have wrapped : 2 ^ w.bits ∣ 2 ^ Width.qword.bits := pow_bits_dvd w.bits_le
  rw [toInt_cut_eq_bmod, BitVec.toInt_add]
  exact Int.bmod_bmod_of_dvd wrapped

theorem toInt_cut_add_ofInt (w : Width) (x : Word) (n : Int) :
    (cut w (x + .ofInt 64 n)).toInt = (x.toInt + n).bmod (2 ^ w.bits) := by
  have wrapped : 2 ^ w.bits ∣ 2 ^ Width.qword.bits := pow_bits_dvd w.bits_le
  have low : (n.bmod (2 ^ 64)).bmod (2 ^ w.bits) = n.bmod (2 ^ w.bits) := Int.bmod_bmod_of_dvd wrapped
  rw [toInt_cut_add, BitVec.toInt_ofInt, ← Int.add_bmod_bmod, low, Int.add_bmod_bmod]

theorem cut_cut (le : w.bits ≤ w'.bits) (x : Word) : cut w (cut w' x) = cut w x := by
  apply BitVec.eq_of_toInt_eq
  rw [toInt_cut_eq_bmod, toInt_cut_eq_bmod, toInt_cut_eq_bmod,
    Int.bmod_bmod_of_dvd (pow_bits_dvd le)]

theorem cut_add_cut (w : Width) (x y : Word) : cut w (cut w x + y) = cut w (x + y) := by
  apply BitVec.eq_of_toInt_eq
  rw [toInt_cut_add, toInt_cut_add, toInt_cut_eq_bmod, Int.bmod_add_bmod]

end Word

namespace Memory

theorem load_store_cut (m : Memory) (w : Width) (a v : Word) : (m.store w a v).load w a = v.cut w := by
  have stored := number_store (m := m) (w := w) (a := a) (v := v) w.bytes (k := 0) (by omega)
  rw [BitVec.add_zero, Nat.pow_zero, Nat.div_one] at stored
  have modulus : 256 ^ w.bytes = 2 ^ w.bits := by rw [Width.bits, Nat.pow_mul]
  rw [load, Word.cut, stored, modulus]
  congr 1
  apply BitVec.eq_of_toNat_eq
  rw [BitVec.toNat_ofNat, BitVec.toNat_setWidth, Nat.mod_mod]

end Memory

/-! ## Targets -/

namespace Tree

variable {ctx : Context} {e : Expr}

theorem bind_of_ok {α β : Type} {x : Eval α} {f : α → Eval β} {s t : World} {a : α}
    (run : x s = .ok a t) : (x >>= f) s = f a t := by
  change EStateM.bind x f s = _
  rw [EStateM.bind, run]

theorem read_of_allows {w : Width} {a : Word} {s : World} (allowed : ctx.host.allows a w = true) :
    ctx.host.read w a s = .ok (s.memory.load w a) s := by
  rw [Host.read, if_pos allowed]
  rfl

theorem write_of_allows {w : Width} {a v : Word} {s : World} (allowed : ctx.host.allows a w = true) :
    ctx.host.write w a v s = .ok () ⟨s.memory.store w a v, s.calls⟩ := by
  rw [Host.write, if_pos allowed]
  rfl

/-- The address of the object that an expression designates is `a`, and stays so whatever the object
holds: finding it has no side effects and does not look at the object. The object can be accessed. -/
structure Steady (ctx : Context) (e : Expr) (s : World) (a : Word) : Prop where
  allowed : ctx.host.allows a (.ofType e.ty) = true
  address : ∀ memory : Memory,
    (∀ b, (Width.ofType e.ty).bytes ≤ (b - a).toNat → memory b = s.memory b) →
    expr ctx .address e ⟨memory, s.calls⟩ = .ok a ⟨memory, s.calls⟩

theorem expr_value_of_isLvalue (designates : e.isLvalue = true) (scalar : e.ty.isAggregate = false) :
    expr ctx .value e = (do ctx.host.read (.ofType e.ty) (← expr ctx .address e)) := by
  have access : ∀ a : Word, ctx.host.access .value e.ty a = ctx.host.read (.ofType e.ty) a :=
    fun a => if_neg (Bool.eq_false_iff.mp scalar)
  cases e with
  | var note index =>
    rw [expr, expr]
    split
    · exact access _
    · rfl
  | global note name => exact access _
  | deref note pointer =>
    rw [expr, expr, bind_assoc]
    exact bind_congr access
  | member note base name offset =>
    rw [expr, expr, bind_assoc]
    exact bind_congr fun a => access _
  | _ => cases designates

variable {s : World} {a : Word}

theorem Steady.value_after_store (steady : Steady ctx e s a) (designates : e.isLvalue = true)
    (scalar : e.ty.isAggregate = false) (v : Word) :
    expr ctx .value e ⟨s.memory.store (.ofType e.ty) a v, s.calls⟩ =
      .ok (v.cut (.ofType e.ty)) ⟨s.memory.store (.ofType e.ty) a v, s.calls⟩ := by
  have found := steady.address (s.memory.store (.ofType e.ty) a v) fun _ => Memory.store_of_outside
  rw [expr_value_of_isLvalue designates scalar, bind_of_ok found, ← Memory.load_store_cut s.memory]
  exact read_of_allows steady.allowed

theorem Steady.value_before (steady : Steady ctx e s a) (designates : e.isLvalue = true)
    (scalar : e.ty.isAggregate = false) :
    expr ctx .value e s = .ok (s.memory.load (.ofType e.ty) a) s := by
  have found := steady.address s.memory fun _ _ => rfl
  rw [expr_value_of_isLvalue designates scalar, bind_of_ok found]
  exact read_of_allows steady.allowed

theorem steady_var {note : Note} {index : Nat} {v : Var} (found : ctx.locals[index]? = some v)
    (allowed : ctx.host.allows (ctx.place v) (.ofType note.ty) = true) :
    Steady ctx (.var note index) s (ctx.place v) where
  allowed := allowed
  address memory _ := by
    rw [expr, found]
    rfl

end Tree

/-! ## Updates -/

namespace Update

def reverse : Update → Update
  | inc => dec
  | dec => inc

theorem undo_eq_op_reverse (dir : Update) : dir.undo = dir.reverse.op := by cases dir <;> rfl

/-- The number that an update adds to an object of a type: one, or for a pointer the number of bytes
of what it points to, with its sign. -/
def amount (σ : Structs) (ty : CType) (dir : Update) : Int :=
  let step : Int := ty.pointee?.elim 1 fun target => (σ.size target).toNat
  match dir with
  | inc => step
  | dec => -step

theorem amount_reverse (σ : Structs) (ty : CType) (dir : Update) :
    dir.reverse.amount σ ty = -dir.amount σ ty := by
  cases dir with
  | inc => rfl
  | dec => exact (Int.neg_neg _).symm

end Update

namespace Typing

variable {Γ : Context} {loc : Location} {dir : Update} {e e' : Expr} {ty : CType}

theorem elementSize_eq (σ : Structs) (target : CType) :
    Untyped.elementSize σ target = .ofNat 64 (σ.size target).toNat := by
  unfold Untyped.elementSize
  split
  next nothing =>
    cases target with
    | void => rfl
    | _ => cases nothing
  · rfl

theorem update_target (h : update Γ loc dir e = .ok e') :
    e.isLvalue = true ∧ e.ty.isAggregate = false ∧
      (e.ty.isInteger = true ∨ ∃ target, e.ty = .ptr target) := by
  simp only [update, bind_eq_ok] at h
  obtain ⟨updated, hu, stored, hs, -⟩ := h
  obtain ⟨lvalue, scalar⟩ := assign_target hs
  have computes : e.ty.isInteger = true ∨ e.ty.isPointer = true := by
    simp only [binary, bind_eq_ok, operand] at hu
    obtain ⟨_, left, -⟩ := hu
    split at left
    next computes => exact (Bool.or_eq_true _ _).mp computes
    · split at left <;> cases left
  refine ⟨lvalue, scalar, computes.imp_right fun pointer => ?_⟩
  cases known : e.ty with
  | ptr target => exact ⟨target, rfl⟩
  | array => simp [known, CType.isAggregate] at scalar
  | _ => simp [known, CType.isPointer] at pointer

theorem update_type (h : update Γ loc dir e = .ok e') (scalar : e.ty.isAggregate = false) :
    e'.ty = e.ty := by
  simp only [update, bind_eq_ok, pure_eq_ok] at h
  obtain ⟨updated, -, stored, -, undone, -, previous, made, rfl⟩ := h
  obtain rfl := cast_eq_ok made
  change e.ty.decay = e.ty
  cases known : e.ty with
  | array => simp [known, CType.isAggregate] at scalar
  | _ => rfl

theorem bits_le_sum (op : BinOp) (integer : ty.isInteger = true) (plain : op = .add ∨ op = .sub) :
    (Width.ofType ty).bits ≤ (Width.ofBinary op (arithmeticType Γ op ty .int)).bits := by
  have type : arithmeticType Γ op ty .int = wider Γ.structs ty .int := by
    rcases plain with rfl | rfl <;> rfl
  have wide : Width.ofBinary op (wider Γ.structs ty .int) = .ofType (wider Γ.structs ty .int) := by
    obtain ⟨ty', same⟩ := promote_wider Γ.structs ty .int
    rw [same, ← Width.arithmetic_promote]
    rcases plain with rfl | rfl <;> rfl
  rw [type, wide]
  exact (bits_le_wider Γ.structs integer rfl).1

/-- An update moves a pointer by one element, and a number by one. -/
theorem arithmetic_update (dir : Update)
    (kind : ty.isInteger = true ∨ ∃ target, ty = .ptr target) (v : Word) :
    ∃ sum, Untyped.arithmetic Γ Untyped.whole dir.op ty .int v 1 = pure sum ∧
      sum.cut (.ofType ty) = (v + .ofInt 64 (dir.amount Γ.structs ty)).cut (.ofType ty) := by
  rcases kind with integer | ⟨target, rfl⟩
  · have none : ty.pointee? = none := by cases ty <;> first | rfl | cases integer
    cases dir with
    | inc =>
      have wide := bits_le_sum (Γ := Γ) .add integer (.inl rfl)
      refine ⟨_, by simp only [Untyped.arithmetic, Update.op, none]; rfl, ?_⟩
      rw [Word.cut_cut wide]
      simp [Update.amount, none]
    | dec =>
      have wide := bits_le_sum (Γ := Γ) .sub integer (.inr rfl)
      refine ⟨_, by simp only [Untyped.arithmetic, Update.op, none]; rfl, ?_⟩
      rw [Word.cut_cut wide]
      simp [Update.amount, none, BitVec.sub_eq_add_neg]
  · -- a pointer moves by whole elements
    cases dir with
    | inc =>
      refine ⟨_, rfl, ?_⟩
      simp [Update.amount, CType.pointee?, elementSize_eq, Untyped.whole]
    | dec =>
      refine ⟨_, rfl, ?_⟩
      simp [Update.amount, CType.pointee?, elementSize_eq, Untyped.whole, BitVec.sub_eq_add_neg,
        BitVec.ofInt_neg]

theorem cut_undo {w : Width} {old : Word} (extended : Word.Extended w old) (n : Int) :
    ((old + .ofInt 64 n).cut w + .ofInt 64 (-n)).cut w = old := by
  rw [Word.cut_add_cut, BitVec.ofInt_neg, BitVec.add_assoc, BitVec.add_right_neg, BitVec.add_zero]
  exact Word.extended_iff.mp extended

/-- **A postfix update gives the value before it.** The target of an update that has types designates
an integer or a pointer. In every memory in which its address is steady, the typed update gives the
value that the object held, with its sign extended, and leaves the object holding the old value plus
or minus one, or the size of what a pointer points to, cut to its width. Nothing else is written and
nothing is called. -/
theorem update_gives_old {note : Note} {target : Expr}
    (typed : expr Γ (.update note dir target) = .ok e) :
    ∃ x, expr Γ target = .ok x ∧ x.isLvalue = true ∧
      (x.ty.isInteger = true ∨ ∃ pointee, x.ty = .ptr pointee) ∧ e.ty = x.ty ∧
      ∀ (ctx : Tree.Context) (s : World) (a : Word), Tree.Steady ctx x s a → ∃ memory : Memory,
          Tree.expr ctx .value e s =
            .ok (s.memory.load (.ofType x.ty) a) ⟨memory, s.calls⟩ ∧
          (memory.load (.ofType x.ty) a).toInt =
            ((s.memory.load (.ofType x.ty) a).toInt + dir.amount Γ.structs x.ty).bmod
              (2 ^ (Width.ofType x.ty).bits) ∧
          ∀ b, (Width.ofType x.ty).bytes ≤ (b - a).toNat → memory b = s.memory b := by
  simp only [expr, bind_eq_ok] at typed
  obtain ⟨x, known, made⟩ := typed
  obtain ⟨designates, scalar, kind⟩ := update_target made
  refine ⟨x, known, designates, kind, update_type made scalar, fun ctx s a steady => ?_⟩
  obtain ⟨sum, added, stored⟩ := arithmetic_update (Γ := Γ) dir kind (s.memory.load (.ofType x.ty) a)
  refine ⟨s.memory.store (.ofType x.ty) a sum, ?_, ?_, fun _ => Memory.store_of_outside⟩
  · obtain ⟨back, taken, undone⟩ := arithmetic_update (Γ := Γ) dir.reverse kind (sum.cut (.ofType x.ty))
    rw [← Update.undo_eq_op_reverse] at taken
    rw [Update.amount_reverse, stored, cut_undo (Word.load_extended _ _ a)] at undone
    have one : Untyped.whole .int 1 = 1 := rfl
    rw [update_meaning one made, Tree.bind_of_ok (steady.address s.memory fun _ _ => rfl),
      Tree.bind_of_ok (steady.value_before designates scalar), added, pure_bind,
      Tree.bind_of_ok (Tree.write_of_allows steady.allowed),
      Tree.bind_of_ok (steady.value_after_store designates scalar sum), taken, pure_bind, undone]
    rfl
  · rw [Memory.load_store_cut, stored, Word.toInt_cut_add_ofInt]

/-! ## An example -/

def charVar : Var := { name := "c", ty := .char, offset := 1, loc := .atStart ⟨"c.c", ""⟩ }

def charLocal : Context where
  structs := {}
  functions := []
  globals := []
  strings := []
  locals := [charVar]
  implicitDecls := false

def charFrame : Tree.Context where
  host := ⟨fun _ => 0, fun _ _ memory => (0, memory), fun _ _ => true⟩
  structs := {}
  locals := [charVar]
  base := 4096

def charUpdate : Expr := .update ⟨.void, charVar.loc⟩ .inc (.var ⟨.void, charVar.loc⟩ 0)

def largest : Memory := fun _ => 127

theorem update_gives_old_largest : ∃ e memory, expr charLocal charUpdate = .ok e ∧
    Tree.expr charFrame .value e ⟨largest, []⟩ = .ok 127 ⟨memory, []⟩ ∧
    (memory.load .byte (charFrame.place charVar)).toInt = -128 := by
  obtain ⟨e, typed⟩ : ∃ e, expr charLocal charUpdate = .ok e := ⟨_, rfl⟩
  obtain ⟨x, target, -, -, -, gives⟩ := update_gives_old typed
  cases target
  obtain ⟨memory, value, new, -⟩ := gives charFrame ⟨largest, []⟩ (charFrame.place charVar)
    (Tree.steady_var rfl rfl)
  have old : largest.load .byte (charFrame.place charVar) = 127 := by decide
  have wrapped : ((127 : Word).toInt + 1).bmod (2 ^ 8) = -128 := by decide
  refine ⟨e, memory, typed, value.trans ?_, new.trans ?_⟩
  · exact congrArg (EStateM.Result.ok · _) old
  · exact (congrArg (fun v : Word => (v.toInt + 1).bmod (2 ^ 8)) old).trans wrapped

end Typing

end MiniC
