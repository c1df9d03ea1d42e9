import MiniC.Grammar.Initializer
import MiniC.Proofs.Layouts

/-!
# What an initializer can be blamed for

An initializer that exceeds its type is an error of its own, and only the image of a global can
fail with it: every other computation of the grammar is `Plain`. The initializers that the grammar
reads `Suit` the type they are read for: a string stands only where an array of `char` does.
-/

namespace MiniC

open List

/-! ## Plain errors -/

def SyntaxError.isPlain : SyntaxError → Bool
  | overrun _ => false
  | _ => true

def Plain {α : Type} (r : Except (Located SyntaxError) α) : Prop :=
  ∀ e, r = .error e → e.value.isPlain = true

namespace Plain

variable {α β : Type}

variable {a : α} {x : Except (Located SyntaxError) α}

theorem ok : Plain (.ok a) := by
  intro e failed
  cases failed

theorem pure : Plain (Pure.pure a) := ok

theorem error {e : Located SyntaxError} (h : e.value.isPlain = true) :
    Plain (.error e : Except _ α) := by
  intro e' same
  cases same
  exact h

theorem bind {f : α → Except (Located SyntaxError) β} (first : Plain x)
    (rest : ∀ a, Plain (f a)) : Plain (x >>= f) := by
  cases x with
  | ok a => exact rest a
  | error e => exact .error (first e rfl)

theorem ite {c : Prop} [Decidable c] {y : Except (Located SyntaxError) α} (yes : Plain x)
    (no : Plain y) : Plain (if c then x else y) := by
  split
  · exact yes
  · exact no

end Plain

theorem Constant.eval_plain (e : Expr) : Plain (Constant.eval e) := by
  fun_induction Constant.eval e with
  | case1 => exact .ok
  | case2 note op scaled lhs rhs left right =>
    refine left.bind fun l => .ite .pure (.ite .pure (right.bind fun r => ?_))
    cases Constant.binary op l r with
    | none => exact .error rfl
    | some value => exact .pure
  | case3 note op operand ih => exact ih.bind fun _ => .pure
  | case4 note test yes no test_ih yes_ih no_ih => exact test_ih.bind fun _ => .ite yes_ih no_ih
  | case5 note lhs rhs ih => exact ih
  | case6 note target operand ih => exact ih.bind fun _ => .pure
  | case7 => exact .error rfl

theorem Constant.evalAddress_plain (σ : Structs) (globals : List Global) (e : Expr) :
    Plain (Constant.evalAddress σ globals e) := by
  have number : ∀ e, Plain (do return (← Constant.eval e, (none : Option String))) :=
    fun e => (Constant.eval_plain e).bind fun _ => .pure
  fun_induction Constant.evalAddress σ globals e with
  | case1 => exact .ok
  | case2 => exact .ok
  | case3 note note' pointer ih => exact ih
  | case4 => exact .error rfl
  | case5 => exact .ok
  | case6 => exact number _
  | case7 note target operand ih => exact ih
  | case8 note op scaled lhs rhs sum ih =>
    refine ih.bind fun (base, symbol) => ?_
    cases symbol with
    | some symbol => exact (Constant.eval_plain rhs).bind fun _ => .pure
    | none => exact number _
  | case9 => exact number _
  | case10 => exact number _

namespace Init

theorem mismatch_plain {α : Type} (init : Init) (ty : CType) : Plain (init.mismatch ty : Except _ α) :=
  .error rfl

theorem inferLength_plain (σ : Structs) (ty : CType) (init : Option Init) :
    Plain (inferLength σ ty init) := by
  have sized : ∀ element length loc, Plain (inferLength.sized σ element length loc) := by
    intro element length loc
    unfold inferLength.sized
    extract_lets array?
    cases array? with
    | none => exact .error rfl
    | some ty => exact .ok
  unfold inferLength
  split
  · exact sized _ _ _
  · exact sized _ _ _
  · exact .ok

theorem scalarValue_plain (ty : CType) (init : Init) : Plain (scalarValue ty init) := by
  fun_induction scalarValue ty init with
  | case1 => exact .ok
  | case2 => exact .ok
  | case3 item loc ih => exact ih
  | case4 init => exact init.mismatch_plain ty

theorem assignElements_plain
    {assign : Expr → Option Init → Except (Located SyntaxError) (List Expr)}
    (each : ∀ e item, Plain (assign e item)) (array : Expr) (index count : Nat) (items : List Init) :
    Plain (assignElements assign array index count items) := by
  induction count generalizing index items with
  | zero => exact .ok
  | succ count ih => exact (each _ _).bind fun _ => (ih _ _).bind fun _ => .pure

mutual
theorem assignments_plain : (shape : Shape) → (target : Expr) → (init : Option Init) →
    Plain (assignments target shape init)
  | .scalar ty, target, init => by
    rw [assignments]
    refine .bind ?_ fun _ => .pure
    cases init with
    | none => exact .ok
    | some init => exact scalarValue_plain ty init
  | .array element length ty, target, init => by
    have each := fun e item => assignments_plain element e item
    rcases init with _ | e | ⟨items, loc⟩ | ⟨bytes, loc⟩
    · rw [assignments]
      exact assignElements_plain each _ _ _ _
    · exact mismatch_plain _ _
    · rw [assignments]
      exact .ite (mismatch_plain _ _) (assignElements_plain each _ _ _ _)
    · rw [assignments]
      exact .ite (mismatch_plain _ _) .pure
  | .struct members ty, target, init => by
    rcases init with _ | e | ⟨items, loc⟩ | ⟨bytes, loc⟩
    · rw [assignments]
      exact memberAssignments_plain members target []
    · exact mismatch_plain _ _
    · rw [assignments]
      exact .ite (mismatch_plain _ _) (memberAssignments_plain members target items)
    · exact mismatch_plain _ _
theorem memberAssignments_plain : (members : List (Field × Shape)) → (target : Expr) →
    (items : List Init) → Plain (memberAssignments target members items)
  | [], _, _ => .ok
  | (field, shape) :: members, target, items => by
    rw [memberAssignments]
    refine (assignments_plain shape _ _).bind fun _ => ?_
    exact (memberAssignments_plain members _ _).bind fun _ => .pure
end

theorem toExpr?_plain (σ : Structs) (target : Expr) (ty : CType) (init : Init) :
    Plain (init.toExpr? σ target ty) := by
  refine (assignments_plain (σ.shape ty) target (some init)).bind fun l => ?_
  cases l with
  | nil => exact .pure
  | cons first rest => exact .pure

variable (known : Known)

theorem scalarPart_plain (ty : CType) (offset : UInt32) (value : Expr) :
    Plain (scalarPart known ty offset value) := by
  refine (Constant.evalAddress_plain _ _ value).bind fun (number, symbol) => ?_
  cases symbol with
  | none => exact .pure
  | some symbol => exact .ite .pure (.error rfl)

mutual
def exprs : Init → List Expr
  | .expr value => [value]
  | .list items _ => allExprs items
  | .str .. => []
/-- The expressions of the items of a list. -/
def allExprs : List Init → List Expr
  | [] => []
  | item :: items => item.exprs ++ allExprs items
end

/-- Something holds of each part that is made, and something of the error that ends them. -/
structure Parts.All (P : Image.Part → Prop) (E : Located SyntaxError → Prop) (parts : Parts) :
    Prop where
  made : ∀ part ∈ parts.made, P part
  error : ∀ e ∈ parts.error, E e

section

variable {P : Image.Part → Prop} {E : Located SyntaxError → Prop}

theorem Parts.All.nil : Parts.All P E {} := ⟨forall_mem_nil _, fun _ absent => nomatch absent⟩

theorem Parts.All.append {first rest : Parts} (h : first.All P E) (h' : rest.All P E) :
    (first.append rest).All P E := by
  unfold Parts.append
  split
  · exact h
  · exact ⟨forall_mem_append.mpr ⟨h.made, h'.made⟩, h'.error⟩

theorem Parts.All.ok {part : Image.Part} (h : P part) : (Parts.ofExcept (.ok part)).All P E :=
  ⟨forall_mem_singleton.mpr h, fun _ absent => nomatch absent⟩

theorem Parts.All.fail {e : Located SyntaxError} (h : E e) : (Parts.ofExcept (.error e)).All P E :=
  ⟨forall_mem_nil _, fun _ same => Option.some.inj same ▸ h⟩

/-- Both hold of what an initializer gives without its expressions. -/
structure Parts.Routine (P : Image.Part → Prop) (E : Located SyntaxError → Prop) : Prop where
  mismatch : ∀ (init : Init) (ty : CType), E ⟨.badInitializer ty, init.loc⟩
  bytes : ∀ offset size content, P (.bytes offset size content)

mutual
/-- A walk over an initializer: it is enough to look at its expressions. -/
theorem parts_all (routine : Parts.Routine P E) : (init : Init) → (∀ value ∈ init.exprs, ∀ ty offset,
    (Parts.ofExcept (scalarPart known ty offset value)).All P E) →
    ∀ ty offset, (init.parts known ty offset).All P E
  | .expr value, scalars, ty, offset => by
    rw [parts]
    split
    · exact .fail (routine.mismatch _ _)
    · exact scalars value mem_cons_self ty offset
  | .str bytes loc, _, ty, offset => by
    cases ty with
    | array element length =>
      rw [parts]
      split
      · exact .fail (routine.mismatch _ _)
      · exact .ok (routine.bytes _ _ _)
    | _ => exact .fail (routine.mismatch (.str bytes loc) _)
  | .list items loc, scalars, ty, offset => by
    have refused : ∀ ty, (Parts.ofExcept (mismatch (.list items loc) ty)).All P E :=
      fun ty => .fail (routine.mismatch (.list items loc) ty)
    cases ty with
    | array element length =>
      rw [parts]
      split
      · exact refused _
      · exact elementParts_all routine items scalars element offset
    | struct ref =>
      rw [parts]
      split
      · exact refused _
      · exact memberParts_all routine items scalars _ offset
    | _ =>
      rcases items with _ | ⟨item, _ | _⟩
      · exact .nil
      · rw [parts]
        · exact parts_all routine item (forall_mem_append.mp scalars).1 _ offset
        · exact nofun
        · exact nofun
      · exact refused _
theorem elementParts_all (routine : Parts.Routine P E) : (items : List Init) →
    (∀ value ∈ allExprs items, ∀ ty offset,
      (Parts.ofExcept (scalarPart known ty offset value)).All P E) →
    ∀ element offset, (elementParts known element offset items).All P E
  | [], _, _, _ => .nil
  | item :: items, scalars, element, offset => by
    obtain ⟨here, later⟩ := forall_mem_append.mp scalars
    rw [elementParts]
    exact (parts_all routine item here element offset).append
      (elementParts_all routine items later element _)
theorem memberParts_all (routine : Parts.Routine P E) : (items : List Init) →
    (∀ value ∈ allExprs items, ∀ ty offset,
      (Parts.ofExcept (scalarPart known ty offset value)).All P E) →
    ∀ fields offset, (memberParts known offset fields items).All P E
  | [], _, _, _ => .nil
  | _ :: _, _, [], _ => .nil
  | item :: items, scalars, field :: fields, offset => by
    obtain ⟨here, later⟩ := forall_mem_append.mp scalars
    rw [memberParts]
    exact (parts_all routine item here field.ty _).append
      (memberParts_all routine items later fields offset)
end

end

variable {ty ty' : CType} {init : Init} {e : Located SyntaxError} {index : Nat}

theorem parts_plain (init : Init) (ty : CType) (offset : UInt32) :
    ∀ e ∈ (init.parts known ty offset).error, e.value.isPlain = true := by
  refine (parts_all known (P := fun _ => True) ⟨fun _ _ => rfl, fun _ _ _ => trivial⟩ init
    (fun value _ ty offset => ?_) ty offset).error
  have plain := scalarPart_plain known ty offset value
  cases made : scalarPart known ty offset value with
  | ok part => exact .ok trivial
  | error e => exact .fail (plain e made)

theorem image_of_put {image : Image} (put : (init.parts known ty 0).made.foldlM Image.put?
      (Image.zero (known.structs.size ty).toNat) = some image) :
    init.image known ty = (init.parts known ty 0).error.elim (.ok image) .error := by
  rw [Init.image, put]
  cases (init.parts known ty 0).error <;> rfl

theorem image_eq_ok {known : Known} {image : Image} (h : init.image known ty = .ok image) :
    (init.parts known ty 0).made.foldlM Image.put? (Image.zero (known.structs.size ty).toNat) =
      some image := by
  rw [Init.image] at h
  split at h <;> cases h
  assumption

/-- An overrun is blamed on the type of the image whose end is passed. -/
theorem image_overrun {known : Known} (h : init.image known ty = .error e)
    (same : e.value = .overrun ty') :
    ty' = ty ∧ (init.parts known ty 0).made.foldlM Image.put?
      (Image.zero (known.structs.size ty).toNat) = none := by
  cases put : (init.parts known ty 0).made.foldlM Image.put?
      (Image.zero (known.structs.size ty).toNat) with
  | none =>
    rw [Init.image, put] at h
    cases h
    cases same
    exact ⟨rfl, rfl⟩
  | some image =>
    rw [image_of_put known put] at h
    cases failed : (init.parts known ty 0).error with
    | none =>
      rw [failed] at h
      cases h
    | some e' =>
      rw [failed] at h
      cases h
      have plain := parts_plain known init ty 0 e failed
      rw [same] at plain
      cases plain

/-! ## Strings -/

mutual
def Suits (σ : Structs) (ty : CType) : Init → Prop
  | .expr _ => True
  | .list items _ => AllSuit σ ty 0 items
  | .str _ _ => Grammar.isCharArray ty = true
/-- Strings stand only for arrays of `char`, in the items of a list from `index` on. -/
def AllSuit (σ : Structs) (ty : CType) (index : Nat) : List Init → Prop
  | [] => True
  | item :: items => item.Suits σ (itemType σ ty index) ∧ AllSuit σ ty (index + 1) items
end

variable {σ σ' : Structs}

theorem allSuit_snoc {items : List Init} (h : AllSuit σ ty index items)
    (last : init.Suits σ (itemType σ ty (index + items.length))) :
    AllSuit σ ty index (items ++ [init]) := by
  induction items generalizing index with
  | nil => exact ⟨last, trivial⟩
  | cons item items ih =>
    refine ⟨h.1, ih h.2 ?_⟩
    rwa [length_cons, Nat.add_comm items.length, ← Nat.add_assoc] at last

mutual
theorem suits_of_void : (init : Init) → init.Suits σ .void → ∀ ty, init.Suits σ' ty
  | .expr _, _, _ => trivial
  | .str _ _, h, _ => nomatch h
  | .list items _, h, _ => allSuit_of_void items h _ 0
theorem allSuit_of_void {start : Nat} : (items : List Init) → AllSuit σ .void start items →
    ∀ ty index, AllSuit σ' ty index items
  | [], _, _, _ => trivial
  | item :: items, h, _, _ =>
    ⟨suits_of_void item h.1 _, allSuit_of_void items h.2 _ _⟩
end

theorem itemType_extends (larger : σ.Extends σ') (ty : CType) (index : Nat) :
    itemType σ' ty index = itemType σ ty index ∨ itemType σ ty index = .void := by
  cases ty with
  | struct ref =>
    cases found : σ.layout? ref with
    | none => right; simp [itemType, Structs.fields, found]
    | some layout => left; simp [itemType, Structs.fields, found, larger ref layout found]
  | _ => exact .inl rfl

theorem Suits.of_itemType (larger : σ.Extends σ')
    (h : init.Suits σ' (itemType σ ty index)) : init.Suits σ' (itemType σ' ty index) := by
  rcases itemType_extends larger ty index with same | void
  · rwa [same]
  · rw [void] at h
    exact suits_of_void init h _

mutual
theorem Suits.resize {element : CType} {length length' : UInt32} : {init : Init} →
    init.Suits σ (.array element length) → init.Suits σ (.array element length')
  | .expr _, _ => trivial
  | .str _ _, h => by cases element <;> exact h
  | .list _ _, h => AllSuit.resize h
theorem AllSuit.resize {element : CType} {length length' : UInt32} : {items : List Init} →
    {index : Nat} → AllSuit σ (.array element length) index items →
    AllSuit σ (.array element length') index items
  | [], _, _ => trivial
  | _ :: _, _, h => ⟨h.1, AllSuit.resize h.2⟩
end

theorem inferLength_suits (h : init.Suits σ ty)
    (inferred : inferLength σ ty (some init) = .ok ty') : init.Suits σ ty' := by
  have sized : ∀ {element length loc}, init.Suits σ (.array element 0) →
      inferLength.sized σ element length loc = .ok ty' → init.Suits σ ty' := by
    intro element length loc suits made
    unfold inferLength.sized Structs.checkedArray at made
    split at made
    · split at made
      · cases made
        exact suits.resize
      · cases made
    · cases made
  unfold inferLength at inferred
  split at inferred
  · exact sized h inferred
  · exact sized h inferred
  · cases inferred
    exact h

end Init

end MiniC
