import MiniC.Proofs.ObjectSizes

/-!
# What an initializer says

An object is made of scalars, its leaves. A leaf has a path from the object, a type, and an offset.
An initializer gives a leaf an expression, or a byte of a string, or nothing. The assignments that
initialize a local and the image that initializes a global are two readings of the same tree, one
along the type and one along the items: both give each leaf what the tree has for it, and both
refuse a tree at the first place where it does not fit.
-/

namespace MiniC

open List

/-! ## Leaves -/

/-- One step from an object to a part of it. -/
inductive Step where
  | element (index : Nat)
  | member (index : Nat) (name : String)

namespace Step

def index : Step → Nat
  | element index | member index _ => index

def apply (target : Expr) : Step → Expr
  | element index => target.elementAt index
  | member _ name => .mkMember target name

end Step

/-- A scalar of an object. -/
structure Leaf where
  path : List Step
  offset : Nat
  ty : CType

namespace Leaf

def access (leaf : Leaf) (target : Expr) : Expr := leaf.path.foldl Step.apply target

def within (step : Step) (distance : Nat) (leaf : Leaf) : Leaf :=
  ⟨step :: leaf.path, distance + leaf.offset, leaf.ty⟩

end Leaf

namespace Shape

mutual
def leaves (σ : Structs) : Shape → List Leaf
  | .scalar ty => [⟨[], 0, ty⟩]
  | .array element length _ => (List.range' 0 length.toNat).flatMap fun index =>
    (element.leaves σ).map (·.within (.element index) (index * (σ.size element.ty).toNat))
  | .struct members _ => memberLeaves σ 0 members
def memberLeaves (σ : Structs) (index : Nat) : List (Field × Shape) → List Leaf
  | [] => []
  | (field, shape) :: members =>
    (shape.leaves σ).map (·.within (.member index field.name) field.offset.toNat) ++
      memberLeaves σ (index + 1) members
end

end Shape

namespace Structs

def leaves (σ : Structs) (ty : CType) : List Leaf := (σ.shape ty).leaves σ

end Structs

/-- What an initializer gives a leaf. -/
inductive Given where
  | nothing
  | value (e : Expr)
  | byte (b : UInt8)

namespace Given

def toExpr (loc : Location) : Given → Expr
  | nothing => .numAt loc 0
  | value e => e
  | byte b => .numAt loc (Init.byteValue b)

def constant (known : Init.Known) : Given → Except (Located SyntaxError) (Int64 × Option String)
  | nothing => .ok (0, none)
  | value e => Constant.evalAddress known.structs known.globals e
  | byte b => .ok (Init.byteValue b, none)

def stored? (known : Init.Known) (given : Given) : Option (Int64 × Option String) :=
  if given matches nothing then none else (given.constant known).toOption

def IsConstant (known : Init.Known) (size : UInt32) (given : Given) : Prop :=
  ∃ number symbol?, given.constant known = .ok (number, symbol?) ∧ (symbol? ≠ none → size = 8)

instance (known : Init.Known) (size : UInt32) (given : Given) :
    Decidable (given.IsConstant known size) :=
  match h : given.constant known with
  | .error _ => isFalse fun ⟨_, _, same, _⟩ => nomatch h.symm.trans same
  | .ok (number, symbol?) =>
    decidable_of_iff (symbol? ≠ none → size = 8)
      ⟨fun eight => ⟨number, symbol?, h, eight⟩, fun ⟨_, _, same, eight⟩ => by
        cases h.symm.trans same
        exact eight⟩

end Given

namespace Image.Part

def cells : Part → List (Nat × UInt8)
  | bytes offset _ content => (content.zipIdx offset).map Prod.swap
  | address _ => []

end Image.Part

namespace Init

open Image (Part)

mutual
def given : Init → List Step → Given
  | .expr value, [] => .value value
  | .str bytes _, [step] => bytes[step.index]?.elim .nothing .byte
  | .list items _, [] => givenAt items 0 []
  | .list items _, step :: path => givenAt items step.index path
  | _, _ => .nothing
def givenAt : List Init → Nat → List Step → Given
  | [], _, _ => .nothing
  | item :: _, 0, path => item.given path
  | _ :: items, index + 1, path => givenAt items index path
end

def capacity (σ : Structs) : CType → Nat
  | .array _ length => length.toNat
  | .struct ref => (σ.fields ref).length
  | _ => 1

mutual
/-- The first part of an initializer that does not fit, with the type it is for: a list or a string
that is too long, or something of the wrong kind. -/
def fault? (σ : Structs) (ty : CType) : Init → Option (Init × CType)
  | .expr value => if ty.isAggregate then some (.expr value, ty) else none
  | .str bytes loc =>
    if Grammar.isCharArray ty ∧ bytes.length ≤ capacity σ ty then none else some (.str bytes loc, ty)
  | .list items loc =>
    if items.length ≤ capacity σ ty then itemFault? σ ty 0 items else some (.list items loc, ty)
/-- The first part of the items of a list that does not fit, from the `index`-th item on. -/
def itemFault? (σ : Structs) (ty : CType) (index : Nat) : List Init → Option (Init × CType)
  | [] => none
  | item :: items =>
    (item.fault? σ (itemType σ ty index)).or (itemFault? σ ty (index + 1) items)
end

def settle {α : Type} (fault : Option (Init × CType)) (result : α) :
    Except (Located SyntaxError) α :=
  fault.elim (.ok result) fun (part, ty) => part.mismatch ty

@[elab_as_elim]
theorem induction {P : Init → Prop} (expr : ∀ value, P (.expr value))
    (str : ∀ bytes loc, P (.str bytes loc))
    (list : ∀ items loc, (∀ item ∈ items, P item) → P (.list items loc)) (init : Init) : P init :=
  @Init.rec P (fun items => ∀ item ∈ items, P item) expr list str (forall_mem_nil _)
    (fun _ _ first rest => forall_mem_cons.mpr ⟨first, rest⟩) init

variable {σ : Structs} {ty : CType} {items : List Init} {index : Nat}

def assigned (target : Expr) (give : List Step → Given) (leaves : List Leaf) : List Expr :=
  leaves.map fun leaf => .mkAssign (leaf.access target) ((give leaf.path).toExpr target.loc)

theorem assigned_within (target : Expr) (give : List Step → Given) (leaves : List Leaf) (step : Step)
    (distance : Nat) : assigned target give (leaves.map (·.within step distance)) =
      assigned (step.apply target) (fun path => give (step :: path)) leaves := by
  have loc : (step.apply target).loc = target.loc := by cases step <;> rfl
  rw [assigned, assigned, map_map, loc]
  rfl

theorem assigned_append (target : Expr) (give : List Step → Given) (first rest : List Leaf) :
    assigned target give (first ++ rest) = assigned target give first ++ assigned target give rest :=
  map_append

mutual
/-- Without an initializer nothing is given for any leaf. -/
theorem assignments_none (σ : Structs) : (shape : Shape) → ∀ target : Expr,
    assignments target shape none = .ok (assigned target (fun _ => .nothing) (shape.leaves σ))
  | .scalar ty => fun target => rfl
  | .array element length ty => by
    intro target
    have elements : ∀ count index,
        assignElements (fun e item => assignments e element item) target index count [] =
          .ok (assigned target (fun _ => .nothing) ((List.range' index count).flatMap fun index =>
            (element.leaves σ).map
              (·.within (.element index) (index * (σ.size element.ty).toNat)))) := by
      intro count
      induction count with
      | zero => exact fun _ => rfl
      | succ count ih =>
        intro index
        rw [assignElements, List.head?_nil, assignments_none σ element, tail_nil, ih,
          List.range'_succ, flatMap_cons, assigned_append, assigned_within]
        rfl
    exact elements length.toNat 0
  | .struct members ty => fun target => memberAssignments_none σ members 0 target
theorem memberAssignments_none (σ : Structs) : (members : List (Field × Shape)) →
    ∀ (index : Nat) (target : Expr), memberAssignments target members [] =
      .ok (assigned target (fun _ => .nothing) (Shape.memberLeaves σ index members))
  | [] => fun _ _ => rfl
  | (field, shape) :: members => by
    intro index target
    rw [memberAssignments, List.head?_nil, assignments_none σ shape, tail_nil,
      memberAssignments_none σ members (index + 1), Shape.memberLeaves, assigned_append,
      assigned_within]
    rfl
end

variable {element : CType} {length : UInt32} {ref : StructRef} {item init : Init}
  {i base start stop position : Nat} {bytes : List UInt8} {give : List Step → Given}
  {parts : List Part} {leaf : Leaf}

/-- Parts put the same bytes and the same addresses into an image. -/
structure Alike (first second : List Part) : Prop where
  cells : first.flatMap Part.cells = second.flatMap Part.cells
  relocations : first.filterMap Part.relocation? = second.filterMap Part.relocation?

theorem Alike.refl (parts : List Part) : Alike parts parts := ⟨rfl, rfl⟩

theorem Alike.append {first second first' second' : List Part} (h : Alike first second)
    (h' : Alike first' second') : Alike (first ++ first') (second ++ second') := by
  constructor
  · rw [flatMap_append, flatMap_append, h.cells, h'.cells]
  · rw [filterMap_append, filterMap_append, h.relocations, h'.relocations]

variable {known : Known}

def constantPart (size : UInt32) (offset : Nat) (constant : Int64 × Option String) : Part :=
  constant.2.elim (.bytes offset size.toNat ((Image.wordBytes constant.1 8).take size.toNat))
    fun symbol => .address ⟨.ofNat offset, symbol, constant.1⟩

/-- The part that a leaf of an object at an offset is given, if it is given anything. -/
def leafPart? (known : Known) (base : Nat) (give : List Step → Given) (leaf : Leaf) : Option Part :=
  ((give leaf.path).stored? known).map
    (constantPart (known.structs.size leaf.ty) (base + leaf.offset))

def filled (known : Known) (base : Nat) (give : List Step → Given) (leaves : List Leaf) :
    List Part := leaves.filterMap (leafPart? known base give)

def room (σ : Structs) (leaf : Leaf) : Part :=
  .bytes leaf.offset (σ.size leaf.ty).toNat (List.replicate (σ.size leaf.ty).toNat 0)

def relocation? (known : Known) (give : List Step → Given) (leaf : Leaf) : Option Relocation := do
  let (addend, symbol?) ← ((give leaf.path).constant known).toOption
  return ⟨.ofNat leaf.offset, ← symbol?, addend⟩

def pair : CType := .array (.struct ⟨0, some "S"⟩) 2

def passes : EStateM.Result (Located SyntaxError) ParseState Init → Bool
  | .ok init t => (init.fault? t.structs pair).isNone ∧ t.structs.extent pair = 48 ∧
    ∀ leaf ∈ t.structs.leaves pair,
      (init.given leaf.path).IsConstant ⟨t.structs, t.globals⟩ (t.structs.size leaf.ty)
  | .error .. => false

end Init

end MiniC
