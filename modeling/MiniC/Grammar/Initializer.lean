import MiniC.CType.Shape
import MiniC.Grammar.Expression

/-!
# Initializers

An initializer is read against the type it is for, since only an array of
`char` takes a string literal as its contents. The initializer of a local then
becomes a list of assignments, one for each scalar of the variable, in order;
what is not mentioned is set to zero. The initializer of a global gives the
parts of its image.
-/

namespace MiniC

/-- An initializer. -/
inductive Init where
  | expr (value : Expr)
  | list (items : List Init) (loc : Location)
  | str (bytes : List UInt8) (loc : Location)

namespace Init

def loc : Init → Location
  | expr value => value.loc
  | list _ loc | str _ loc => loc

def mismatch {α : Type} (init : Init) (ty : CType) : Except (Located SyntaxError) α :=
  .error ⟨.badInitializer ty, init.loc⟩

def itemType (σ : Structs) (ty : CType) (index : Nat) : CType :=
  match ty with
  | .array element _ => element
  | .struct ref => (σ.fields ref)[index]?.elim .void (·.ty)
  | other => other

/-- An array type without a length, completed from its initializer. -/
def inferLength (σ : Structs) (ty : CType) (init : Option Init) :
    Except (Located SyntaxError) CType :=
  match ty, init with
  | .array element 0, some (.list items loc) => sized element items.length loc
  | .array element 0, some (.str bytes loc) => sized element (bytes.length + 1) loc
  | ty, _ => .ok ty
where
  /-- The array of `length` elements, which has to be representable. -/
  sized (element : CType) (length : Nat) (loc : Location) : Except (Located SyntaxError) CType :=
    let array? := if length < 4294967296 then σ.checkedArray element (.ofNat length) else none
    match array? with
    | some ty => .ok ty
    | none => .error ⟨.tooLarge, loc⟩

/-! ## Locals -/

def byteValue (byte : UInt8) : Int64 := byte.toInt8.toInt64

/-- What an initializer says of a scalar: a value, or nothing, which means
zero. Braces around a scalar mean nothing. -/
def scalarValue (ty : CType) : Init → Except (Located SyntaxError) (Option Expr)
  | expr value => .ok (some value)
  | list [] _ => .ok none
  | list [item] _ => scalarValue ty item
  | init => init.mismatch ty

/-- The assignments to the `count` elements of an array from `index` on, by what
`assign` does with an element and its item. -/
def assignElements (assign : Expr → Option Init → Except (Located SyntaxError) (List Expr))
    (array : Expr) (index : Nat) : Nat → List Init → Except (Located SyntaxError) (List Expr)
  | 0, _ => .ok []
  | count + 1, items => do
    let first ← assign (array.elementAt index) items.head?
    let rest ← assignElements assign array (index + 1) count items.tail
    return first ++ rest

/-- The assignments that copy a literal into an array of `count` elements. -/
def assignBytes (array : Expr) (bytes : List UInt8) (count : Nat) : List Expr :=
  (List.range count).zipWith
    (fun index byte => .mkAssign (array.elementAt index) (.numAt array.loc (byteValue byte)))
    (bytes ++ List.replicate (count - bytes.length) 0)

mutual
def assignments (target : Expr) : Shape → Option Init → Except (Located SyntaxError) (List Expr)
  | .scalar ty, init => do
    let value ← init.elim (.ok none) (scalarValue ty)
    return [.mkAssign target (value.getD (.numAt target.loc 0))]
  | .array element length ty, init =>
    match init with
    | none => assignElements (fun e item => assignments e element item) target 0 length.toNat []
    | some (.list items loc) =>
      if items.length > length.toNat then mismatch (.list items loc) ty
      else assignElements (fun e item => assignments e element item) target 0 length.toNat items
    | some (.str bytes loc) =>
      if bytes.length > length.toNat then mismatch (.str bytes loc) ty
      else return assignBytes target bytes length.toNat
    | some init => init.mismatch ty
  | .struct members ty, init =>
    match init with
    | none => memberAssignments target members []
    | some (.list items loc) =>
      if items.length > members.length then mismatch (.list items loc) ty
      else memberAssignments target members items
    | some init => init.mismatch ty
def memberAssignments (target : Expr) :
    List (Field × Shape) → List Init → Except (Located SyntaxError) (List Expr)
  | [], _ => .ok []
  | (field, shape) :: members, items => do
    let first ← assignments (.mkMember target field.name) shape items.head?
    let rest ← memberAssignments target members items.tail
    return first ++ rest
end

/-- The assignments that give `target` its initial value, as one expression. -/
def toExpr? (σ : Structs) (target : Expr) (ty : CType) (init : Init) :
    Except (Located SyntaxError) (Option Expr) := do
  match ← assignments target (σ.shape ty) (some init) with
  | [] => return none
  | first :: rest => return some (rest.foldl .mkComma first)

/-! ## Globals -/

/-- What is known of the program when an image is written. -/
structure Known where
  structs : Structs
  globals : List Global

/-- The parts of an image that an initializer gives, up to the error that ends
them if there is one. -/
structure Parts where
  made : List Image.Part := []
  error : Option (Located SyntaxError) := none

namespace Parts

def ofExcept : Except (Located SyntaxError) Image.Part → Parts
  | .ok part => { made := [part] }
  | .error e => { error := some e }

/-- The parts of two initializers, of which the second is not looked at after an
error. -/
def append (first rest : Parts) : Parts :=
  match first.error with
  | some _ => first
  | none => ⟨first.made ++ rest.made, rest.error⟩

end Parts

/-- What a constant says of a scalar of type `ty`. The address of a symbol needs
eight bytes. -/
def scalarPart (known : Known) (ty : CType) (offset : UInt32) (value : Expr) :
    Except (Located SyntaxError) Image.Part := do
  let size := known.structs.size ty
  match ← Constant.evalAddress known.structs known.globals value with
  | (addend, some symbol) =>
    if size = 8 then return .address ⟨offset, symbol, addend⟩ else throw ⟨.notConstant, value.loc⟩
  | (number, none) =>
    return .bytes offset.toNat size.toNat ((Image.wordBytes number 8).take size.toNat)

mutual
/-- The parts of an image that an initializer for `ty` gives, from an offset on. -/
def parts (known : Known) (ty : CType) (offset : UInt32) : Init → Parts
  | .expr value =>
    .ofExcept (if ty.isAggregate then mismatch (.expr value) ty else scalarPart known ty offset value)
  | .str bytes loc =>
    match ty with
    | .array _ length =>
      .ofExcept (if bytes.length > length.toNat then mismatch (.str bytes loc) ty
        else .ok (.bytes offset.toNat bytes.length bytes))
    | _ => .ofExcept (mismatch (.str bytes loc) ty)
  | .list items loc =>
    match ty with
    | .array element length =>
      if items.length > length.toNat then .ofExcept (mismatch (.list items loc) ty)
      else elementParts known element offset items
    | .struct ref =>
      let fields := known.structs.fields ref
      if items.length > fields.length then .ofExcept (mismatch (.list items loc) ty)
      else memberParts known offset fields items
    | ty =>
      match items with
      | [] => {}
      | [item] => parts known ty offset item
      | _ => .ofExcept (mismatch (.list items loc) ty)
/-- The parts that the items of an array give, one after the other. -/
def elementParts (known : Known) (element : CType) (offset : UInt32) : List Init → Parts
  | [] => {}
  | item :: items =>
    (parts known element offset item).append
      (elementParts known element (offset + known.structs.size element) items)
/-- The parts that the items of a struct give, at the offsets of its members. -/
def memberParts (known : Known) (offset : UInt32) (fields : List Field) : List Init → Parts
  | [] => {}
  | item :: items =>
    match fields with
    | [] => {}
    | field :: fields =>
      (parts known field.ty (offset + field.offset) item).append
        (memberParts known offset fields items)
end

/-- The image of an object of type `ty`. A part that does not fit ends the work,
also where a later part has an error: the parts are put in their order, and an
error is met after those before it. -/
def image (known : Known) (ty : CType) (init : Init) : Except (Located SyntaxError) Image :=
  let parts := parts known ty 0 init
  match parts.made.foldlM Image.put? (Image.zero (known.structs.size ty).toNat), parts.error with
  | none, _ => .error ⟨.overrun ty, init.loc⟩
  | some _, some e => .error e
  | some image, none => .ok image

end Init

namespace Grammar

open Parse

variable (below : Below)

/-- One more item of a list for `ty`, by a rule for it, or the closing brace. -/
def initializerItem (item : CType → Parse Init) (ty : CType) (items : List Init) :
    Parse (Round (List Init) (List Init)) := do
  if ← eat .closeCurly then return .done items.reverse
  else
    let init ← item (Init.itemType (← get).structs ty items.length)
    if ← eat .comma then return .more (init :: items)
    else
      expect .closeCurly
      return .done (init :: items).reverse

/-- The items of a list for `ty`, after its opening brace, by a rule for one item. -/
def initializerItems (item : CType → Parse Init) (ty : CType) : Parse (List Init) :=
  loop below (initializerItem item ty) []

def isCharArray : CType → Bool
  | .array .char _ => true
  | _ => false

def initializerOver (item : CType → Parse Init) (ty : CType) : Parse Init := do
  if ← eat .openCurly then
    let start := (← get).last
    let items ← initializerItems below item ty
    return .list items (← spanFrom start)
  else
    match ← peek? with
    | some (.str _) =>
      if isCharArray ty then
        let (loc, bytes) ← stringLiteral below
        return .str bytes loc
      else return .expr (← assign below)
    | _ => return .expr (← assign below)

/-- An initializer for `ty`, with lists nested less than `depth` deep. -/
def initializer : Nat → CType → Parse Init
  | 0, _ => stop below.stuck
  | depth + 1, ty => fun s => initializerOver below (initializer depth) ty s

def initializer? (ty : CType) : Parse (Option Init) := do
  if ← eat .assign then return some (← initializer below (below.limit + 1) ty) else return none

end Grammar

end MiniC
