/-!
# Types

The types of the language, and the table of its struct types.

A type is a plain value. A struct type is a reference into a `Structs` table:
its layout is fixed once, some time after the struct was declared, and every
type built from the reference sees it from then on. The table keeps the layouts
in the order they were fixed, newest first; since the members of a struct are
complete when its layout is fixed, an entry only relies on older entries.

Sizes are 32-bit words. `Structs.size` multiplies without a check, so it means
the size of an object only for types whose exact size fits.
-/

namespace MiniC

/-- A struct type: its place in the table of struct types, and its tag. -/
structure StructRef where
  index : Nat
  tag : Option String
deriving DecidableEq

/-- A type. An array of length zero was written `[]` and takes its length from
its initializer. -/
inductive CType where
  | void
  | char
  | int
  | long
  | ptr (target : CType)
  | array (element : CType) (length : UInt32)
  | struct (ref : StructRef)
deriving DecidableEq

def pointerSize : UInt32 := 8

/-- The largest object: distances inside a stack frame are signed 32-bit words. -/
def maxObjectSize : UInt32 := 2147483647

namespace StructRef

def text (ref : StructRef) : String :=
  match ref.tag with
  | some tag => s!"struct {tag}"
  | none => "struct <anonymous>"

end StructRef

namespace CType

/-- The type in words: an array is its element followed by its length. -/
def text : CType → String
  | void => "void"
  | char => "char"
  | int => "int"
  | long => "long"
  | ptr target => target.text ++ "*"
  | array element length => s!"{element.text}[{length.toNat}]"
  | struct ref => ref.text

def termText : CType → String
  | void => "Void"
  | char => "Char"
  | int => "Int"
  | long => "Long"
  | ptr target => s!"Ptr({target.termText})"
  | array element length => s!"Array({element.termText}, {length.toNat})"
  | struct ref => s!"Struct({ref.text})"

def isInteger : CType → Bool
  | char | int | long => true
  | _ => false

def isPointer : CType → Bool
  | ptr _ | array _ _ => true
  | _ => false

def isStruct : CType → Bool
  | struct _ => true
  | _ => false

def isVoid : CType → Bool
  | void => true
  | _ => false

/-- Arrays and structs: values that are handled by their address. -/
def isAggregate : CType → Bool
  | array _ _ | struct _ => true
  | _ => false

def pointee? : CType → Option CType
  | ptr target => some target
  | array element _ => some element
  | _ => none

def decay : CType → CType
  | array element _ => ptr element
  | ty => ty

def promote : CType → CType
  | char => int
  | ty => ty.decay

end CType

/-- A member of a struct and its distance from the start. -/
structure Field where
  name : String
  ty : CType
  offset : UInt32
deriving DecidableEq

/-- The members of a struct in order, with the size and alignment of the whole. -/
structure Layout where
  fields : List Field
  size : UInt32
  align : UInt32
deriving DecidableEq

/-- The struct types of a program: how many were declared, and the layouts of
those that were completed, the newest first. -/
structure Structs where
  declared : Nat := 0
  layouts : List (Nat × Layout) := []

namespace Structs

def declare (σ : Structs) (tag : Option String) : StructRef × Structs :=
  (⟨σ.declared, tag⟩, { σ with declared := σ.declared + 1 })

def layout? (σ : Structs) (ref : StructRef) : Option Layout :=
  (σ.layouts.find? (·.1 == ref.index)).map (·.2)

/-- Fixes the layout of a struct. A struct that is complete stays as it is, and
the answer is then `false`. -/
def complete (σ : Structs) (ref : StructRef) (layout : Layout) : Bool × Structs :=
  match σ.layout? ref with
  | some _ => (false, σ)
  | none => (true, { σ with layouts := (ref.index, layout) :: σ.layouts })

/-- The members of a struct in order; an incomplete one has none. -/
def fields (σ : Structs) (ref : StructRef) : List Field :=
  match σ.layout? ref with
  | some layout => layout.fields
  | none => []

def field? (σ : Structs) (ref : StructRef) (name : String) : Option Field :=
  (σ.fields ref).find? (·.name == name)

/-- The number of bytes of a type; an incomplete struct has none. -/
def size (σ : Structs) : CType → UInt32
  | .void | .char => 1
  | .int => 4
  | .long | .ptr _ => pointerSize
  | .array element length => σ.size element * length
  | .struct ref => (σ.layout? ref).elim 0 (·.size)

/-- The alignment of a type: that of its element or of its strictest member. -/
def align (σ : Structs) : CType → UInt32
  | .array element _ => σ.align element
  | .struct ref => (σ.layout? ref).elim 1 (·.align)
  | ty => σ.size ty

def isComplete (σ : Structs) : CType → Bool
  | .void => false
  | .array element _ => σ.isComplete element
  | .struct ref => (σ.layout? ref).isSome
  | _ => true

def checkedArray (σ : Structs) (element : CType) (length : UInt32) : Option CType :=
  if (σ.size element).toNat * length.toNat ≤ maxObjectSize.toNat then
    some (.array element length)
  else none

end Structs

end MiniC
