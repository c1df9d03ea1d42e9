import MiniC.CType

/-!
# Shapes

The shape of a type is the type with its struct members written out: what an
initializer for it has to fill. The table of struct types is walked from its
newest entry to older ones, so a shape is finite whatever the table holds.
-/

namespace MiniC

/-- A type with the members of its structs written out. -/
inductive Shape where
  | scalar (ty : CType)
  | array (element : Shape) (length : UInt32) (ty : CType)
  | struct (members : List (Field × Shape)) (ty : CType)

namespace Shape

def ty : Shape → CType
  | scalar ty | array _ _ ty | struct _ ty => ty

end Shape

namespace Structs

def shapeWith (members : StructRef → List (Field × Shape)) : CType → Shape
  | .array element length =>
    .array (shapeWith members element) length (.array element length)
  | .struct ref => .struct (members ref) (.struct ref)
  | ty => .scalar ty

/-- The members of a struct with their shapes, read off the entries of a table. -/
def memberShapes : List (Nat × Layout) → StructRef → List (Field × Shape)
  | [], _ => []
  | (index, layout) :: older, ref =>
    if index = ref.index then
      layout.fields.map fun field => (field, shapeWith (memberShapes older) field.ty)
    else memberShapes older ref

def shape (σ : Structs) (ty : CType) : Shape :=
  shapeWith (memberShapes σ.layouts) ty

end Structs

end MiniC
