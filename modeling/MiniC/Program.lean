import MiniC.Program.Stmt

/-!
# Programs

A program is its functions, its globals with their initial images, the strings
it mentions, and the table of its struct types.
-/

namespace MiniC

/-- A local variable or parameter. `offset` is its distance below the frame
pointer, zero until the frame is laid out. -/
structure Var where
  name : String
  ty : CType
  offset : UInt32 := 0
  loc : Location

/-- A function; a prototype has no body. Its parameters are the locals it lists. -/
structure Function where
  name : String
  ret : CType
  params : List Nat
  locals : List Var
  body : Option Stmt
  stackSize : UInt32 := 0
  isStatic : Bool
  isVariadic : Bool
  loc : Location

/-- Eight bytes of an image that hold the address of a symbol plus an addend. -/
structure Relocation where
  offset : UInt32
  symbol : String
  addend : Int64

/-- The initial contents of a global. -/
structure Image where
  bytes : Array UInt8
  relocations : List Relocation := []

namespace Image

def zero (size : Nat) : Image := ⟨Array.replicate size 0, []⟩

def write (image : Image) (offset : Nat) : List UInt8 → Image
  | [] => image
  | byte :: rest => write { image with bytes := image.bytes.setIfInBounds offset byte } (offset + 1) rest

def relocate (image : Image) (relocation : Relocation) : Image :=
  { image with relocations := image.relocations ++ [relocation] }

def wordBytes (value : Int64) : Nat → List UInt8
  | 0 => []
  | count + 1 => value.toUInt64.toUInt8 :: wordBytes (value >>> 8) count

/-- A part of an image: bytes for a range of it, or the address of a symbol. -/
inductive Part where
  | bytes (offset size : Nat) (bytes : List UInt8)
  | address (relocation : Relocation)

/-- The image with a part put in. Bytes have to fill their range, and the range
has to be inside the image. -/
def put? (image : Image) : Part → Option Image
  | .bytes offset size bytes =>
    if bytes.length = size ∧ offset + size ≤ image.bytes.size then some (image.write offset bytes)
    else none
  | .address relocation => some (image.relocate relocation)

end Image

/-- A global variable. -/
structure Global where
  name : String
  ty : CType
  init : Option Image
  isExtern : Bool
  isStatic : Bool
  loc : Location

/-- A program. The strings are distinct and have no terminator; a string is
named by its place in the list. -/
structure Program where
  functions : List Function
  globals : List Global
  strings : List (List UInt8)
  structs : Structs
  loc : Location

def stringLabel (index : Nat) : String := s!".L.str.{index}"

end MiniC
