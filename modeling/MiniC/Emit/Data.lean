import MiniC.Asm
import MiniC.Program

/-!
# Data sections

The strings and the globals of a program: initialized data, then data that
starts as zero, then the start of the code. A global that is only declared has
no place in either.
-/

namespace MiniC.Emit

open Asm

def bytesPerLine : Nat := 16

def byteLines (bytes : List UInt8) : List Line :=
  if bytes.isEmpty then []
  else
    .directive (.byte (bytes.take bytesPerLine)) :: byteLines (bytes.drop bytesPerLine)
termination_by bytes.length
decreasing_by
  rename_i h
  cases bytes with
  | nil => exact absurd rfl h
  | cons _ _ => simp only [List.length_drop, List.length_cons, bytesPerLine]; omega

/-- The bytes of an image from `cursor` on, with relocations in the order of
their offsets. A relocation stands for eight bytes; none may overlap another or
start after the end. -/
def imageLines (bytes : Array UInt8) (cursor : Nat) : List Relocation → Option (List Line)
  | [] => some (byteLines (bytes.extract cursor bytes.size).toList)
  | r :: rest =>
    let offset := r.offset.toNat
    if cursor ≤ offset ∧ offset ≤ bytes.size then do
      let rest ← imageLines bytes (offset + 8) rest
      return byteLines (bytes.extract cursor offset).toList ++
        .directive (.quad r.symbol r.addend) :: rest
    else none

def image (image : Image) : Option (List Line) :=
  imageLines image.bytes 0 (image.relocations.mergeSort fun a b => a.offset ≤ b.offset)

/-- The lines that make a symbol visible to other programs, unless it is static. -/
def visibility (name : String) (isStatic : Bool) : List Line :=
  if isStatic then [] else [.directive (.globl name)]

def globalHead (σ : Structs) (g : Global) : List Line :=
  visibility g.name g.isStatic ++
    [.directive (.align (max (σ.align g.ty) 1)), .label (.symbol g.name)]

def stringLines (index : Nat) (bytes : List UInt8) : List Line :=
  .label (.symbol (stringLabel index)) :: byteLines (bytes ++ [0])

def strings (index : Nat) : List (List UInt8) → List Line
  | [] => []
  | bytes :: rest => stringLines index bytes ++ strings (index + 1) rest

def initialized (σ : Structs) : List Global → Option (List Line)
  | [] => some []
  | g :: rest => do
    let rest ← initialized σ rest
    match g.init with
    | some contents => return globalHead σ g ++ (← image contents) ++ rest
    | none => return rest

def zeroed (σ : Structs) (globals : List Global) : List Line :=
  (globals.filter (·.init.isNone)).flatMap fun g =>
    globalHead σ g ++ [.directive (.zero (σ.size g.ty))]

def data (p : Program) : Option (List Line) := do
  let stored := p.globals.filter (!·.isExtern)
  let images ← initialized p.structs stored
  return [.directive .intel, .directive .data] ++ strings 0 p.strings ++ images ++
    [.directive .bss] ++ zeroed p.structs stored ++ [.directive .text]

def functionHead (name : String) (isStatic : Bool) : List Line :=
  visibility name isStatic ++ [.label (.symbol name)]

end MiniC.Emit
