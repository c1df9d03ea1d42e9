import MiniC.CType.Layout
import MiniC.Program

/-!
# Stack frames

The locals of a function are placed below the frame pointer in order, each at a
distance that is a multiple of its alignment, and the frame is rounded up to 16
bytes. Sixteen bytes less than the largest object is the limit, so that the
rounding stays below it.
-/

namespace MiniC.Frame

def limit : UInt32 := maxObjectSize - 16

/-- Places locals below the first `offset` bytes of a frame. The answer adds the
distance of the last one; there is none if the frame is too large. -/
def place (σ : Structs) (offset : UInt32) : List Var → Option (List Var × UInt32)
  | [] => some ([], offset)
  | v :: rest =>
    if offset.toNat + (σ.size v.ty).toNat ≤ limit.toNat then do
      let offset := alignTo (offset + σ.size v.ty) (σ.align v.ty)
      let (rest, last) ← place σ offset rest
      return ({ v with offset } :: rest, last)
    else none

def layout (σ : Structs) (f : Function) : Option Function := do
  let (locals, last) ← place σ 0 f.locals
  return { f with locals, stackSize := alignTo last 16 }

end MiniC.Frame
