import MiniC.CType

/-!
# Struct layout

Members are placed in order, each at the next multiple of its alignment, and
the whole is rounded up to the strictest alignment. A struct larger than the
largest object has no layout.
-/

namespace MiniC

def alignTo (n align : UInt32) : UInt32 :=
  (n + align - 1) / align * align

namespace Layout

def addSize (a b : UInt32) : Option UInt32 :=
  if a.toNat + b.toNat ≤ maxObjectSize.toNat then some (a + b) else none

/-- Places members from `offset` on; `align` is the strictest alignment so far.
The answer adds the end of the last member and the final alignment. -/
def place (σ : Structs) (offset align : UInt32) :
    List (String × CType) → Option (List Field × UInt32 × UInt32)
  | [] => some ([], offset, align)
  | (name, ty) :: members => do
    let start := alignTo offset (σ.align ty)
    let stop ← addSize start (σ.size ty)
    let (fields, last, strictest) ← place σ stop (max align (σ.align ty)) members
    return (⟨name, ty, start⟩ :: fields, last, strictest)

def compute (σ : Structs) (members : List (String × CType)) : Option Layout := do
  let (fields, last, align) ← place σ 0 1 members
  let size := alignTo last align
  if size ≤ maxObjectSize then some ⟨fields, size, align⟩ else none

end Layout

end MiniC
